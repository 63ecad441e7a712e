import TreeSitter.Generate.PrepareGrammar.ExpandRegex
import TreeSitter.Library.Fallible

/-!
# TreeSitter.Generate.PrepareGrammar.ExpandRegexSound

What `expand_regex` builds. `Expanded L next b added b'` is the contract of one
expansion: from where the expression starts, the new states read a word of `L` and
go on at `next`; a call that says it **added** nothing changed nothing, and its
language is `{ε}`. Contracts compose along the code (`Expanded.andThen`), and each
repetition helper turns a contract of its body into one of the repetition.

A repetition `{min,}` with `min ≥ 2` meets it for the wrong language
(`Expander.unbounded`): the counted part is expanded to continue at `next` and not at
the loop that was built first, so the loop is unreachable.
-/

namespace TreeSitter.Generate

open List Language Library Computability

/-! ### The contract -/

/-- Where an expansion starts: at the last state if it added states, else where it
was told to continue. -/
def startState (added : Bool) (b : NfaBuilder) (next : Nat) : Nat :=
  if added then b.lastStateId else next

@[simp] theorem startState_true (b : NfaBuilder) (next : Nat) :
    startState true b next = b.lastStateId := rfl

@[simp] theorem startState_false (b : NfaBuilder) (next : Nat) :
    startState false b next = next := rfl

/-- The contract of one expansion of an expression with language `L`. -/
structure Expanded (L : Language Char) (next : Nat) (b : NfaBuilder) (added : Bool)
    (b' : NfaBuilder) : Prop where
  mode : b.SameMode b'
  grows : b.states <+: b'.states
  built : Built b.states.length b'.states L (startState added b' next) next
  added_lt : added = true → b.states.length < b'.states.length
  same : added = false → b' = b ∧ L = 1

/-- An expansion function that always succeeds and meets the contract. -/
def Expander (sub : Nat → NfaBuilder → ExpandRegexResult) (L : Language Char)
    (added : Bool) : Prop :=
  ∀ next b, ∃ b', sub next b = .ok (added, b') ∧ Expanded L next b added b'

variable {sub : Nat → NfaBuilder → ExpandRegexResult} {K L : Language Char}
  {added : Bool} {next : Nat} {b b' b'' : NfaBuilder}

theorem Expanded.none (next : Nat) (b : NfaBuilder) : Expanded 1 next b false b where
  mode := .refl b
  grows := prefix_refl _
  built := Built.refl _ _ _
  added_lt h := by cases h
  same _ := ⟨rfl, rfl⟩

theorem Expanded.congr (h : Expanded K next b added b') (hKL : K = L) :
    Expanded L next b added b' := hKL ▸ h

/-- Two expansions in a row, the second to continue where the first starts: the
second is read first. -/
theorem Expanded.andThen {added₁ added₂ : Bool} (h₁ : Expanded K next b added₁ b')
    (h₂ : Expanded L (startState added₁ b' next) b' added₂ b'') :
    Expanded (L * K) next b (added₁ || added₂) b'' where
  mode := h₁.mode.trans h₂.mode
  grows := h₁.grows.trans h₂.grows
  built := by
    have hK := h₁.built.mono h₂.grows le_rfl
    have hL := h₂.built.mono (prefix_refl _) h₁.grows.length_le
    cases added₂ with
    | true => simpa [startState] using hL.trans hK
    | false =>
      obtain ⟨rfl, rfl⟩ := h₂.same rfl
      simpa [startState] using hK
  added_lt h := by
    cases added₂ with
    | true => exact h₁.grows.length_le.trans_lt (h₂.added_lt rfl)
    | false => exact (h₁.added_lt (by simpa using h)).trans_le h₂.grows.length_le
  same h := by
    rw [Bool.or_eq_false_iff] at h
    obtain ⟨rfl, rfl⟩ := h₁.same h.1
    obtain ⟨rfl, rfl⟩ := h₂.same h.2
    exact ⟨rfl, one_mul 1⟩

theorem Expanded.startState_andThen {added₁ added₂ : Bool}
    (h₂ : Expanded L (startState added₁ b' next) b' added₂ b'') :
    startState (added₁ || added₂) b'' next =
      startState added₂ b'' (startState added₁ b' next) := by
  cases added₂ with
  | true => simp [startState]
  | false =>
    obtain ⟨rfl, -⟩ := h₂.same rfl
    simp [startState]

theorem Expanded.pushSplit (h : Expanded L next b true b') :
    Expanded (1 + L) next b true (b'.pushSplit next) where
  mode := h.mode.trans (b'.sameMode_pushState _)
  grows := h.grows.trans (prefix_append _ _)
  built := Built.pushSplit h.grows.length_le (Built.refl _ _ _) h.built
  added_lt _ := by
    have := h.added_lt rfl
    simp only [NfaBuilder.pushSplit_states, length_append, length_singleton]
    omega
  same h := by cases h

/-! ### Repetitions -/

variable {t : Nat}

/-- Writing the split over the placeholder closes the loop: the body below returns
to the placeholder's index. -/
theorem Built.closeLoop {N N' : List NfaState} {s p : Nat} {state : NfaState} (hp : p = N.length)
    (hgrows : N ++ [state] <+: N') (hbody : Built (N ++ [state]).length N' L s p) :
    Built N.length (N'.set p (.split s t)) (L * L∗) s t := by
  intro M hM
  have hlen : N.length < N'.length := by
    have := hgrows.length_le
    rw [length_append, length_singleton] at this
    omega
  have hsplit : view M p = some (.split s t) :=
    hM.view_eq hp.ge (getElem?_set_self (hp ▸ hlen))
  refine Frag.loop hsplit (hbody M fun i hlo hi => ?_)
  rw [length_append, length_singleton] at hlo
  rw [hM i (by omega) (by simpa using hi), getElem?_set_ne (by omega)]

section

variable (h : Expander sub L added)

include h

theorem Expander.oneOrMore : Expander (expandOneOrMore sub) (L * L∗) added := by
  intro next b
  obtain ⟨b', hb', hexp⟩ := h b.states.length (b.pushState (.accept 0 0))
  cases added with
  | false =>
    obtain ⟨rfl, rfl⟩ := hexp.same rfl
    refine ⟨b, ?_, ?_⟩
    · simp only [expandOneOrMore, NfaBuilder.lastStateId_pushState, hb', ok_bind]
      simp [NfaBuilder.pushState]
    · exact (Expanded.none next b).congr (by rw [kstar_one, one_mul])
  | true =>
    refine ⟨_, by simp only [expandOneOrMore, NfaBuilder.lastStateId_pushState, hb']; rfl, ?_⟩
    have hlt := hexp.added_lt rfl
    rw [NfaBuilder.pushState_states, length_append, length_singleton] at hlt
    have hbody := hexp.built
    simp only [startState, if_true, NfaBuilder.pushState_states] at hbody
    refine ⟨hexp.mode, ?_, ?_, fun _ => ?_, fun h => by cases h⟩
    · -- the overwritten state lies above the states of `b`
      obtain ⟨rest, hrest⟩ := (prefix_append b.states [_]).trans hexp.grows
      refine ⟨rest.set 0 (.split b'.lastStateId next), ?_⟩
      rw [← hrest, set_append_right _ _ le_rfl, Nat.sub_self]
    · simpa [startState, NfaBuilder.lastStateId] using
        Built.closeLoop (t := next) rfl hexp.grows hbody
    · simp only [length_set]
      omega

theorem Expander.zeroOrOne : Expander (expandZeroOrOne sub) (1 + L) added := by
  intro next b
  obtain ⟨b', hb', hexp⟩ := h next b
  cases added with
  | false =>
    obtain ⟨rfl, rfl⟩ := hexp.same rfl
    exact ⟨b', by simp [expandZeroOrOne, hb'], (Expanded.none next b').congr (add_self 1).symm⟩
  | true => exact ⟨_, by simp [expandZeroOrOne, hb'], hexp.pushSplit⟩

theorem Expander.zeroOrMore : Expander (expandZeroOrMore sub) (L∗) added := by
  intro next b
  obtain ⟨b', hb', hexp⟩ := h.oneOrMore next b
  have hstar : 1 + L * L∗ = L∗ := one_add_self_mul_kstar_eq_kstar L
  cases added with
  | false =>
    obtain ⟨rfl, hL⟩ := hexp.same rfl
    refine ⟨b', by simp [expandZeroOrMore, hb'], (Expanded.none next b').congr ?_⟩
    rw [← hstar, hL, add_self]
  | true => exact ⟨_, by simp [expandZeroOrMore, hb'], hexp.pushSplit.congr hstar⟩

theorem expandCountGo_spec (n : Nat) :
    ∀ {K : Language Char} {result : Bool} {b b₀ : NfaBuilder} {next₀ : Nat},
      Expanded K next₀ b₀ result b →
      ∃ b', expandCountGo sub result (startState result b next₀) b n =
          .ok (result || (added && n != 0), b') ∧
        Expanded (L ^ n * K) next₀ b₀ (result || (added && n != 0)) b' := by
  induction n with
  | zero =>
    intro K result b b₀ next₀ hK
    exact ⟨b, by simp [expandCountGo], by simpa using hK⟩
  | succ n ih =>
    intro K result b b₀ next₀ hK
    obtain ⟨b₁, hb₁, hexp⟩ := h (startState result b next₀) b
    have hK' := hK.andThen hexp
    obtain ⟨b', hb', hexp'⟩ := ih hK'
    refine ⟨b', ?_, ?_⟩
    · rw [hexp.startState_andThen] at hb'
      cases added with
      | true => simpa [expandCountGo, hb₁, startState_true] using hb'
      | false => simpa [expandCountGo, hb₁, startState_false] using hb'
    · rw [pow_succ, mul_assoc]
      cases added with
      | true | false => simpa using hexp'

theorem Expander.count (n : Nat) : Expander (expandCount sub n) (L ^ n) (added && n != 0) := by
  intro next b
  obtain ⟨b', hb', hexp⟩ := expandCountGo_spec h n (Expanded.none next b)
  refine ⟨b', by simpa [expandCount] using hb', ?_⟩
  simpa using hexp

theorem expandOptional_spec (n : Nat) :
    ∀ {K : Language Char} {result : Bool} {b b₀ : NfaBuilder} {next₀ next : Nat},
      Expanded K next₀ b₀ result b → (result = false → next = next₀) →
      ∃ b', expandOptional sub result next b n =
          .ok (result || (added && n != 0), b') ∧
        Expanded ((1 + L) ^ n * K) next₀ b₀ (result || (added && n != 0)) b' := by
  induction n with
  | zero =>
    intro K result b b₀ next₀ next hK hnext
    exact ⟨b, by simp [expandOptional], by simpa using hK⟩
  | succ n ih =>
    intro K result b b₀ next₀ next hK hnext
    have hstart : (if result = true then b.lastStateId else next) =
        startState result b next₀ := by
      cases result with
      | true => simp [startState]
      | false => simp [startState, hnext]
    obtain ⟨b₁, hb₁, hexp⟩ := h.zeroOrOne (startState result b next₀) b
    have hsame : (result || added) = false → startState result b next₀ = next₀ :=
      fun hr => by simp [startState, (Bool.or_eq_false_iff.mp hr).1]
    obtain ⟨b', hb', hexp'⟩ := ih (hK.andThen hexp) hsame
    refine ⟨b', ?_, ?_⟩
    · cases added with
      | true | false => simpa [expandOptional, hstart, hb₁] using hb'
    · rw [pow_succ, mul_assoc]
      cases added with
      | true | false => simpa using hexp'

end

/-! ### The languages of repetitions -/

theorem repetitionLang_zero_none (L : Language Char) : repetitionLang L 0 none = L∗ := by
  rw [kstar_eq_iSup_pow]
  ext w
  rw [mem_iSup]
  exact ⟨fun ⟨k, _, _, hw⟩ => ⟨k, hw⟩, fun ⟨k, hw⟩ => ⟨k, Nat.zero_le k, by simp, hw⟩⟩

theorem repetitionLang_add (L : Language Char) (min n : Nat) :
    repetitionLang L (min + n) none = L ^ n * repetitionLang L min none := by
  ext w
  rw [mem_mul]
  constructor
  · rintro ⟨k, hk, -, hw⟩
    obtain ⟨j, rfl⟩ := Nat.exists_eq_add_of_le hk
    rw [show min + n + j = n + (min + j) by omega, pow_add, mem_mul] at hw
    obtain ⟨x, hx, y, hy, rfl⟩ := hw
    exact ⟨x, hx, y, ⟨min + j, by omega, by simp, hy⟩, rfl⟩
  · rintro ⟨x, hx, y, ⟨k, hk, -, hy⟩, rfl⟩
    refine ⟨n + k, by omega, by simp, ?_⟩
    rw [pow_add]
    exact append_mem_mul hx hy

theorem repetitionLang_one_none (L : Language Char) : repetitionLang L 1 none = L * L∗ := by
  simpa [repetitionLang_zero_none] using repetitionLang_add L 0 1

/-- Dropping the upper bound adds nothing exactly when one more word adds nothing. -/
theorem repetitionLang_eq_pow_iff (L : Language Char) (min : Nat) :
    repetitionLang L min none = L ^ min ↔ L ^ (min + 1) ≤ L ^ min := by
  constructor
  · intro h w hw
    rw [← h]
    exact ⟨min + 1, by omega, by simp, hw⟩
  · intro h
    have hpow : ∀ j, L ^ (min + j) ≤ L ^ min := by
      intro j
      induction j with
      | zero => exact le_rfl
      | succ j ih =>
        calc L ^ (min + (j + 1)) = L ^ (min + j) * L := by rw [← pow_succ, Nat.add_assoc]
          _ ≤ L ^ min * L := mul_le_mul_left ih L
          _ = L ^ (min + 1) := (pow_succ L min).symm
          _ ≤ L ^ min := h
    ext w
    constructor
    · rintro ⟨k, hk, -, hw⟩
      obtain ⟨j, rfl⟩ := Nat.exists_eq_add_of_le hk
      exact hpow j hw
    · intro hw
      exact ⟨min, le_rfl, by simp, hw⟩

theorem mem_one_add_pow {L : Language Char} {n : Nat} {w : List Char} :
    w ∈ (1 + L) ^ n ↔ ∃ k ≤ n, w ∈ L ^ k := by
  induction n generalizing w with
  | zero => simp
  | succ n ih =>
    rw [pow_succ', add_mul, one_mul, mem_add, ih, mem_mul]
    constructor
    · rintro (⟨k, hk, hw⟩ | ⟨x, hx, y, hy, rfl⟩)
      · exact ⟨k, by omega, hw⟩
      · obtain ⟨k, hk, hy⟩ := ih.mp hy
        exact ⟨k + 1, by omega, by rw [pow_succ']; exact append_mem_mul hx hy⟩
    · rintro ⟨k, hk, hw⟩
      cases k with
      | zero => exact Or.inl ⟨0, Nat.zero_le n, hw⟩
      | succ k =>
        rw [pow_succ', mem_mul] at hw
        obtain ⟨x, hx, y, hy, rfl⟩ := hw
        exact Or.inr ⟨x, hx, y, ih.mpr ⟨k, by omega, hy⟩, rfl⟩

variable {min max : Nat}

theorem repetitionLang_some (L : Language Char) (h : min ≤ max) :
    repetitionLang L min (some max) = (1 + L) ^ (max - min) * L ^ min := by
  ext w
  rw [mem_mul]
  constructor
  · rintro ⟨k, hk, hmax, hw⟩
    have hkmax : k ≤ max := hmax max rfl
    obtain ⟨j, rfl⟩ := Nat.exists_eq_add_of_le hk
    rw [Nat.add_comm, pow_add, mem_mul] at hw
    obtain ⟨x, hx, y, hy, rfl⟩ := hw
    exact ⟨x, mem_one_add_pow.mpr ⟨j, by omega, hx⟩, y, hy, rfl⟩
  · rintro ⟨x, hx, y, hy, rfl⟩
    obtain ⟨j, hj, hx⟩ := mem_one_add_pow.mp hx
    refine ⟨j + min, by omega, fun m hm => ?_, ?_⟩
    · cases hm
      omega
    · rw [pow_add]
      exact append_mem_mul hx hy

/-! ### The repetition arm -/

/-- Whether a repetition adds states when its body does: all but `{0,0}` do. -/
def repetitionAdds (added : Bool) : Option Nat → Bool
  | some max => added && max != 0
  | none => added

theorem expandRepetition_bounded (sub : Nat → NfaBuilder → ExpandRegexResult) (next : Nat)
    (b : NfaBuilder) (h : ¬ (min = 0 ∧ max = 1)) :
    expandRepetition sub next b min (some max) =
      if min = max then expandCount sub min next b
      else expandCount sub min next b >>= fun p => expandOptional sub p.1 next p.2 (max - min) := by
  unfold expandRepetition
  split <;> simp_all

theorem expandRepetition_unbounded (sub : Nat → NfaBuilder → ExpandRegexResult) (next : Nat)
    (b : NfaBuilder) (h : 2 ≤ min) :
    expandRepetition sub next b min none =
      expandZeroOrMore sub next b >>= fun p =>
        if p.1 then expandCount sub min next p.2 else pure (false, p.2) := by
  match min, h with
  | min + 2, _ => rfl

theorem Expander.bounded (h : Expander sub L added) (hle : min ≤ max) :
    Expander (fun next b => expandRepetition sub next b min (some max))
      (repetitionLang L min (some max)) (repetitionAdds added (some max)) := by
  intro next b
  by_cases hzero : min = 0 ∧ max = 1
  · obtain ⟨rfl, rfl⟩ := hzero
    obtain ⟨b', hb', hexp⟩ := h.zeroOrOne next b
    exact ⟨b', by simpa [repetitionAdds, expandRepetition] using hb',
      by simpa [repetitionLang_some L hle, repetitionAdds] using hexp⟩
  · simp only [expandRepetition_bounded sub next b hzero]
    obtain ⟨b₁, hb₁, hexp₁⟩ := h.count min next b
    by_cases heq : min = max
    · subst heq
      rw [if_pos rfl, hb₁]
      exact ⟨b₁, rfl, by simpa [repetitionLang_some L hle, repetitionAdds] using hexp₁⟩
    · obtain ⟨b₂, hb₂, hexp₂⟩ := expandOptional_spec h (max - min) hexp₁ (fun _ => rfl)
      have hadds : (added && min != 0 || added && max - min != 0) =
          repetitionAdds added (some max) := by
        have h₁ : (max - min != 0) = true := by simp; omega
        have h₂ : (max != 0) = true := by simp; omega
        rw [repetitionAdds, h₁, h₂, ← Bool.and_or_distrib_left, Bool.or_true]
      rw [if_neg heq, hb₁, ok_bind, hb₂, hadds]
      exact ⟨b₂, rfl, by rw [repetitionLang_some L hle, ← hadds]; exact hexp₂⟩

/-- `{min,}` with `min ≥ 2` reads `min` words and no more: the loop it builds first is
not connected to the counted part. -/
theorem Expander.unbounded (h : Expander sub L added) (hmin : 2 ≤ min) :
    Expander (fun next b => expandRepetition sub next b min none) (L ^ min) added := by
  intro next b
  simp only [expandRepetition_unbounded sub next b hmin]
  obtain ⟨b₁, hb₁, hexp₁⟩ := h.zeroOrMore next b
  rw [hb₁, ok_bind]
  cases added with
  | false =>
    obtain ⟨rfl, hL⟩ := hexp₁.same rfl
    refine ⟨b₁, rfl, (Expanded.none next b₁).congr ?_⟩
    obtain ⟨b₂, -, hexp₂⟩ := h next b₁
    rw [(hexp₂.same rfl).2, one_pow]
  | true =>
    obtain ⟨b₂, hb₂, hexp₂⟩ := h.count min next b₁
    have hadds : (true && min != 0) = true := by simp; omega
    rw [hadds] at hb₂ hexp₂
    refine ⟨b₂, by simpa using hb₂, ?_⟩
    have hlt := hexp₂.added_lt rfl
    have hle := hexp₁.grows.length_le
    exact ⟨hexp₁.mode.trans hexp₂.mode, hexp₁.grows.trans hexp₂.grows,
      hexp₂.built.mono (prefix_refl _) hle, fun _ => by omega, fun h => by cases h⟩

/-! ### Leaves -/

theorem mem_classChars_go (ranges : List ClassUnicodeRange) (chars : CharacterSet) (x : Nat) :
    x ∈ ranges.foldl (fun chars c => chars.addRange c.start c.stop c.le) chars ↔
      x ∈ chars ∨ ∃ r ∈ ranges, r.start.toNat ≤ x ∧ x ≤ r.stop.toNat := by
  induction ranges generalizing chars with
  | nil => simp
  | cons r rs ih =>
    rw [foldl_cons, ih, CharacterSet.mem_addRange, exists_mem_cons_iff]
    tauto

theorem mem_classChars (ranges : List ClassUnicodeRange) (c : Char) :
    c.toNat ∈ classChars ranges ↔ ∃ r ∈ ranges, r.start ≤ c ∧ c ≤ r.stop := by
  rw [classChars, mem_classChars_go]
  simp only [CharacterSet.not_mem_empty, false_or]
  rfl

theorem byteClassChars_spec (ranges : List ClassBytesRange)
    (hascii : ∀ r ∈ ranges, r.stop < 0x80) (chars : CharacterSet) :
    ∃ chars', byteClassChars chars ranges = .ok chars' ∧ ∀ x, x ∈ chars' ↔
      x ∈ chars ∨ ∃ r ∈ ranges, r.start.toNat ≤ x ∧ x ≤ r.stop.toNat := by
  induction ranges generalizing chars with
  | nil => exact ⟨chars, rfl, by simp⟩
  | cons r rs ih =>
    obtain ⟨chars', hchars', hmem⟩ := ih (fun q hq => hascii q (by simp [hq]))
      (chars.addRange (byteChar r.start) (byteChar r.stop) (byteChar_le r.le))
    refine ⟨chars', by rw [byteClassChars, if_pos (hascii r (by simp)), hchars'], fun x => ?_⟩
    rw [hmem, CharacterSet.mem_addRange, byteChar_toNat, byteChar_toNat, exists_mem_cons_iff]
    tauto

theorem Expanded.pushAdvance (chars : CharacterSet) (next : Nat) (b : NfaBuilder) :
    Expanded (letters {c | c.toNat ∈ chars}) next b true (b.pushAdvance chars next) where
  mode := b.sameMode_pushState _
  grows := prefix_append _ _
  built := Built.pushAdvance le_rfl chars next
  added_lt _ := by simp
  same h := by cases h

theorem Expanded.pushChars {cs : List Char} (hcs : cs ≠ []) (next : Nat) (b : NfaBuilder) :
    Expanded (word cs) next b true (NfaBuilder.pushChars cs next b).2 := by
  obtain ⟨hpre, hmode, hbuilt, hne⟩ := pushChars_spec cs next b
  obtain ⟨hstart, hlt⟩ := hne hcs
  exact ⟨hmode, hpre, by rwa [startState_true, ← hstart], fun _ => hlt, fun h => by cases h⟩

theorem Literal.decode (lit : Literal) (h : lit.bytes.IsValidUTF8) :
    ∃ s : String, String.fromUTF8? lit.bytes = some s ∧ s.toList ≠ [] := by
  refine ⟨String.fromUTF8 lit.bytes h, by simp [String.fromUTF8?, h], fun hnil => ?_⟩
  have hs : String.fromUTF8 lit.bytes h = "" := String.toList_eq_nil_iff.mp hnil
  exact lit.nonempty (congrArg String.toByteArray hs)

/-! ### Joining alternatives -/

variable {ids : List Nat}

theorem mem_distinctStates {last i : Nat} :
    i ∈ distinctStates last ids ↔ i ∈ ids ∧ i ≠ last := by
  have hsorted : (ids.insertionSort (· ≤ ·)).Pairwise (· ≤ ·) :=
    pairwise_insertionSort _ ids
  rw [distinctStates, mem_filter, hsorted.destutter_eq_dedup, mem_dedup,
    mem_insertionSort, decide_eq_true_iff]

theorem pushSplits_grows (b : NfaBuilder) (ids : List Nat) :
    b.states <+: (pushSplits b ids).states ∧ b.SameMode (pushSplits b ids) := by
  induction ids generalizing b with
  | nil => exact ⟨prefix_refl _, .refl b⟩
  | cons i ids ih =>
    obtain ⟨hpre, hmode⟩ := ih (b.pushSplit i)
    exact ⟨(prefix_append _ _).trans hpre, (b.sameMode_pushState _).trans hmode⟩

theorem Built.splits {lo : Nat} {P : Nat → Language Char} :
    ∀ {b : NfaBuilder} {L : Language Char}, lo ≤ b.states.length →
      (∀ i ∈ ids, Built lo b.states (P i) i t) → Built lo b.states L b.lastStateId t →
      Built lo (pushSplits b ids).states ((ids.map P).sum + L)
        (pushSplits b ids).lastStateId t := by
  induction ids with
  | nil =>
    intro b L hlo hids hL
    exact hL.congr (by simp)
  | cons i ids ih =>
    intro b L hlo hids hL
    have hgrow : b.states <+: (b.pushSplit i).states := prefix_append _ _
    have hsplit := Built.pushSplit hlo (hids i (by simp)) hL
    refine (ih (hlo.trans hgrow.length_le)
      (fun j hj => (hids j (by simp [hj])).mono hgrow le_rfl) hsplit).congr ?_
    rw [map_cons, sum_cons, add_left_comm, add_assoc]

/-- Alternatives that start in `ids` are joined to their union, if the last state
starts one of them or at least reads no other word. -/
theorem Built.join {lo : Nat} {b : NfaBuilder} {langs : List (Language Char)}
    (hlo : lo ≤ b.states.length) (h : List.Forall₂ (fun L i => Built lo b.states L i t) langs ids)
    (hlast : b.lastStateId ∈ ids ∨ ∃ K ≤ langs.sum, Built lo b.states K b.lastStateId t) :
    Built lo (pushSplits b (distinctStates b.lastStateId ids)).states langs.sum
      (pushSplits b (distinctStates b.lastStateId ids)).lastStateId t := by
  -- all that the alternatives starting in one state read
  let P : Nat → Language Char := fun i => {w | ∃ L ∈ {L | (L, i) ∈ langs.zip ids}, w ∈ L}
  have hzip : ∀ {L i}, (L, i) ∈ langs.zip ids → Built lo b.states L i t :=
    fun hmem => forall₂_zip h hmem
  have hP : ∀ i ∈ ids, Built lo b.states (P i) i t := by
    intro i hi M hM
    obtain ⟨k, hk, rfl⟩ := mem_iff_getElem.mp hi
    refine Frag.sUnion ⟨langs.get ⟨k, h.length_eq ▸ hk⟩, ?_⟩ fun L hL => hzip hL M hM
    exact mem_iff_getElem.mpr ⟨k, by simp [h.length_eq, hk], by simp⟩
  have hPsum : ∀ i, P i ≤ langs.sum := by
    rintro i w ⟨L, hL, hw⟩
    exact mem_sum_iff.mpr ⟨L, (of_mem_zip hL).1, hw⟩
  obtain ⟨K, hK, hKsum, hPK⟩ : ∃ K, Built lo b.states K b.lastStateId t ∧ K ≤ langs.sum ∧
      (b.lastStateId ∈ ids → P b.lastStateId ≤ K) := by
    by_cases hmem : b.lastStateId ∈ ids
    · exact ⟨_, hP _ hmem, hPsum _, fun _ => le_rfl⟩
    · obtain ⟨K, hKsum, hK⟩ := hlast.resolve_left hmem
      exact ⟨K, hK, hKsum, fun h => absurd h hmem⟩
  refine (Built.splits hlo (fun i hi => hP i (mem_distinctStates.mp hi).1) hK).congr ?_
  ext w
  rw [mem_add, mem_sum_iff]
  constructor
  · rintro (⟨_, hmap, hw⟩ | hw)
    · obtain ⟨i, -, rfl⟩ := mem_map.mp hmap
      exact hPsum i hw
    · exact hKsum hw
  · rw [mem_sum_iff]
    rintro ⟨L, hL, hw⟩
    obtain ⟨k, hk, rfl⟩ := mem_iff_getElem.mp hL
    have hk' : k < ids.length := h.length_eq ▸ hk
    have hmem : (langs[k], ids[k]) ∈ langs.zip ids :=
      mem_iff_getElem.mpr ⟨k, by simp [hk, hk'], by simp⟩
    by_cases hid : ids[k] = b.lastStateId
    · exact Or.inr (hPK (hid ▸ getElem_mem hk') ⟨_, hid ▸ hmem, hw⟩)
    · exact Or.inl ⟨P ids[k], mem_map_of_mem
        (mem_distinctStates.mpr ⟨getElem_mem hk', hid⟩), _, hmem, hw⟩

end TreeSitter.Generate
