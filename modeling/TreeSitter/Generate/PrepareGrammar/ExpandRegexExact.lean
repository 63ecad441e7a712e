import TreeSitter.Generate.PrepareGrammar.ExpandRegexSound

/-!
# TreeSitter.Generate.PrepareGrammar.ExpandRegexExact

Which regular expressions `expand_regex` expands to **exactly their language**. Two
arms of the code can miss it:

* `{min,}` with `min ≥ 2` reads `min` repeats and no more;
* an alternation says that it added states even when no branch did. It is then read
  from whatever state happens to be the last one, or from a split between that state
  and the one to continue in.

`Hir.Benign` is the condition under which neither matters, and
`expandRegex_exact_iff` shows it to be exact: every expression inside `hir` is
expanded to its language precisely when every expression inside `hir` is benign.
-/

namespace TreeSitter.Generate

open List Language Library Computability

/-! ### Expressions inside an expression -/

mutual

/-- An expression and all the expressions inside it. -/
def Hir.subexprs : Hir → List Hir
  | .repetition bounds sub => .repetition bounds sub :: sub.subexprs
  | .capture sub => .capture sub :: sub.subexprs
  | .concat subs => .concat subs :: subexprsAll subs
  | .alternation subs => .alternation subs :: subexprsAll subs
  | hir => [hir]

/-- The expressions inside a list of expressions. -/
def subexprsAll : List Hir → List Hir
  | [] => []
  | hir :: rest => hir.subexprs ++ subexprsAll rest

end

theorem Hir.self_mem_subexprs (hir : Hir) : hir ∈ hir.subexprs := by
  cases hir <;> simp [Hir.subexprs]

mutual

/-- Whether the expansion adds states: some part of it is a literal, a class or an
alternation, outside of a repetition `{0,0}`. -/
def Hir.addsStates : Hir → Bool
  | .empty => false
  | .literal _ | .classUnicode _ | .classBytes _ => true
  | .look => false
  | .repetition bounds sub => repetitionAdds sub.addsStates bounds.max
  | .capture sub => sub.addsStates
  | .concat subs => anyAddsStates subs
  | .alternation _ => true

def anyAddsStates : List Hir → Bool
  | [] => false
  | hir :: rest => anyAddsStates rest || hir.addsStates

end

/-- What `expand_regex` accepts: no look-around, literals that are UTF-8, and byte
classes only below `0x80`. -/
def Hir.Supported : Hir → Prop
  | .literal lit => lit.bytes.IsValidUTF8
  | .classBytes ranges => ∀ r ∈ ranges, r.stop < 0x80
  | .look => False
  | _ => True

/-- The expressions that neither defect touches: an unbounded repetition from two
repeats on to which one more repeat adds no word, and an alternation with a branch
that adds states. -/
def Hir.Benign : Hir → Prop
  | .repetition bounds sub =>
    bounds.max = none → 2 ≤ bounds.min → sub.lang ^ (bounds.min + 1) ≤ sub.lang ^ bounds.min
  | .alternation subs => anyAddsStates subs = true
  | _ => True

/-- The expansion of `hir` reads, from where it starts, exactly a word of `hir`
followed by what the state to continue in accepted before. -/
def ExpandsExactly (hir : Hir) : Prop :=
  ∀ (b : NfaBuilder) (next : Nat), Closed b.states → next < b.states.length →
    ∃ added b', expandRegex hir next b = .ok (added, b') ∧
      accepts (view b'.states) (startState added b' next) =
        hir.lang * accepts (view b.states) next

/-- A builder that holds only an accepting state. -/
def acceptBuilder : NfaBuilder := ⟨[.accept 0 0], false, 0, []⟩

/-- An expansion is exact if and only if it expands to the language of the pattern. -/
theorem Expander.exact_iff {hir : Hir} {L : Language Char} {added : Bool}
    (h : Expander (expandRegex hir) L added) : ExpandsExactly hir ↔ hir.lang = L := by
  constructor
  · intro hexact
    obtain ⟨added', b', hb', heq⟩ := hexact acceptBuilder 0 (by decide) (by decide)
    obtain ⟨b'', hb'', hexp⟩ := h 0 acceptBuilder
    rw [hb', Except.ok.injEq, Prod.mk.injEq] at hb''
    obtain ⟨rfl, rfl⟩ := hb''
    have hone : accepts (view acceptBuilder.states) 0 = 1 := accepts_accept rfl
    rw [hexp.built.accepts_eq, accepts_of_prefix hexp.grows (by decide) (by decide), hone,
      mul_one, mul_one] at heq
    exact heq.symm
  · rintro rfl b next hclosed hnext
    obtain ⟨b', hb', hexp⟩ := h next b
    exact ⟨added, b', hb', by
      rw [hexp.built.accepts_eq, accepts_of_prefix hexp.grows hclosed hnext]⟩

/-! ### One arm at a time -/

theorem literal_expander {lit : Literal} (h : (Hir.literal lit).Supported) :
    Expander (expandRegex (.literal lit)) (Hir.lang (.literal lit)) true := by
  intro next b
  obtain ⟨s, hs, hne⟩ := lit.decode h
  refine ⟨_, by simp only [expandRegex, hs], (Expanded.pushChars hne next b).congr ?_⟩
  ext w
  change w = s.toList ↔ String.fromUTF8? lit.bytes = some (String.ofList w)
  rw [hs, Option.some_inj]
  constructor
  · rintro rfl
    exact s.ofList_toList.symm
  · rintro rfl
    exact String.toList_ofList.symm

theorem classUnicode_expander (ranges : List ClassUnicodeRange) :
    Expander (expandRegex (.classUnicode ranges)) (Hir.lang (.classUnicode ranges)) true := by
  intro next b
  refine ⟨b.pushAdvance (classChars ranges) next, by simp only [expandRegex],
    (Expanded.pushAdvance _ next b).congr ?_⟩
  simp only [Hir.lang, mem_classChars]

theorem classBytes_expander {ranges : List ClassBytesRange}
    (h : (Hir.classBytes ranges).Supported) :
    Expander (expandRegex (.classBytes ranges)) (Hir.lang (.classBytes ranges)) true := by
  intro next b
  obtain ⟨chars, hchars, hmem⟩ := byteClassChars_spec ranges h CharacterSet.empty
  refine ⟨b.pushAdvance chars next, by simp [expandRegex, hchars],
    (Expanded.pushAdvance chars next b).congr ?_⟩
  simp only [Hir.lang, hmem, CharacterSet.not_mem_empty, false_or]

/-- The repetition arm meets the contract for the language it really builds. -/
theorem repetition_expander (bounds : RepetitionBounds) {sub : Hir}
    (h : Expander (expandRegex sub) sub.lang sub.addsStates) :
    Expander (expandRegex (.repetition bounds sub))
      (if bounds.max = none ∧ 2 ≤ bounds.min then sub.lang ^ bounds.min
        else repetitionLang sub.lang bounds.min bounds.max)
      (repetitionAdds sub.addsStates bounds.max) := by
  obtain ⟨min, max, hle⟩ := bounds
  have hfun : expandRegex (.repetition ⟨min, max, hle⟩ sub) =
      fun next b => expandRepetition (expandRegex sub) next b min max := by
    funext next b
    simp only [expandRegex]
  rw [hfun]
  match max, min, hle with
  | some max, min, hle => simpa using h.bounded (hle max rfl)
  | none, 0, _ =>
    simpa [repetitionLang_zero_none, repetitionAdds, expandRepetition] using h.zeroOrMore
  | none, 1, _ =>
    simpa [repetitionLang_one_none, repetitionAdds, expandRepetition] using h.oneOrMore
  | none, min + 2, _ =>
    simpa [repetitionAdds] using h.unbounded (Nat.le_add_left 2 min)

theorem repetition_exact_iff {bounds : RepetitionBounds} {sub : Hir}
    (h : Expander (expandRegex sub) sub.lang sub.addsStates) :
    ExpandsExactly (.repetition bounds sub) ↔ (Hir.repetition bounds sub).Benign := by
  rw [(repetition_expander bounds h).exact_iff]
  simp only [Hir.lang, Hir.Benign]
  split
  · rename_i hmax
    rw [hmax.1, repetitionLang_eq_pow_iff]
    exact ⟨fun h _ _ => h, fun h => h rfl hmax.2⟩
  · rename_i hmax
    exact ⟨fun _ h₁ h₂ => absurd ⟨h₁, h₂⟩ hmax, fun _ => rfl⟩

/-- What the loop over the alternatives leaves behind: a start state for each of
them, the last state among them if one of them added states. -/
structure Alternatives (langs : List (Language Char)) (next : Nat) (b : NfaBuilder)
    (added : Bool) (ids : List Nat) (b' : NfaBuilder) : Prop where
  mode : b.SameMode b'
  grows : b.states <+: b'.states
  starts : List.Forall₂ (fun L i => Built b.states.length b'.states L i next) langs ids
  last_mem : added = true → b.states.length < b'.states.length ∧ b'.lastStateId ∈ ids
  same : added = false → b' = b ∧ ∀ i ∈ ids, i = next

theorem Alternatives.nil (next : Nat) (b : NfaBuilder) :
    Alternatives [] next b false [] b where
  mode := .refl b
  grows := prefix_refl _
  starts := .nil
  last_mem h := by cases h
  same _ := ⟨rfl, by simp⟩

theorem Alternatives.cons {langs : List (Language Char)} {L : Language Char} {next : Nat}
    {b b₁ b₂ : NfaBuilder} {added added' : Bool} {ids : List Nat}
    (h : Expanded L next b added b₁) (hrest : Alternatives langs next b₁ added' ids b₂) :
    Alternatives (L :: langs) next b (added' || added) (startState added b₁ next :: ids) b₂ where
  mode := h.mode.trans hrest.mode
  grows := h.grows.trans hrest.grows
  starts := .cons (h.built.mono hrest.grows le_rfl)
    (hrest.starts.imp fun _ _ hL => hL.mono (prefix_refl _) h.grows.length_le)
  last_mem hadded := by
    cases added' with
    | true =>
      obtain ⟨hlt, hmem⟩ := hrest.last_mem rfl
      exact ⟨h.grows.length_le.trans_lt hlt, mem_cons_of_mem _ hmem⟩
    | false =>
      rw [Bool.false_or] at hadded
      subst hadded
      obtain ⟨rfl, -⟩ := hrest.same rfl
      exact ⟨h.added_lt rfl, by simp⟩
  same hadded := by
    rw [Bool.or_eq_false_iff] at hadded
    obtain ⟨rfl, rfl⟩ := hadded
    obtain ⟨rfl, -⟩ := h.same rfl
    obtain ⟨rfl, hids⟩ := hrest.same rfl
    exact ⟨rfl, by simpa using hids⟩

theorem Alternatives.join {langs : List (Language Char)} {next : Nat} {b b' : NfaBuilder}
    {ids : List Nat} (h : Alternatives langs next b true ids b') :
    Expanded langs.sum next b true (pushSplits b' (distinctStates b'.lastStateId ids)) := by
  obtain ⟨hlt, hmem⟩ := h.last_mem rfl
  obtain ⟨hpre, hmode⟩ := pushSplits_grows b' (distinctStates b'.lastStateId ids)
  exact ⟨h.mode.trans hmode, h.grows.trans hpre, Built.join hlt.le h.starts (Or.inl hmem),
    fun _ => hlt.trans_le hpre.length_le, fun h => by cases h⟩

theorem langAlternation_eq_sum (subs : List Hir) :
    langAlternation subs = (subs.map Hir.lang).sum := by
  induction subs with
  | nil => rfl
  | cons hir rest ih => rw [langAlternation, ih, map_cons, sum_cons]

/-! ### Benign expressions -/

/-- A property of every expression inside an expression, or inside a list of them. -/
def Hir.Everywhere (P : Hir → Prop) (hir : Hir) : Prop := ∀ s ∈ hir.subexprs, P s

/-- A property of every expression inside the expressions of a list. -/
def EverywhereIn (P : Hir → Prop) (hirs : List Hir) : Prop := ∀ s ∈ subexprsAll hirs, P s

section Everywhere

variable {P : Hir → Prop}

theorem Hir.Everywhere.self {hir : Hir} (h : hir.Everywhere P) : P hir :=
  h hir hir.self_mem_subexprs

theorem everywhere_repetition {bounds : RepetitionBounds} {sub : Hir} :
    (Hir.repetition bounds sub).Everywhere P ↔
      P (.repetition bounds sub) ∧ sub.Everywhere P := by
  simp [Hir.Everywhere, Hir.subexprs]

theorem everywhere_capture {sub : Hir} :
    (Hir.capture sub).Everywhere P ↔ P (.capture sub) ∧ sub.Everywhere P := by
  simp [Hir.Everywhere, Hir.subexprs]

theorem everywhere_concat {subs : List Hir} :
    (Hir.concat subs).Everywhere P ↔ P (.concat subs) ∧ EverywhereIn P subs := by
  simp [Hir.Everywhere, EverywhereIn, Hir.subexprs]

theorem everywhere_alternation {subs : List Hir} :
    (Hir.alternation subs).Everywhere P ↔ P (.alternation subs) ∧ EverywhereIn P subs := by
  simp [Hir.Everywhere, EverywhereIn, Hir.subexprs]

theorem everywhereIn_nil : EverywhereIn P [] := by
  simp [EverywhereIn, subexprsAll]

theorem everywhereIn_cons {hir : Hir} {rest : List Hir} :
    EverywhereIn P (hir :: rest) ↔ hir.Everywhere P ∧ EverywhereIn P rest := by
  simp [EverywhereIn, Hir.Everywhere, subexprsAll, or_imp, forall_and]

end Everywhere

mutual

/-- **Sufficiency.** A supported expression that is benign throughout meets the
contract for its own language. -/
theorem expandRegex_expander : ∀ (hir : Hir), hir.Everywhere Hir.Supported →
    hir.Everywhere Hir.Benign → Expander (expandRegex hir) hir.lang hir.addsStates
  | .empty, _, _ => fun next b => ⟨b, by simp only [expandRegex, Hir.addsStates],
      Expanded.none next b⟩
  | .literal _, hs, _ => literal_expander hs.self
  | .classUnicode ranges, _, _ => classUnicode_expander ranges
  | .classBytes _, hs, _ => classBytes_expander hs.self
  | .look, hs, _ => hs.self.elim
  | .repetition bounds sub, hs, hb => by
    rw [everywhere_repetition] at hs hb
    have hsub := expandRegex_expander sub hs.2 hb.2
    have hexp := repetition_expander bounds hsub
    have hlang := hexp.exact_iff.mp ((repetition_exact_iff hsub).mpr hb.1)
    rw [hlang]
    exact hexp
  | .capture sub, hs, hb => by
    rw [everywhere_capture] at hs hb
    have hsub := expandRegex_expander sub hs.2 hb.2
    intro next b
    obtain ⟨b', hb', hexp⟩ := hsub next b
    exact ⟨b', by simp only [expandRegex, hb', Hir.addsStates], hexp⟩
  | .concat subs, hs, hb => by
    rw [everywhere_concat] at hs hb
    intro next b
    obtain ⟨b', hb', hexp⟩ := expandConcat_spec subs hs.2 hb.2 next b
    exact ⟨b', by simp [expandRegex, hb', Hir.addsStates], hexp⟩
  | .alternation subs, hs, hb => by
    rw [everywhere_alternation] at hs hb
    intro next b
    obtain ⟨ids, b', hb', halt⟩ := expandAlternatives_spec subs hs.2 hb.2 next b
    have hadds : anyAddsStates subs = true := hb.1
    rw [hadds] at halt
    exact ⟨_, by simp only [expandRegex, hb', ok_bind, Hir.addsStates, pure_eq_ok],
      halt.join.congr (langAlternation_eq_sum subs).symm⟩

theorem expandConcat_spec : ∀ (subs : List Hir), EverywhereIn Hir.Supported subs →
    EverywhereIn Hir.Benign subs → ∀ (next : Nat) (b : NfaBuilder),
    ∃ b', expandConcat subs next b =
        .ok (anyAddsStates subs, startState (anyAddsStates subs) b' next, b') ∧
      Expanded (langConcat subs) next b (anyAddsStates subs) b'
  | [], _, _, next, b => ⟨b, by simp [expandConcat, anyAddsStates], Expanded.none next b⟩
  | hir :: rest, hs, hb, next, b => by
    rw [everywhereIn_cons] at hs hb
    obtain ⟨b₁, hb₁, hexp₁⟩ := expandConcat_spec rest hs.2 hb.2 next b
    obtain ⟨b₂, hb₂, hexp₂⟩ := expandRegex_expander hir hs.1 hb.1
      (startState (anyAddsStates rest) b₁ next) b₁
    refine ⟨b₂, ?_, hexp₁.andThen hexp₂⟩
    rw [anyAddsStates, hexp₂.startState_andThen]
    cases hadds : hir.addsStates with
    | true => simp [expandConcat, hb₁, hb₂, hadds]
    | false =>
      rw [hadds] at hb₂
      simp [expandConcat, hb₁, hb₂]

theorem expandAlternatives_spec : ∀ (subs : List Hir), EverywhereIn Hir.Supported subs →
    EverywhereIn Hir.Benign subs → ∀ (next : Nat) (b : NfaBuilder),
    ∃ ids b', expandAlternatives subs next b = .ok (ids, b') ∧
      Alternatives (subs.map Hir.lang) next b (anyAddsStates subs) ids b'
  | [], _, _, next, b => ⟨[], b, by simp [expandAlternatives], Alternatives.nil next b⟩
  | hir :: rest, hs, hb, next, b => by
    rw [everywhereIn_cons] at hs hb
    obtain ⟨b₁, hb₁, hexp⟩ := expandRegex_expander hir hs.1 hb.1 next b
    obtain ⟨ids, b₂, hb₂, hrest⟩ := expandAlternatives_spec rest hs.2 hb.2 next b₁
    exact ⟨_, b₂, by simp [expandAlternatives, hb₁, hb₂, startState], Alternatives.cons hexp hrest⟩

end

/-! ### The condition is necessary -/

theorem mem_accepts_pushSplits {w : List Char} (ids : List Nat) :
    ∀ {b : NfaBuilder}, w ∈ accepts (view b.states) b.lastStateId →
      w ∈ accepts (view (pushSplits b ids).states) (pushSplits b ids).lastStateId := by
  induction ids with
  | nil => exact fun h => h
  | cons i ids ih =>
    intro b h
    obtain ⟨n, hn⟩ := h
    refine ih (b := b.pushSplit i) ⟨n + 1, AcceptsIn.right (l := i) ?_
      (AcceptsIn.mono_prefix (prefix_append b.states _) hn)⟩
    simp [view, NfaState.node]

/-- A builder whose first state accepts nothing and whose last one accepts. -/
def deadEndBuilder : NfaBuilder :=
  ⟨[.advance CharacterSet.empty 0 false 0, .accept 0 0], false, 0, []⟩

theorem accepts_deadEnd : accepts (view deadEndBuilder.states) 0 = 0 := by
  have h : Frag (view deadEndBuilder.states) _ 0 0 := Frag.advance rfl
  rw [h.accepts_eq]
  have hnone : letters {c : Char | c.toNat ∈ CharacterSet.empty} = 0 := by
    ext w
    simp [mem_letters]
  rw [hnone, zero_mul]

/-- An alternation of which no branch adds states is read from the last state. -/
theorem alternation_not_exact {subs : List Hir} (hs : EverywhereIn Hir.Supported subs)
    (hb : EverywhereIn Hir.Benign subs) (hnone : anyAddsStates subs = false) :
    ¬ ExpandsExactly (.alternation subs) := by
  intro hexact
  obtain ⟨added, b', hb', heq⟩ := hexact deadEndBuilder 0 (by decide) (by decide)
  obtain ⟨ids, b₁, hb₁, halt⟩ := expandAlternatives_spec subs hs hb 0 deadEndBuilder
  rw [hnone] at halt
  obtain ⟨rfl, -⟩ := halt.same rfl
  simp only [expandRegex, hb₁, ok_bind, pure_eq_ok, Except.ok.injEq, Prod.mk.injEq] at hb'
  obtain ⟨rfl, rfl⟩ := hb'
  have hnil : [] ∈ accepts (view deadEndBuilder.states) deadEndBuilder.lastStateId :=
    ⟨0, .accept rfl⟩
  have hmem := mem_accepts_pushSplits (distinctStates deadEndBuilder.lastStateId ids) hnil
  rw [startState_true, accepts_deadEnd, mul_zero] at heq
  rw [heq] at hmem
  exact notMem_zero _ hmem

mutual

theorem benign_of_exact : ∀ (hir : Hir), hir.Everywhere Hir.Supported →
    hir.Everywhere ExpandsExactly → hir.Everywhere Hir.Benign
  | .empty, _, _ | .literal _, _, _ | .classUnicode _, _, _ | .classBytes _, _, _ | .look, _, _ =>
    by simp [Hir.Everywhere, Hir.subexprs, Hir.Benign]
  | .repetition bounds sub, hs, hx => by
    rw [everywhere_repetition] at hs hx ⊢
    have hsub := benign_of_exact sub hs.2 hx.2
    exact ⟨(repetition_exact_iff (expandRegex_expander sub hs.2 hsub)).mp hx.1, hsub⟩
  | .capture sub, hs, hx => by
    rw [everywhere_capture] at hs hx ⊢
    exact ⟨trivial, benign_of_exact sub hs.2 hx.2⟩
  | .concat subs, hs, hx => by
    rw [everywhere_concat] at hs hx ⊢
    exact ⟨trivial, benignIn_of_exact subs hs.2 hx.2⟩
  | .alternation subs, hs, hx => by
    rw [everywhere_alternation] at hs hx ⊢
    have hsub := benignIn_of_exact subs hs.2 hx.2
    refine ⟨?_, hsub⟩
    by_contra hnone
    exact alternation_not_exact hs.2 hsub (Bool.eq_false_iff.mpr hnone) hx.1

theorem benignIn_of_exact : ∀ (subs : List Hir), EverywhereIn Hir.Supported subs →
    EverywhereIn ExpandsExactly subs → EverywhereIn Hir.Benign subs
  | [], _, _ => everywhereIn_nil
  | hir :: rest, hs, hx => by
    rw [everywhereIn_cons] at hs hx ⊢
    exact ⟨benign_of_exact hir hs.1 hx.1, benignIn_of_exact rest hs.2 hx.2⟩

end

mutual

theorem Hir.subexprs_trans : ∀ {hir s t : Hir}, s ∈ hir.subexprs → t ∈ s.subexprs →
    t ∈ hir.subexprs
  | .empty, s, t, hs, ht | .literal _, s, t, hs, ht | .classUnicode _, s, t, hs, ht
  | .classBytes _, s, t, hs, ht | .look, s, t, hs, ht => by simp_all [Hir.subexprs]
  | .repetition bounds sub, s, t, hs, ht | .capture sub, s, t, hs, ht => by
    rw [Hir.subexprs, mem_cons] at hs
    rcases hs with rfl | hs
    · exact ht
    · exact mem_cons_of_mem _ (Hir.subexprs_trans hs ht)
  | .concat subs, s, t, hs, ht | .alternation subs, s, t, hs, ht => by
    rw [Hir.subexprs, mem_cons] at hs
    rcases hs with rfl | hs
    · exact ht
    · exact mem_cons_of_mem _ (subexprsAll_trans hs ht)

theorem subexprsAll_trans : ∀ {subs : List Hir} {s t : Hir}, s ∈ subexprsAll subs →
    t ∈ s.subexprs → t ∈ subexprsAll subs
  | hir :: rest, s, t, hs, ht => by
    rw [subexprsAll, mem_append] at hs ⊢
    rcases hs with hs | hs
    · exact Or.inl (Hir.subexprs_trans hs ht)
    · exact Or.inr (subexprsAll_trans hs ht)

end

/-- **Exactness of `expand_regex`.** In a supported expression, every expression is
expanded to exactly its language, whatever automaton it is added to and whatever
state it continues in, if and only if every expression in it is benign. -/
theorem expandRegex_exact_iff (hir : Hir) (hsupported : ∀ s ∈ hir.subexprs, s.Supported) :
    (∀ s ∈ hir.subexprs, ExpandsExactly s) ↔ ∀ s ∈ hir.subexprs, s.Benign := by
  constructor
  · exact benign_of_exact hir hsupported
  · intro hbenign s hs
    have hexp := expandRegex_expander s (fun t ht => hsupported t (Hir.subexprs_trans hs ht))
      (fun t ht => hbenign t (Hir.subexprs_trans hs ht))
    exact hexp.exact_iff.mpr rfl

/-- The literal `a`. -/
def literalA : Hir := .literal ⟨"a".toUTF8, by decide⟩

theorem literalA_supported : literalA.Supported := "a".isValidUTF8

theorem literalA_lang : literalA.lang = word ['a'] := by
  ext w
  have hdecode : String.fromUTF8? "a".toUTF8 = some "a" := rfl
  change String.fromUTF8? "a".toUTF8 = some (String.ofList w) ↔ w = ['a']
  rw [hdecode, Option.some_inj, ← String.toList_inj, String.toList_ofList, String.toList_ofList]
  exact eq_comm

/-- `a+` is benign throughout, so it is expanded exactly. -/
theorem expandRegex_exact_aPlus :
    (∀ s ∈ (Hir.repetition ⟨1, none, by simp⟩ literalA).subexprs, s.Supported) ∧
      ∀ s ∈ (Hir.repetition ⟨1, none, by simp⟩ literalA).subexprs, ExpandsExactly s := by
  have hsupported : ∀ s ∈ (Hir.repetition ⟨1, none, by simp⟩ literalA).subexprs, s.Supported :=
    everywhere_repetition.mpr
      ⟨trivial, by simpa [Hir.Everywhere, literalA, Hir.subexprs] using literalA_supported⟩
  exact ⟨hsupported, (expandRegex_exact_iff _ hsupported).mpr
    (by simp [literalA, Hir.subexprs, Hir.Benign])⟩

/-- `a{2,}` is supported, but its expansion reads `aa` and not `aaa`. -/
theorem expandRegex_aTwoOrMore_not_exact :
    (∀ s ∈ (Hir.repetition ⟨2, none, by simp⟩ literalA).subexprs, s.Supported) ∧
      ¬ ExpandsExactly (.repetition ⟨2, none, by simp⟩ literalA) := by
  refine ⟨everywhere_repetition.mpr
    ⟨trivial, by simpa [Hir.Everywhere, literalA, Hir.subexprs] using literalA_supported⟩, ?_⟩
  have hsub : Expander (expandRegex literalA) literalA.lang literalA.addsStates :=
    literal_expander literalA_supported
  rw [repetition_exact_iff hsub]
  intro hbenign
  have hle : word ['a'] ^ 3 ≤ word ['a'] ^ 2 := literalA_lang ▸ hbenign rfl le_rfl
  have hmem : ['a', 'a', 'a'] ∈ word ['a'] ^ 3 := by
    refine mem_pow.mpr ⟨[['a'], ['a'], ['a']], rfl, rfl, fun y hy => ?_⟩
    obtain rfl : y = ['a'] := by simpa using hy
    rfl
  obtain ⟨S, hS, hlen, hall⟩ := mem_pow.mp (hle hmem)
  -- two words of length one do not make three letters
  have hwords : S.flatten.length = 2 := by
    rw [length_flatten, map_congr_left (g := fun _ => 1), map_const', hlen]
    · rfl
    · intro y hy
      rw [show y = ['a'] from hall y hy]
      rfl
  rw [← hS] at hwords
  exact absurd hwords (by decide)

end TreeSitter.Generate
