import TreeSitter.Generate.PrepareGrammar.ExpandRule
import TreeSitter.Generate.PrepareGrammar.ExpandRegexExact

/-!
# TreeSitter.Generate.PrepareGrammar.ExpandRuleSound

The contract of one rule's expansion. It differs from the one for regular expressions
in a call that says it added nothing: a choice of empty elements still joins the state
to continue in with the last state, so an **idle** call can leave states behind and
move the last state. `Idle` says what such a call may do, and `Choices` and
`Sequence` what the two loops make of it.
-/

namespace TreeSitter.Generate

open List Language Library Computability

variable {K L : Language Char} {added : Bool} {next : Nat} {b b' b'' : NfaBuilder}

/-! ### Idle calls -/

/-- A call that says it added nothing. If the state to continue in is the last state,
nothing happens; otherwise the last state may have been joined with it. -/
structure Idle (next : Nat) (b b' : NfaBuilder) : Prop where
  mode : b.SameMode b'
  grows : b.states <+: b'.states
  last_eq : b.lastStateId = next → b' = b
  reads : ∀ {lo t : Nat} {K L : Language Char}, lo ≤ b.states.length →
    Built lo b.states K next t → Built lo b.states L b.lastStateId t →
    ∃ L', (L' = L ∨ L' = K + L) ∧ Built lo b'.states L' b'.lastStateId t

theorem Idle.refl (next : Nat) (b : NfaBuilder) : Idle next b b where
  mode := .refl b
  grows := prefix_refl _
  last_eq _ := rfl
  reads _ _ hL := ⟨_, Or.inl rfl, hL⟩

theorem Idle.trans (h : Idle next b b') (h' : Idle next b' b'') : Idle next b b'' where
  mode := h.mode.trans h'.mode
  grows := h.grows.trans h'.grows
  last_eq hlast := by
    obtain rfl := h.last_eq hlast
    exact h'.last_eq hlast
  reads {lo t K L} hlo hK hL := by
    obtain ⟨L', hL', hbuilt⟩ := h.reads hlo hK hL
    obtain ⟨L'', hL'', hbuilt'⟩ := h'.reads (hlo.trans h.grows.length_le)
      (hK.mono h.grows le_rfl) hbuilt
    refine ⟨L'', ?_, hbuilt'⟩
    rcases hL' with rfl | rfl <;> rcases hL'' with rfl | rfl
    · exact Or.inl rfl
    · exact Or.inr rfl
    · exact Or.inr rfl
    · rw [← add_assoc, add_self]
      exact Or.inr rfl

theorem Idle.pushSplit (hne : b.lastStateId ≠ next) : Idle next b (b.pushSplit next) where
  mode := b.sameMode_pushState _
  grows := prefix_append _ _
  last_eq h := absurd h hne
  reads hlo hK hL := ⟨_, Or.inr rfl, Built.pushSplit hlo hK hL⟩

/-! ### The contract -/

/-- The contract of one expansion of a rule with language `L`. -/
structure RuleExpanded (L : Language Char) (next : Nat) (b : NfaBuilder) (added : Bool)
    (b' : NfaBuilder) : Prop where
  mode : b.SameMode b'
  grows : b.states <+: b'.states
  built : Built b.states.length b'.states L (startState added b' next) next
  added_lt : added = true → b.states.length < b'.states.length
  idle : added = false → Idle next b b' ∧ L = 1

theorem Expanded.toRule (h : Expanded L next b added b') : RuleExpanded L next b added b' where
  mode := h.mode
  grows := h.grows
  built := h.built
  added_lt := h.added_lt
  idle hadded := by
    obtain ⟨rfl, hL⟩ := h.same hadded
    exact ⟨Idle.refl next b', hL⟩

theorem RuleExpanded.of_idle (h : Idle next b b') : RuleExpanded 1 next b false b' where
  mode := h.mode
  grows := h.grows
  built := Built.refl _ _ _
  added_lt h := by cases h
  idle _ := ⟨h, rfl⟩

/-- The contract is about states only: it holds under any precedences. -/
theorem RuleExpanded.withMode {b₁ : NfaBuilder} (h : RuleExpanded L next b₁ added b')
    (hstates : b₁.states = b.states) :
    RuleExpanded L next b added { b with states := b'.states } where
  mode := ⟨rfl, rfl, rfl⟩
  grows := hstates ▸ h.grows
  built := by
    rw [← hstates]
    exact h.built
  added_lt hadded := hstates ▸ h.added_lt hadded
  idle hadded := by
    obtain ⟨hidle, hL⟩ := h.idle hadded
    have hlast : b₁.lastStateId = b.lastStateId := congrArg (·.length - 1) hstates
    refine ⟨⟨⟨rfl, rfl, rfl⟩, hstates ▸ hidle.grows, fun heq => ?_, ?_⟩, hL⟩
    · rw [hidle.last_eq (hlast.trans heq), hstates]
    · intro lo t K L hlo hK hL
      rw [← hstates] at hlo hK hL
      rw [← hlast] at hL
      exact hidle.reads hlo hK hL

/-! ### Choices -/

/-- What the loop over a choice leaves behind: a start state for each element, the
last state among them or reading nothing that they do not read. -/
structure Choices (langs : List (Language Char)) (next : Nat) (b : NfaBuilder)
    (added : Bool) (ids : List Nat) (b' : NfaBuilder) : Prop where
  mode : b.SameMode b'
  grows : b.states <+: b'.states
  starts : List.Forall₂ (fun L i => Built b.states.length b'.states L i next) langs ids
  last : added = true → b.states.length < b'.states.length ∧
    (b'.lastStateId ∈ ids ∨ ∃ K ≤ langs.sum, Built b.states.length b'.states K b'.lastStateId next)
  idle : added = false → Idle next b b' ∧ (langs = [] → b' = b) ∧ (∀ i ∈ ids, i = next) ∧
    ∀ L ∈ langs, L = 1

theorem Choices.nil (next : Nat) (b : NfaBuilder) : Choices [] next b false [] b where
  mode := .refl b
  grows := prefix_refl _
  starts := .nil
  last h := by cases h
  idle _ := ⟨Idle.refl next b, fun _ => rfl, by simp, by simp⟩

variable {langs : List (Language Char)}

theorem sum_eq_one (hne : langs ≠ []) (h : ∀ L ∈ langs, L = 1) : langs.sum = 1 := by
  induction langs with
  | nil => exact absurd rfl hne
  | cons L langs ih =>
    rw [sum_cons, h L (by simp)]
    by_cases hnil : langs = []
    · rw [hnil, sum_nil, add_zero]
    · rw [ih hnil fun K hK => h K (by simp [hK]), add_self]

variable {ids : List Nat}

theorem Choices.cons {b₁ b₂ : NfaBuilder} {added' : Bool} (h : RuleExpanded L next b added b₁)
    (hrest : Choices langs next b₁ added' ids b₂) :
    Choices (L :: langs) next b (added' || added) (startState added b₁ next :: ids) b₂ where
  mode := h.mode.trans hrest.mode
  grows := h.grows.trans hrest.grows
  starts := .cons (h.built.mono hrest.grows le_rfl)
    (hrest.starts.imp fun _ _ hL => hL.mono (prefix_refl _) h.grows.length_le)
  last hadded := by
    cases added' with
    | true =>
      obtain ⟨hlt, hlast⟩ := hrest.last rfl
      refine ⟨h.grows.length_le.trans_lt hlt, hlast.imp (mem_cons_of_mem _) ?_⟩
      rintro ⟨K, hK, hbuilt⟩
      refine ⟨K, fun w hw => ?_, hbuilt.mono (prefix_refl _) h.grows.length_le⟩
      rw [sum_cons]
      exact Or.inr (hK hw)
    | false =>
      rw [Bool.false_or] at hadded
      subst hadded
      obtain ⟨hidle, hnil, -, hone⟩ := hrest.idle rfl
      refine ⟨(h.added_lt rfl).trans_le hrest.grows.length_le, ?_⟩
      by_cases hempty : langs = []
      · rw [hnil hempty]
        exact Or.inl (by simp)
      · -- idle elements after `element` join its start with `next`, which is one of
        -- the alternatives
        obtain ⟨L', hL', hbuilt⟩ := hidle.reads (h.added_lt rfl).le (Built.refl _ _ next)
          h.built
        refine Or.inr ⟨L', ?_, hbuilt⟩
        rw [sum_cons, sum_eq_one hempty hone]
        rcases hL' with rfl | rfl
        · exact fun w hw => Or.inl hw
        · rw [add_comm]
  idle hadded := by
    rw [Bool.or_eq_false_iff] at hadded
    obtain ⟨rfl, rfl⟩ := hadded
    obtain ⟨hidle, rfl⟩ := h.idle rfl
    obtain ⟨hidle', -, hids, hone⟩ := hrest.idle rfl
    exact ⟨hidle.trans hidle', by simp, by simpa using hids, by simpa using hone⟩

theorem distinctStates_eq_nil {last : Nat} (h : ∀ i ∈ ids, i = last) :
    distinctStates last ids = [] := by
  rw [eq_nil_iff_forall_not_mem]
  intro i hi
  obtain ⟨hi, hne⟩ := mem_distinctStates.mp hi
  exact hne (h i hi)

theorem distinctStates_eq_singleton {last next : Nat} (hne : ids ≠ []) (h : ∀ i ∈ ids, i = next)
    (hlast : last ≠ next) : distinctStates last ids = [next] := by
  have hsorted : (ids.insertionSort (· ≤ ·)).Pairwise (· ≤ ·) :=
    pairwise_insertionSort _ ids
  have hnodup : (distinctStates last ids).Nodup := by
    rw [distinctStates, hsorted.destutter_eq_dedup]
    exact (nodup_dedup _).filter _
  have hmem : ∀ i, i ∈ distinctStates last ids ↔ i ∈ [next] := by
    intro i
    rw [mem_distinctStates, mem_singleton]
    constructor
    · exact fun hi => h i hi.1
    · rintro rfl
      obtain ⟨j, hj⟩ := exists_mem_of_ne_nil ids hne
      exact ⟨h j hj ▸ hj, hlast.symm⟩
  exact perm_singleton.mp ((perm_ext_iff_of_nodup hnodup (by simp)).mpr hmem)

/-- A non-empty choice meets the contract for the union of its elements. -/
theorem Choices.join (hne : langs ≠ []) (h : Choices langs next b added ids b') :
    RuleExpanded langs.sum next b added
      (pushSplits b' (distinctStates b'.lastStateId ids)) := by
  obtain ⟨hpre, hmode⟩ := pushSplits_grows b' (distinctStates b'.lastStateId ids)
  cases added with
  | true =>
    obtain ⟨hlt, hlast⟩ := h.last rfl
    exact ⟨h.mode.trans hmode, h.grows.trans hpre, Built.join hlt.le h.starts hlast,
      fun _ => hlt.trans_le hpre.length_le, fun h => by cases h⟩
  | false =>
    obtain ⟨hidle, -, hids, hone⟩ := h.idle rfl
    rw [sum_eq_one hne hone]
    refine RuleExpanded.of_idle (hidle.trans ?_)
    have hidsne : ids ≠ [] := by
      rintro rfl
      exact hne (length_eq_zero_iff.mp h.starts.length_eq)
    by_cases hlast : b'.lastStateId = next
    · rw [distinctStates_eq_nil fun i hi => (hids i hi).trans hlast.symm]
      exact Idle.refl next b'
    · rw [distinctStates_eq_singleton hidsne hids hlast]
      exact Idle.pushSplit hlast

/-! ### Sequences -/

/-- What the loop over a sequence leaves behind. It continues at the last state after
every element, so once an element has added states all is well; but if the elements
before that were idle, the sequence leads to the last state they left. -/
structure Sequence (langs : List (Language Char)) (next : Nat) (b : NfaBuilder)
    (added lastAdded : Bool) (b' : NfaBuilder) : Prop where
  mode : b.SameMode b'
  grows : b.states <+: b'.states
  nil : langs = [] → b' = b ∧ added = false
  lastAdded_le : lastAdded = true → added = true
  idle : added = false → Idle next b b' ∧ langs.prod = 1
  built : added = true → b.states.length < b'.states.length ∧
    ∃ q, Built b.states.length b'.states langs.prod b'.lastStateId q ∧
      (lastAdded = true → q = next) ∧
      (lastAdded = false → ∃ b₁, Idle next b b₁ ∧ b₁.states <+: b'.states ∧ q = b₁.lastStateId)

theorem Sequence.empty (next : Nat) (b : NfaBuilder) : Sequence [] next b false false b where
  mode := .refl b
  grows := prefix_refl _
  nil _ := ⟨rfl, rfl⟩
  lastAdded_le h := by cases h
  idle _ := ⟨Idle.refl next b, rfl⟩
  built h := by cases h

theorem Sequence.single (h : RuleExpanded L next b added b') :
    Sequence [L] next b added added b' where
  mode := h.mode
  grows := h.grows
  nil h := by cases h
  lastAdded_le h := h
  idle hadded := by simpa using h.idle hadded
  built hadded := by
    subst hadded
    exact ⟨h.added_lt rfl, next, by simpa using h.built, fun _ => rfl, fun h => by cases h⟩

/-- An element to the left of others: it continues at the last state. -/
theorem Sequence.cons {lastAdded added' : Bool} (h : Sequence langs next b added lastAdded b')
    (he : RuleExpanded L b'.lastStateId b' added' b'') :
    Sequence (L :: langs) next b (added || added') lastAdded b'' where
  mode := h.mode.trans he.mode
  grows := h.grows.trans he.grows
  nil h := by cases h
  lastAdded_le hlast := by rw [h.lastAdded_le hlast, Bool.true_or]
  idle hadded := by
    rw [Bool.or_eq_false_iff] at hadded
    obtain ⟨rfl, rfl⟩ := hadded
    obtain ⟨hidle, rfl⟩ := he.idle rfl
    obtain rfl := hidle.last_eq rfl
    simpa using h.idle rfl
  built hadded := by
    cases added' with
    | false =>
      obtain ⟨hidle, rfl⟩ := he.idle rfl
      obtain rfl := hidle.last_eq rfl
      simpa using h.built (by simpa using hadded)
    | true =>
      have hlt := h.grows.length_le.trans_lt (he.added_lt rfl)
      have hL := he.built.mono (prefix_refl _) h.grows.length_le
      refine ⟨hlt, ?_⟩
      cases added with
      | true =>
        obtain ⟨-, q, hq, hqn, hqi⟩ := h.built rfl
        refine ⟨q, ?_, hqn, fun hlast => ?_⟩
        · rw [prod_cons]
          exact hL.trans (hq.mono he.grows le_rfl)
        · obtain ⟨b₁, hidle, hpre, rfl⟩ := hqi hlast
          exact ⟨b₁, hidle, hpre.trans he.grows, rfl⟩
      | false =>
        obtain ⟨hidle, hprod⟩ := h.idle rfl
        refine ⟨b'.lastStateId, ?_, fun hlast => ?_, fun _ => ⟨b', hidle, he.grows, rfl⟩⟩
        · rw [prod_cons, hprod, mul_one]
          exact hL
        · cases h.lastAdded_le hlast

/-- A sequence meets the contract if its last element adds states, if no element
does, or if no word matches it. -/
theorem Sequence.expanded {lastAdded : Bool} (h : Sequence langs next b added lastAdded b')
    (hbenign : lastAdded = true ∨ added = false ∨ langs.prod = 0) :
    RuleExpanded langs.prod next b added b' := by
  cases added with
  | false =>
    obtain ⟨hidle, hprod⟩ := h.idle rfl
    rw [hprod]
    exact RuleExpanded.of_idle hidle
  | true =>
    obtain ⟨hlt, q, hq, hqn, -⟩ := h.built rfl
    refine ⟨h.mode, h.grows, ?_, fun _ => hlt, fun h => by cases h⟩
    rcases hbenign with hlast | hadded | hzero
    · exact hqn hlast ▸ hq
    · cases hadded
    · rw [hzero] at hq ⊢
      exact fun M hM => (hq M hM).of_zero _

end TreeSitter.Generate
