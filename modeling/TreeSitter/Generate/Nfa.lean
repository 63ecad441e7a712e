import TreeSitter.Generate.CharacterSetOps
import TreeSitter.Library.Fragment

/-!
# TreeSitter.Generate.Nfa

The lexical automaton of `nfa.rs` and the **builder** of `expand_tokens.rs` that
appends states to it. State ids are indices into the state list; the builder only
ever appends, overwrites the placeholder it pushed itself, or pops that placeholder
again.

`Built lo states L s t` is the relation the expansion proofs compose: the states from
index `lo` on form a **fragment** reading `L` from `s` to `t`, whatever stands below
`lo`. Leaving the lower states open is what lets a loop be closed afterwards, when
the placeholder below its body is overwritten.
-/

namespace TreeSitter.Generate

open List Language Library

/-! ### The automaton -/

/-- `NfaState`. -/
inductive NfaState where
  | advance (chars : CharacterSet) (stateId : Nat) (isSep : Bool) (precedence : Int)
  | split (left right : Nat)
  | accept (variableIndex : Nat) (precedence : Int)

/-- A state as a node over characters: precedences and the separator flag decide
between tokens, not whether a word is read. -/
def NfaState.node : NfaState → Node Char Nat
  | .advance chars stateId _ _ => .advance {c | c.toNat ∈ chars} stateId
  | .split left right => .split left right
  | .accept _ _ => .accept

/-- The automaton a state list stands for. -/
def view (states : List NfaState) (i : Nat) : Option (Node Char Nat) :=
  states[i]?.map NfaState.node

def NfaState.targets : NfaState → List Nat
  | .advance _ stateId _ _ => [stateId]
  | .split left right => [left, right]
  | .accept _ _ => []

/-- Every reference stays inside the automaton. -/
def Closed (states : List NfaState) : Prop :=
  ∀ state ∈ states, ∀ i ∈ state.targets, i < states.length

instance (states : List NfaState) : Decidable (Closed states) :=
  inferInstanceAs (Decidable (∀ state ∈ states, ∀ i ∈ state.targets, i < states.length))

/-! ### The builder -/

/-- `NfaBuilder`. The precedence stack is never empty, so its top is a field of its
own and `outerPrecedences` holds what lies below. -/
structure NfaBuilder where
  states : List NfaState
  isSep : Bool
  precedence : Int
  outerPrecedences : List Int

namespace NfaBuilder

/-- `last_state_id`; its callers never have an empty automaton. -/
def lastStateId (b : NfaBuilder) : Nat := b.states.length - 1

/-- `self.nfa.states.push`. -/
def pushState (b : NfaBuilder) (state : NfaState) : NfaBuilder :=
  { b with states := b.states ++ [state] }

/-- `push_advance`. -/
def pushAdvance (b : NfaBuilder) (chars : CharacterSet) (stateId : Nat) : NfaBuilder :=
  b.pushState (.advance chars stateId b.isSep b.precedence)

/-- `push_split`. -/
def pushSplit (b : NfaBuilder) (stateId : Nat) : NfaBuilder :=
  b.pushState (.split stateId b.lastStateId)

/-- The loop `for c in s.chars().rev()`: the last character is pushed first. Returns
the state the word starts in. -/
def pushChars : List Char → Nat → NfaBuilder → Nat × NfaBuilder
  | [], next, b => (next, b)
  | c :: cs, next, b =>
    let rest := pushChars cs next b
    let b' := rest.2.pushAdvance (CharacterSet.fromChar c) rest.1
    (b'.lastStateId, b')

@[simp] theorem pushState_states (b : NfaBuilder) (state : NfaState) :
    (b.pushState state).states = b.states ++ [state] := rfl

@[simp] theorem pushAdvance_states (b : NfaBuilder) (chars : CharacterSet) (i : Nat) :
    (b.pushAdvance chars i).states =
      b.states ++ [.advance chars i b.isSep b.precedence] := rfl

@[simp] theorem pushSplit_states (b : NfaBuilder) (i : Nat) :
    (b.pushSplit i).states = b.states ++ [.split i b.lastStateId] := rfl

@[simp] theorem lastStateId_pushState (b : NfaBuilder) (state : NfaState) :
    (b.pushState state).lastStateId = b.states.length := by
  simp [lastStateId]

@[simp] theorem lastStateId_pushAdvance (b : NfaBuilder) (chars : CharacterSet) (i : Nat) :
    (b.pushAdvance chars i).lastStateId = b.states.length :=
  b.lastStateId_pushState _

@[simp] theorem lastStateId_pushSplit (b : NfaBuilder) (i : Nat) :
    (b.pushSplit i).lastStateId = b.states.length :=
  b.lastStateId_pushState _

/-- Everything but the states: what an expansion leaves as it found it. -/
def SameMode (b b' : NfaBuilder) : Prop :=
  b'.isSep = b.isSep ∧ b'.precedence = b.precedence ∧
    b'.outerPrecedences = b.outerPrecedences

theorem SameMode.refl (b : NfaBuilder) : SameMode b b := ⟨rfl, rfl, rfl⟩

theorem SameMode.trans {b b' b'' : NfaBuilder} (h : SameMode b b') (h' : SameMode b' b'') :
    SameMode b b'' :=
  ⟨h'.1.trans h.1, h'.2.1.trans h.2.1, h'.2.2.trans h.2.2⟩

theorem sameMode_pushState (b : NfaBuilder) (state : NfaState) :
    SameMode b (b.pushState state) := ⟨rfl, rfl, rfl⟩

end NfaBuilder

/-! ### Fragments above an open lower part -/

/-- `M` has the states of `N` from index `lo` on. -/
def AgreesFrom (lo : Nat) (N M : List NfaState) : Prop :=
  ∀ i, lo ≤ i → i < N.length → M[i]? = N[i]?

/-- The states from `lo` on read `L` from `s` to `t`, whatever stands elsewhere. -/
def Built (lo : Nat) (N : List NfaState) (L : Language Char) (s t : Nat) : Prop :=
  ∀ M, AgreesFrom lo N M → Frag (view M) L s t

section Built

variable {lo lo' : Nat} {N N' : List NfaState} {K L : Language Char} {s t u : Nat}

theorem AgreesFrom.refl (lo : Nat) (N : List NfaState) : AgreesFrom lo N N :=
  fun _ _ _ => rfl

theorem AgreesFrom.of_prefix {M : List NfaState} (hN : N <+: N') (h : AgreesFrom lo N' M) :
    AgreesFrom lo N M := by
  intro i hlo hi
  obtain ⟨added, rfl⟩ := hN
  rw [h i hlo (by rw [length_append]; omega), getElem?_append_left hi]

theorem AgreesFrom.view_eq {M : List NfaState} {i : Nat} {state : NfaState}
    (h : AgreesFrom lo N M) (hlo : lo ≤ i) (hi : N[i]? = some state) :
    view M i = some state.node := by
  have hlt : i < N.length := (List.getElem?_eq_some_iff.mp hi).1
  rw [view, h i hlo hlt, hi, Option.map_some]

theorem Built.mono (h : Built lo N L s t) (hN : N <+: N') (hlo : lo' ≤ lo) :
    Built lo' N' L s t :=
  fun M hM => h M fun i hi => (hM.of_prefix hN) i (hlo.trans hi)

theorem Built.refl (lo : Nat) (N : List NfaState) (s : Nat) : Built lo N 1 s s :=
  fun _ _ => Frag.refl s

theorem Built.trans (h₁ : Built lo N K s t) (h₂ : Built lo N L t u) :
    Built lo N (K * L) s u :=
  fun M hM => (h₁ M hM).trans (h₂ M hM)

theorem Built.congr (h : Built lo N K s t) (hKL : K = L) : Built lo N L s t := hKL ▸ h

theorem Built.advance {chars : CharacterSet} {isSep : Bool} {precedence : Int} (hlo : lo ≤ s)
    (h : N[s]? = some (.advance chars t isSep precedence)) :
    Built lo N (letters {c | c.toNat ∈ chars}) s t :=
  fun _ hM => Frag.advance (hM.view_eq hlo h)

theorem Built.split {l r : Nat} (hlo : lo ≤ s) (h : N[s]? = some (.split l r))
    (h₁ : Built lo N K l t) (h₂ : Built lo N L r t) : Built lo N (K + L) s t :=
  fun M hM => Frag.split (hM.view_eq hlo h) (h₁ M hM) (h₂ M hM)

theorem Built.pushAdvance {b : NfaBuilder} (hlo : lo ≤ b.states.length) (chars : CharacterSet)
    (i : Nat) : Built lo (b.pushAdvance chars i).states (letters {c | c.toNat ∈ chars})
      (b.pushAdvance chars i).lastStateId i := by
  rw [NfaBuilder.lastStateId_pushAdvance]
  exact Built.advance hlo (getElem?_concat_length)

theorem Built.pushSplit {b : NfaBuilder} {i : Nat} (hlo : lo ≤ b.states.length)
    (h₁ : Built lo b.states K i t) (h₂ : Built lo b.states L b.lastStateId t) :
    Built lo (b.pushSplit i).states (K + L) (b.pushSplit i).lastStateId t := by
  rw [NfaBuilder.lastStateId_pushSplit]
  exact Built.split hlo getElem?_concat_length (h₁.mono (prefix_append _ _) le_rfl)
    (h₂.mono (prefix_append _ _) le_rfl)

theorem Built.accepts_eq (h : Built lo N L s t) :
    accepts (view N) s = L * accepts (view N) t :=
  (h N (AgreesFrom.refl lo N)).accepts_eq

end Built

/-! ### Appending leaves the old states' words alone -/

variable {N N' : List NfaState} {i : Nat}

theorem view_of_lt (hN : N <+: N') (hi : i < N.length) :
    view N' i = view N i := by
  obtain ⟨added, rfl⟩ := hN
  rw [view, view, getElem?_append_left hi]

theorem view_eq_some {node : Node Char Nat} (h : view N i = some node) :
    ∃ state ∈ N, state.node = node := by
  obtain ⟨state, hstate, rfl⟩ := Option.map_eq_some_iff.mp h
  exact ⟨state, mem_of_getElem? hstate, rfl⟩

theorem Closed.advance_lt (hN : Closed N) {t : Nat} {C : Set Char}
    (h : view N i = some (.advance C t)) : t < N.length := by
  obtain ⟨state, hmem, hnode⟩ := view_eq_some h
  cases state with
  | advance chars stateId isSep precedence =>
    cases hnode
    exact hN _ hmem _ (by simp [NfaState.targets])
  | split left right | accept variableIndex precedence => cases hnode

theorem Closed.split_lt (hN : Closed N) {l r : Nat} (h : view N i = some (.split l r)) :
    l < N.length ∧ r < N.length := by
  obtain ⟨state, hmem, hnode⟩ := view_eq_some h
  cases state with
  | advance chars stateId isSep precedence => cases hnode
  | split left right =>
    cases hnode
    exact ⟨hN _ hmem _ (by simp [NfaState.targets]), hN _ hmem _ (by simp [NfaState.targets])⟩
  | accept variableIndex precedence => cases hnode

theorem AcceptsIn.mono_prefix (hN : N <+: N') {n : Nat} {w : List Char}
    (h : AcceptsIn (view N) n i w) : AcceptsIn (view N') n i w := by
  have hview : ∀ {i node}, view N i = some node → view N' i = some node := by
    intro i node hi
    have hlt : i < N.length := by
      obtain ⟨state, hstate, -⟩ := Option.map_eq_some_iff.mp hi
      exact (List.getElem?_eq_some_iff.mp hstate).1
    rw [view_of_lt hN hlt, hi]
  induction h with
  | accept h => exact .accept (hview h)
  | advance h ha _ ih => exact .advance (hview h) ha ih
  | left h _ ih => exact .left (hview h) ih
  | right h _ ih => exact .right (hview h) ih

theorem AcceptsIn.of_prefix (hN : N <+: N') (hclosed : Closed N) {n : Nat} {w : List Char}
    (h : AcceptsIn (view N') n i w) (hi : i < N.length) :
    AcceptsIn (view N) n i w := by
  induction h with
  | accept h => exact .accept (view_of_lt hN hi ▸ h)
  | advance h ha _ ih =>
    rw [view_of_lt hN hi] at h
    exact .advance h ha (ih (hclosed.advance_lt h))
  | left h _ ih =>
    rw [view_of_lt hN hi] at h
    exact .left h (ih (hclosed.split_lt h).1)
  | right h _ ih =>
    rw [view_of_lt hN hi] at h
    exact .right h (ih (hclosed.split_lt h).2)

/-- **Frame.** Appending states to a closed automaton changes nothing that its own
states accept. -/
theorem accepts_of_prefix (hN : N <+: N') (hclosed : Closed N) (hi : i < N.length) :
    accepts (view N') i = accepts (view N) i := by
  ext w
  constructor
  · rintro ⟨n, h⟩
    exact ⟨n, AcceptsIn.of_prefix hN hclosed h hi⟩
  · rintro ⟨n, h⟩
    exact ⟨n, AcceptsIn.mono_prefix hN h⟩

/-! ### Words -/

def word (cs : List Char) : Language Char := {cs}

theorem letters_fromChar (c : Char) :
    letters {x : Char | x.toNat ∈ CharacterSet.fromChar c} = word [c] := by
  ext w
  simp only [mem_letters, Set.mem_ofPred_eq, CharacterSet.mem_fromChar, word]
  constructor
  · rintro ⟨a, ha, rfl⟩
    rw [Char.toNat_inj] at ha
    rw [ha]
    rfl
  · intro hw
    exact ⟨c, rfl, hw⟩

theorem word_cons (c : Char) (cs : List Char) : word (c :: cs) = word [c] * word cs := by
  ext w
  rw [mem_mul]
  constructor
  · intro hw
    exact ⟨[c], rfl, cs, rfl, hw.symm⟩
  · rintro ⟨x, rfl, y, rfl, rfl⟩
    rfl

/-- What `pushChars` does: it appends one state a character and returns the id of the
last one, from where the word leads to `next`. -/
theorem pushChars_spec (cs : List Char) (next : Nat) (b : NfaBuilder) :
    b.states <+: (NfaBuilder.pushChars cs next b).2.states ∧
      NfaBuilder.SameMode b (NfaBuilder.pushChars cs next b).2 ∧
      Built b.states.length (NfaBuilder.pushChars cs next b).2.states (word cs)
        (NfaBuilder.pushChars cs next b).1 next ∧
      (cs ≠ [] → (NfaBuilder.pushChars cs next b).1 =
          (NfaBuilder.pushChars cs next b).2.lastStateId ∧
        b.states.length < (NfaBuilder.pushChars cs next b).2.states.length) := by
  induction cs with
  | nil => exact ⟨prefix_refl _, .refl b, Built.refl _ _ _, fun h => absurd rfl h⟩
  | cons c cs ih =>
    obtain ⟨hpre, hmode, hbuilt, -⟩ := ih
    simp only [NfaBuilder.pushChars]
    generalize NfaBuilder.pushChars cs next b = rest at *
    have hgrow : rest.2.states <+:
        (rest.2.pushAdvance (CharacterSet.fromChar c) rest.1).states :=
      prefix_append _ _
    refine ⟨hpre.trans hgrow, hmode.trans (rest.2.sameMode_pushState _), ?_, fun _ => ⟨trivial, ?_⟩⟩
    · rw [word_cons, ← letters_fromChar]
      exact (Built.pushAdvance hpre.length_le _ _).trans (hbuilt.mono hgrow le_rfl)
    · have := hpre.length_le
      simp only [NfaBuilder.pushAdvance_states, length_append, length_singleton]
      omega

end TreeSitter.Generate
