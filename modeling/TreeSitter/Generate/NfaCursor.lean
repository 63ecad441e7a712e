import TreeSitter.Generate.Nfa

/-!
# TreeSitter.Generate.NfaCursor

`NfaCursor` of `nfa.rs`: a **set of automaton states**, kept sorted, with its
completions and its transitions. Transitions of single states are regrouped so that
their character sets are disjoint.
-/

namespace TreeSitter.Generate

/-- `NfaTransition`. -/
structure NfaTransition where
  characters : CharacterSet
  isSeparator : Bool
  precedence : Int
  states : List Nat

/-! ### State sets -/

/-- `binary_search`, then `insert` where the search failed: a sorted list stays sorted
and has no element twice. -/
def insertSorted (x : Nat) (xs : List Nat) : List Nat :=
  if x ∈ xs then xs else xs.orderedInsert (· ≤ ·) x

/-- The loop of `add_states` from index `i` of `new_state_ids` on. A split state adds
those of its targets that are not listed yet, so at most one id for each state of the
automaton is added. -/
def addStatesFrom (nfa : List NfaState) : Nat → Nat → List Nat → List Nat → List Nat
  | 0, _, _, stateIds => stateIds
  | fuel + 1, i, newStateIds, stateIds =>
    match newStateIds[i]? with
    | none => stateIds
    | some stateId =>
      match nfa[stateId]? with
      | some (.split left right) =>
        addStatesFrom nfa fuel (i + 1)
          (newStateIds ++ (if left ∈ newStateIds then [] else [left]) ++
            (if right ∈ newStateIds then [] else [right])) stateIds
      | _ => addStatesFrom nfa fuel (i + 1) newStateIds (insertSorted stateId stateIds)

/-- `NfaCursor::reset`: the closure of some states under splits. -/
def resetCursor (nfa : List NfaState) (newStateIds : List Nat) : List Nat :=
  addStatesFrom nfa (newStateIds.length + 2 * nfa.length + 1) 0 newStateIds []

theorem resetCursor_nil (nfa : List NfaState) : resetCursor nfa [] = [] := by
  simp [resetCursor, addStatesFrom]

/-- `completions`. -/
def completions (nfa : List NfaState) (stateIds : List Nat) : List (Nat × Int) :=
  stateIds.filterMap fun i : Nat =>
    match nfa[i]? with
    | some (.accept variableIndex precedence) => some (variableIndex, precedence)
    | _ => none

/-- One transition of a single state. -/
structure RawTransition where
  chars : CharacterSet
  isSep : Bool
  precedence : Int
  state : Nat

/-- `raw_transitions`. -/
def rawTransitions (nfa : List NfaState) (stateIds : List Nat) : List RawTransition :=
  stateIds.filterMap fun i : Nat =>
    match nfa[i]? with
    | some (.advance chars stateId isSep precedence) => some ⟨chars, isSep, precedence, stateId⟩
    | _ => none

/-! ### Grouping transitions -/

/-- The inner loop over the transitions found so far, which takes their common
characters out of `chars`. An intersection that does not use up a transition is pushed
to the end; it is disjoint from what is left of `chars`, so visiting it adds nothing
and twice the length is enough. -/
def splitTransitions (raw : RawTransition) :
    Nat → Nat → List NfaTransition → CharacterSet → List NfaTransition × CharacterSet
  | 0, _, result, chars => (result, chars)
  | fuel + 1, i, result, chars =>
    match result[i]? with
    | none => (result, chars)
    | some t =>
      if chars.isEmpty then (result, chars)
      else
        let intersection := t.characters.intersection chars
        let rest := t.characters.difference chars
        let chars' := t.characters.remainder chars
        if intersection.isEmpty then
          splitTransitions raw fuel (i + 1) (result.set i { t with characters := rest }) chars'
        else
          let common : NfaTransition :=
            { characters := intersection
              isSeparator := t.isSeparator && raw.isSep
              precedence := max t.precedence raw.precedence
              states := insertSorted raw.state t.states }
          if rest.isEmpty then
            splitTransitions raw fuel (i + 1) (result.set i common) chars'
          else
            splitTransitions raw fuel (i + 1)
              (result.set i { t with characters := rest } ++ [common]) chars'

/-- One turn of the loop over the raw transitions. -/
def addTransition (result : List NfaTransition) (raw : RawTransition) : List NfaTransition :=
  let p := splitTransitions raw (2 * result.length + 1) 0 result raw.chars
  if p.2.isEmpty then p.1
  else p.1 ++ [{ characters := p.2, isSeparator := raw.isSep, precedence := raw.precedence,
                 states := [raw.state] }]

/-- `swap_remove`. -/
def swapRemove {α : Type*} (xs : List α) (i : Nat) : List α :=
  match xs.getLast? with
  | none => xs
  | some last => (xs.set i last).dropLast

/-- The loop that joins transitions which differ in their characters only. -/
def joinTransitions : Nat → Nat → List NfaTransition → List NfaTransition
  | 0, _, result => result
  | fuel + 1, i, result =>
    match result[i]? with
    | none => result
    | some t =>
      match (result.take i).findIdx? fun u => u.states == t.states &&
          u.isSeparator == t.isSeparator && u.precedence == t.precedence with
      | none => joinTransitions fuel (i + 1) result
      | some j =>
        joinTransitions fuel i
          (swapRemove (result.modify j fun u =>
            { u with characters := u.characters.add t.characters }) i)

def CodeRange.len (r : CodeRange) : Nat := r.stop - r.start

/-- The comparison of ranges in turn. Ranges of equal length are compared code point by
code point, which their first ones decide. -/
def compareRanges : List CodeRange → List CodeRange → Ordering
  | r :: rs, s :: ss =>
    (compare r.len s.len).then ((compare r.start s.start).then (compareRanges rs ss))
  | _, _ => .eq

/-- `CharacterSet::cmp`: by the number of code points first. -/
def CharacterSet.cmp (a b : CharacterSet) : Ordering :=
  (compare (a.ranges.map CodeRange.len).sum (b.ranges.map CodeRange.len).sum).then
    (compareRanges a.ranges b.ranges)

/-- `group_transitions`. -/
def groupTransitions (raw : List RawTransition) : List NfaTransition :=
  let result := raw.foldl addTransition []
  (joinTransitions (result.length + 1) 0 result).insertionSort
    fun a b => (a.characters.cmp b.characters).isLE = true

end TreeSitter.Generate
