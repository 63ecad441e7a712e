import TreeSitter.Generate.Dedup
import TreeSitter.Generate.Tables
import TreeSitter.Library.MergeJoin

/-!
# TreeSitter.Generate.BuildTables.MinimizeParseTable

`merge_compatible_states` of `minimize_parse_table.rs`. States are grouped by the core
of their item set, split once by **conflicts** between their entries, then split until
the **successors** of each group agree, and each group becomes one state whose entries
are the union of its members' entries.
-/

namespace TreeSitter.Generate

open Library

/-! ### Keys -/

/-- The discriminant of a symbol's kind. -/
def SymbolType.tag : SymbolType → Nat
  | .external => 0
  | .endOfFile => 1
  | .endOfNonTerminalExtra => 2
  | .terminal => 3
  | .nonTerminal => 4

/-- `SymbolKey`: kind first, then index. The source packs the pair into one integer. -/
def symbolKey (symbol : Symbol) : Nat ×ₗ Nat := toLex (symbol.kind.tag, symbol.index)

theorem symbolKey_injective : Function.Injective symbolKey := by
  rintro ⟨k, i⟩ ⟨k', i'⟩ h
  have h' : (k.tag, i) = (k'.tag, i') := toLex_inj.mp h
  rw [Prod.mk.injEq] at h'
  obtain ⟨hk, rfl⟩ := h'
  cases k <;> cases k' <;> simp_all [SymbolType.tag]

def sortedEntries {ν κ : Type} [LinearOrder κ] (key : Symbol → κ) (m : IndexMap Symbol ν) :
    List (Symbol × ν) :=
  m.entries.insertionSort fun x y => key x.1 ≤ key y.1

/-! ### Token conflicts -/

/-- What the minimizer reads of the grammar and of the token conflict map. -/
structure MinimizerContext where
  /-- `lexical_grammar.variables.len()` -/
  nTerminals : Nat
  /-- `token_conflict_map.does_conflict` -/
  doesConflict : Nat → Nat → Bool
  keywords : TokenSet
  wordToken : Option Symbol
  /-- `corresponding_internal_token` of the external tokens that have one -/
  internalExternal : List Symbol

/-- Whether the state with an id has an entry for a terminal (`get_state_row`). -/
def stateHasTerminal (table : ParseTable) (stateId index : Nat) : Bool :=
  table.states[stateId]?.any fun state =>
    state.terminalEntries.keys.any fun symbol => symbol.isTerminal && symbol.index == index

/-- `token_conflicts`; the words of the bit sets are read bit by bit. -/
def tokenConflicts (ctx : MinimizerContext) (table : ParseTable) (rightState : ParseState)
    (newToken : Symbol) : Bool :=
  if newToken = Symbol.endOfNonterminalExtra then true
  else if newToken.isExternal then true
  else if newToken ∈ rightState.reservedWords then false
  else if newToken.isTerminal && ctx.internalExternal.any (·.index == newToken.index) then true
  else
    let newTokenIsWord := ctx.wordToken == some newToken
    let newTokenIsKeyword := ctx.wordToken.isSome && decide (newToken ∈ ctx.keywords)
    (List.range ctx.nTerminals).any fun other =>
      stateHasTerminal table rightState.id other && ctx.doesConflict newToken.index other &&
        !(newTokenIsKeyword && ctx.wordToken.any (·.index == other)) &&
        !(newTokenIsWord && decide (Symbol.terminal other ∈ ctx.keywords))

/-! ### The two tests -/

/-- Whether two actions at one place of two lists are incompatible. -/
def actionConflicts (groupOf : Nat → Nat) : ParseAction → ParseAction → Bool
  | .shift s₁ isRepetition₁, .shift s₂ isRepetition₂ =>
    !(groupOf s₁ == groupOf s₂ && isRepetition₁ == isRepetition₂)
  | action₁, action₂ => action₁ != action₂

/-- `entries_conflict`. -/
def entriesConflict (table : ParseTable) (groupOf : Nat → Nat) (id₁ id₂ : ActionListId) : Bool :=
  if id₁.index = id₂.index then false
  else if (table.actions id₁).length ≠ (table.actions id₂).length then true
  else ((table.actions id₁).zip (table.actions id₂)).any fun p => actionConflicts groupOf p.1 p.2

/-- A row of `entry_maps`. -/
def entryMap (table : ParseTable) (stateId : Nat) : List (Symbol × ActionListId) :=
  match table.states[stateId]? with
  | none => []
  | some state => sortedEntries symbolKey state.terminalEntries

/-- `states_conflict`. -/
def statesConflict (ctx : MinimizerContext) (table : ParseTable) (state₁ state₂ : ParseState)
    (groupOf : Nat → Nat) : Bool :=
  mergeAny (fun e => symbolKey e.1) (fun e => symbolKey e.1)
    (fun e₁ e₂ => entriesConflict table groupOf e₁.2 e₂.2)
    (fun e₁ => tokenConflicts ctx table state₂ e₁.1)
    (fun e₂ => tokenConflicts ctx table state₁ e₂.1)
    (entryMap table state₁.id) (entryMap table state₂.id)

def lastShift (actions : List ParseAction) : Option Nat :=
  match actions.getLast? with
  | some (.shift state _) => some state
  | _ => none

/-- A row of `shift_maps`. -/
def shiftMap (table : ParseTable) (stateId : Nat) : List (Symbol × Nat) :=
  match table.states[stateId]? with
  | none => []
  | some state =>
    (state.terminalEntries.entries.filterMap fun e =>
      (lastShift (table.actions e.2)).map fun s => (e.1, s)).insertionSort
        fun x y => symbolKey x.1 ≤ symbolKey y.1

/-- A row of `nonterminal_maps`; only the index of the symbol is a key. -/
def nonterminalMap (table : ParseTable) (stateId : Nat) : List (Symbol × GotoAction) :=
  match table.states[stateId]? with
  | none => []
  | some state => sortedEntries Symbol.index state.nonterminalEntries

def gotosDiffer (groupOf : Nat → Nat) : GotoAction → GotoAction → Bool
  | .shiftExtra, .shiftExtra => false
  | .goto s₁, .goto s₂ => groupOf s₁ != groupOf s₂
  | _, _ => true

/-- `state_successors_differ`. -/
def stateSuccessorsDiffer (table : ParseTable) (state₁ state₂ : ParseState)
    (groupOf : Nat → Nat) : Bool :=
  mergeAny (fun e => symbolKey e.1) (fun e => symbolKey e.1)
      (fun e₁ e₂ => groupOf e₁.2 != groupOf e₂.2) (fun _ => false) (fun _ => false)
      (shiftMap table state₁.id) (shiftMap table state₂.id) ||
    mergeAny (fun e => e.1.index) (fun e => e.1.index)
      (fun e₁ e₂ => gotosDiffer groupOf e₁.2 e₂.2) (fun _ => false) (fun _ => false)
      (nonterminalMap table state₁.id) (nonterminalMap table state₂.id)

/-! ### Merging -/

def coreGroups (table : ParseTable) (coreCount : Nat) : Groups where
  members := (List.range coreCount).map fun core =>
    (List.range table.states.length).filter fun i =>
      (table.states[i]?.map ParseState.coreId) == some core
  groupOf i := (table.states[i]?.map ParseState.coreId).getD 0

/-- Extend a new state with the entries of another state of its group. -/
def extendState (parseState other : ParseState) : ParseState :=
  let terminalEntries := parseState.terminalEntries.extend other.terminalEntries
  { parseState with
    hasEofGatedReduce := parseState.hasEofGatedReduce || other.hasEofGatedReduce
    terminalEntries := terminalEntries
    nonterminalEntries := parseState.nonterminalEntries.extend other.nonterminalEntries
    reservedWords := (parseState.reservedWords ∪ other.reservedWords).filter
      (· ∉ terminalEntries.keys) }

/-- The new state of a group: its first state, extended with the others. An empty
group, or a state id out of range, is a panic. -/
def mergeGroup (table : ParseTable) (ids : List Nat) : Option ParseState := do
  let states ← ids.mapM fun i => table.states[i]?
  match states with
  | [] => none
  | first :: others => some (others.foldl extendState first)

/-- The two calls of `swap` that put the groups of the error state and of the start
state first. -/
def swapGroups (members : List (List Nat)) : Option (List (List Nat)) := do
  let errorGroupIndex ← members.findIdx? (·.contains 0)
  let startGroupIndex ← members.findIdx? (·.contains 1)
  let members ← swapAt members errorGroupIndex 0
  swapAt members startGroupIndex 1

/-- The groups the two refinements end in. -/
def mergeGroups (ctx : MinimizerContext) (table : ParseTable) (coreCount : Nat) : Groups :=
  splitUntilStable (differIn table.states (stateSuccessorsDiffer table)) 0
    (table.states.length + 1)
    (splitStateIdGroups (differIn table.states (statesConflict ctx table)) 0
      (coreGroups table coreCount)).2

/-- `merge_compatible_states`; `none` is a panic. -/
def mergeCompatibleStates (ctx : MinimizerContext) (table : ParseTable) : Option ParseTable := do
  let maxCore ← (table.states.map ParseState.coreId).max?
  let groups := mergeGroups ctx table (maxCore + 1)
  let members ← swapGroups groups.members
  let newStates ← members.mapM fun ids =>
    (mergeGroup table ids).map (·.updateNonterminalReferences fun s _ => groups.groupOf s)
  some ({ table with states := newStates }.remapTerminalReferences groups.groupOf)

end TreeSitter.Generate
