import TreeSitter.Generate.BuildTables.RemoveUnitReductions
import TreeSitter.Library.Renumbering

/-!
# TreeSitter.Generate.BuildTables.RenumberStates

The **last passes** over a parse table that renumber something. `remove_unused_states` drops the
states that nothing refers to, `reorder_states_by_descending_size` puts the others into an order,
and `ActionListPool::canonicalize` builds the pool of action lists anew, from the lists that are
still referred to.

The gotos of a state are its own, but the targets of its shifts are in the shared pool. So the
gotos are renumbered state by state, and the shifts list by list.
-/

namespace TreeSitter.Generate

open Library

/-! ### Dropping states -/

/-- What `remove_unused_states` keeps (`state_usage_map`): the states 0 and 1, and those that some
state refers to. -/
def ParseTable.isUsed (table : ParseTable) (stateId : Nat) : Bool :=
  stateId == 0 || stateId == 1 ||
    table.states.any fun state => (state.referencedStates table).contains stateId

/-- `state_usage_map`. -/
def ParseTable.stateUsageMap (table : ParseTable) : List Bool :=
  (List.range table.states.length).map table.isUsed

/-- The loop that fills `state_replacement_map`, from a state on. -/
def stateReplacements : List Bool → Nat → Nat → List Nat
  | [], _, _ => []
  | used :: usage, stateId, removedPredecessorCount =>
    (stateId - removedPredecessorCount) ::
      stateReplacements usage (stateId + 1)
        (if used then removedPredecessorCount else removedPredecessorCount + 1)

/-- `state_replacement_map`. -/
def ParseTable.stateReplacement (table : ParseTable) (stateId : Nat) : Nat :=
  (stateReplacements table.stateUsageMap 0 0).getD stateId 0

/-- The loop that removes states, with the states from `state_id` on: one that is not used is
removed, and another one is updated in its place. -/
def removeUnused (usage : List Bool) (replacement : Nat → Nat) :
    Nat → List ParseState → List ParseState
  | _, [] => []
  | originalStateId, state :: states =>
    if usage.getD originalStateId false then
      state.updateNonterminalReferences (fun otherStateId _ => replacement otherStateId) ::
        removeUnused usage replacement (originalStateId + 1) states
    else removeUnused usage replacement (originalStateId + 1) states

/-- `remove_unused_states`. -/
def ParseTable.removeUnusedStates (table : ParseTable) : ParseTable :=
  { table with
    states := removeUnused table.stateUsageMap table.stateReplacement 0
      table.states }.remapTerminalReferences table.stateReplacement

/-! ### Another order -/

/-- The number of entries of a state. -/
def ParseState.symbolCount (state : ParseState) : Nat :=
  state.terminalEntries.entries.length + state.nonterminalEntries.entries.length

def ParseTable.sizeKey (table : ParseTable) (stateId : Fin table.states.length) : Int :=
  if stateId.val ≤ 1 then stateId.val - 1000000 else -(table.states[stateId].symbolCount : Int)

/-- `old_ids_by_new_id`: an order that `sort_unstable_by_key` may give. It puts states with one key
in any order. -/
structure SizeOrder (table : ParseTable) where
  oldIdsByNewId : List (Fin table.states.length)
  perm : oldIdsByNewId.Perm (List.finRange table.states.length)
  sorted : oldIdsByNewId.Pairwise fun i j => table.sizeKey i ≤ table.sizeKey j

/-- `new_ids_by_old_id`. -/
def SizeOrder.newId {table : ParseTable} (order : SizeOrder table) (stateId : Nat) : Nat :=
  (positions (order.oldIdsByNewId.map Fin.val)).getD stateId 0

/-- `reorder_states_by_descending_size`. -/
def ParseTable.reorderStatesByDescendingSize (table : ParseTable) (order : SizeOrder table) :
    ParseTable :=
  { table with
    states := order.oldIdsByNewId.map fun (oldId : Fin table.states.length) =>
      table.states[oldId].updateNonterminalReferences fun id _ =>
        order.newId id }.remapTerminalReferences order.newId

/-! ### The pool -/

/-- What `canonicalize` goes on with: the new pool, and the new indices of the lists of the old pool
that are in it. -/
structure Canonicalizer where
  pool : ActionListInterner
  oldToNew : List (Option Nat)

/-- The body of the loop over the entries of a state. -/
def canonicalizeId (oldLists : List (List ParseAction)) (canon : Canonicalizer)
    (id : ActionListId) : ActionListId × Canonicalizer :=
  match canon.oldToNew.getD id.index none with
  | some newIndex => (⟨newIndex, id.reusable⟩, canon)
  | none =>
    let (newIndex, pool) := canon.pool.intern (oldLists.getD id.index [])
    (⟨newIndex, id.reusable⟩, ⟨pool, canon.oldToNew.set id.index (some newIndex)⟩)

/-- The loop over the entries of a state. -/
def canonicalizeEntries (oldLists : List (List ParseAction)) :
    Canonicalizer → List (Symbol × ActionListId) → List (Symbol × ActionListId) × Canonicalizer
  | canon, [] => ([], canon)
  | canon, (symbol, id) :: entries =>
    let (newId, canon) := canonicalizeId oldLists canon id
    let (entries, canon) := canonicalizeEntries oldLists canon entries
    ((symbol, newId) :: entries, canon)

theorem canonicalizeEntries_keys (oldLists : List (List ParseAction)) (canon : Canonicalizer)
    (entries : List (Symbol × ActionListId)) :
    (canonicalizeEntries oldLists canon entries).1.map Prod.fst = entries.map Prod.fst := by
  induction entries generalizing canon with
  | nil => rfl
  | cons entry entries ih =>
    rw [canonicalizeEntries]
    exact congrArg (entry.1 :: ·) (ih _)

/-- A state, with the entries of the new pool. -/
def canonicalizeState (oldLists : List (List ParseAction)) (canon : Canonicalizer)
    (state : ParseState) : ParseState × Canonicalizer :=
  ({ state with
      terminalEntries :=
        ⟨(canonicalizeEntries oldLists canon state.terminalEntries.entries).1, by
          rw [canonicalizeEntries_keys]
          exact state.terminalEntries.nodup⟩ },
    (canonicalizeEntries oldLists canon state.terminalEntries.entries).2)

/-- The loop over the states. -/
def canonicalizeStates (oldLists : List (List ParseAction)) :
    Canonicalizer → List ParseState → List ParseState × Canonicalizer
  | canon, [] => ([], canon)
  | canon, state :: states =>
    let (newState, canon) := canonicalizeState oldLists canon state
    let (states, canon) := canonicalizeStates oldLists canon states
    (newState :: states, canon)

/-- The new pool at first: the empty list, and no list of the old pool. -/
def Canonicalizer.new (oldLists : List (List ParseAction)) : Canonicalizer :=
  ⟨((⟨[], .empty⟩ : ActionListInterner).intern []).2, List.replicate oldLists.length none⟩

/-- `ActionListPool::canonicalize`. -/
def ParseTable.canonicalize (table : ParseTable) : ParseTable :=
  let (states, canon) :=
    canonicalizeStates table.actionLists (.new table.actionLists) table.states
  { table with states, actionLists := canon.pool.lists }

/-! ### What the passes amount to -/

/-- A table whose references are valid. Lists that no state refers to may hold any target. -/
structure ParseTable.Valid (table : ParseTable) : Prop where
  /-- The error state and the start state. -/
  two_le : 2 ≤ table.states.length
  lists : ∀ state ∈ table.states, ∀ e ∈ state.terminalEntries.entries,
    e.2.index < table.actionLists.length
  targets : ∀ state ∈ table.states, ∀ target ∈ state.referencedStates table,
    target < table.states.length

/-- The terminal entries of a state: symbol, actions and the flag. -/
def ParseState.terminalActions (state : ParseState) (table : ParseTable) :
    List (Symbol × List ParseAction × Bool) :=
  state.terminalEntries.entries.map fun e => (e.1, table.actions e.2, e.2.reusable)

/-- One state is the other one under new numbers: it has the same terminal symbols with the same
actions and flags, the same gotos, and the same of everything else. -/
structure ParseState.IsRenamed (rename : Nat → Nat) (table : ParseTable) (state : ParseState)
    (table' : ParseTable) (state' : ParseState) : Prop where
  terminals : state'.terminalActions table' = (state.terminalActions table).map fun e =>
    (e.1, e.2.1.map (.rename rename), e.2.2)
  gotos : state'.nonterminalEntries = state.nonterminalEntries.mapValues (.rename rename)
  rest : { state' with
    terminalEntries := state.terminalEntries
    nonterminalEntries := state.nonterminalEntries } = state

/-- One table is the other one under new numbers, on the states that are kept. -/
structure ParseTable.IsRenamed (table table' : ParseTable) (kept : Set Nat)
    (rename : Nat → Nat) : Prop where
  bijOn : Set.BijOn rename kept (Set.Iio table'.states.length)
  states : ∀ i ∈ kept, ∀ state, table.states[i]? = some state →
    ∃ state', table'.states[rename i]? = some state' ∧ state.IsRenamed rename table table' state'

def ParseTable.keptStates (table : ParseTable) : Set Nat :=
  {i | i < table.states.length ∧
    (i = 0 ∨ i = 1 ∨ ∃ state ∈ table.states, i ∈ state.referencedStates table)}

/-- **A final renumbering**: the states that are kept get new numbers, 0 and 1 stay what they are,
no reference is out of range, the first list is empty, and the states from 2 on have no more
entries than those in front of them. -/
structure IsFinalRenumbering (table table' : ParseTable) (rename : Nat → Nat) : Prop where
  renamed : table.IsRenamed table' table.keptStates rename
  zero : rename 0 = 0
  one : rename 1 = 1
  valid : table'.Valid
  pool : ∀ actions ∈ table'.actionLists, ∀ action ∈ actions, ∀ target ∈ action.shiftTarget,
    target < table'.states.length
  empty : table'.actionLists[0]? = some []
  descending : ∀ i j state state', 2 ≤ i → i ≤ j → table'.states[i]? = some state →
    table'.states[j]? = some state' → state'.symbolCount ≤ state.symbolCount

/-- The passes, one after another. -/
def ParseTable.renumberStates (table : ParseTable) (order : SizeOrder table.removeUnusedStates) :
    ParseTable :=
  (table.removeUnusedStates.reorderStatesByDescendingSize order).canonicalize

/-- The new number of a state. -/
def ParseTable.finalId (table : ParseTable) (order : SizeOrder table.removeUnusedStates)
    (stateId : Nat) : Nat :=
  order.newId (table.stateReplacement stateId)

end TreeSitter.Generate
