import TreeSitter.Generate.Grammars
import TreeSitter.Generate.Tables

/-!
# TreeSitter.Generate.BuildTables.RemoveUnitReductions

`remove_unit_reductions` of `minimize_parse_table.rs`. A **unit-reduction state** does nothing but
reduce one child to a symbol that is never shown. Going there amounts to going where the goto for
that symbol leads, so references to such states are replaced by the goto, state by state, until
nothing changes.

The loop that does this has no bound of its own; here it has a number of rounds, and gives no
result when they are used up.
-/

namespace TreeSitter.Generate

open Library

/-- What the pass reads of the grammar. -/
structure UnitReductionContext where
  /-- The steps of the productions of all variables. -/
  steps : List ProductionStep
  /-- `syntax_grammar.variables[..].kind` -/
  variableKind : Nat → VariableType
  supertypeSymbols : List Symbol
  extraSymbols : List Symbol
  simpleAliases : IndexMap Symbol Alias

namespace UnitReductionContext

/-- `aliased_symbols`. -/
def aliasedSymbols (ctx : UnitReductionContext) : List Symbol :=
  (ctx.steps.filter fun step => step.aliasAs.isSome).map ProductionStep.symbol

/-- Whether a symbol may be reduced away: nothing shows it or asks for it. -/
def isUnitSymbol (ctx : UnitReductionContext) (symbol : Symbol) : Bool :=
  (ctx.simpleAliases.get? symbol).isNone && !ctx.supertypeSymbols.contains symbol &&
    !ctx.extraSymbols.contains symbol && !ctx.aliasedSymbols.contains symbol &&
    ctx.variableKind symbol.index != .named

/-- One action of a state, after those that reduce to `found`; `none` if the state does something
else. -/
def scanAction (ctx : UnitReductionContext) (found : Option Symbol) :
    ParseAction → Option (Option Symbol)
  | .shiftExtra => some found
  | .reduce symbol 1 _ 0 =>
    if ctx.isUnitSymbol symbol && (found.isNone || found == some symbol) then some (some symbol)
    else none
  | _ => none

/-- The symbol that a state reduces to, if it is a unit-reduction state. -/
def unitReductionSymbol (ctx : UnitReductionContext) (table : ParseTable) (state : ParseState) :
    Option Symbol :=
  if state.hasEofGatedReduce then none
  else
    ((state.terminalEntries.entries.flatMap fun e => table.actions e.2).foldlM ctx.scanAction
      none).join

/-- `unit_reduction_symbols_by_state`. -/
def unitReductionSymbolAt (ctx : UnitReductionContext) (table : ParseTable) (stateId : Nat) :
    Option Symbol :=
  table.states[stateId]?.bind (ctx.unitReductionSymbol table)

end UnitReductionContext

/-! ### References -/

def ParseState.gotoTarget (state : ParseState) (symbol : Symbol) : Option Nat :=
  match state.nonterminalEntries.get? symbol with
  | some (.goto target) => some target
  | _ => none

def ParseAction.shiftTarget : ParseAction → Option Nat
  | .shift target _ => some target
  | _ => none

def GotoAction.target : GotoAction → Option Nat
  | .goto target => some target
  | .shiftExtra => none

/-- `referenced_states`. -/
def ParseState.referencedStates (state : ParseState) (table : ParseTable) : List Nat :=
  (state.terminalEntries.entries.flatMap fun e =>
    (table.actions e.2).filterMap ParseAction.shiftTarget) ++
  state.nonterminalEntries.entries.filterMap fun e => e.2.target

/-- `action_lists`, and the ids of the lists that have been added to it. -/
structure ActionListInterner where
  lists : List (List ParseAction)
  ids : IndexMap (List ParseAction) Nat

/-- `ActionListPool::intern`. -/
def ActionListInterner.intern (pool : ActionListInterner) (list : List ParseAction) :
    Nat × ActionListInterner :=
  match pool.ids.get? list with
  | some index => (index, pool)
  | none =>
    (pool.lists.length, ⟨pool.lists ++ [list], pool.ids.insert list pool.lists.length⟩)

section Rounds

variable (unitSymbol : Nat → Option Symbol)

def skipUnitReduction (target : Nat) (state : ParseState) : Nat :=
  match unitSymbol target with
  | none => target
  | some symbol => (state.gotoTarget symbol).getD target

/-- The loop over the terminal entries: the new entries, and whether one has changed. -/
def relinkEntries (state : ParseState) :
    List (Symbol × ActionListId) → ActionListInterner →
      Bool × List (Symbol × ActionListId) × ActionListInterner
  | [], pool => (false, [], pool)
  | (symbol, oldId) :: entries, pool =>
    let actions := pool.lists.getD oldId.index []
    let newActions := actions.map (.rename fun target => skipUnitReduction unitSymbol target state)
    if newActions = actions then
      let (changed, entries, pool) := relinkEntries state entries pool
      (changed, (symbol, oldId) :: entries, pool)
    else
      let (index, pool) := pool.intern newActions
      let (_, entries, pool) := relinkEntries state entries pool
      (true, (symbol, ⟨index, oldId.reusable⟩) :: entries, pool)

theorem relinkEntries_keys (state : ParseState) (entries : List (Symbol × ActionListId))
    (pool : ActionListInterner) :
    (relinkEntries unitSymbol state entries pool).2.1.map Prod.fst = entries.map Prod.fst := by
  induction entries generalizing pool with
  | nil => rfl
  | cons entry entries ih =>
    obtain ⟨symbol, oldId⟩ := entry
    simp only [relinkEntries]
    split
    · simp [ih]
    · simp [ih]

/-- The terminal entries of a state with one unit reduction skipped. -/
def relinkTerminals (state : ParseState) (pool : ActionListInterner) :
    Bool × ParseState × ActionListInterner :=
  ((relinkEntries unitSymbol state state.terminalEntries.entries pool).1, { state with
      terminalEntries :=
        ⟨(relinkEntries unitSymbol state state.terminalEntries.entries pool).2.1, by
          rw [relinkEntries_keys]
          exact state.terminalEntries.nodup⟩ },
    (relinkEntries unitSymbol state state.terminalEntries.entries pool).2.2)

/-- The body of the loop: whether it is done, and the state and the lists afterwards. It is not
done if there is a goto to a unit-reduction state, replaced or not. -/
def relinkRound (state : ParseState) (pool : ActionListInterner) :
    Bool × ParseState × ActionListInterner :=
  let skipped := state.nonterminalEntries.entries.any fun e =>
    (e.2.target.bind unitSymbol).isSome
  let state := state.updateNonterminalReferences (skipUnitReduction unitSymbol)
  let (changed, state, pool) := relinkTerminals unitSymbol state pool
  (!skipped && !changed, state, pool)

/-- `while !done`. -/
def relinkState : Nat → ParseState → ActionListInterner → Option (ParseState × ActionListInterner)
  | 0, _, _ => none
  | rounds + 1, state, pool =>
    let (done, state, pool) := relinkRound unitSymbol state pool
    if done then some (state, pool) else relinkState rounds state pool

/-- The loop over the states. -/
def relinkStates (rounds : Nat) :
    List ParseState → ActionListInterner → Option (List ParseState × ActionListInterner)
  | [], pool => some ([], pool)
  | state :: states, pool => do
    let (state, pool) ← relinkState unitSymbol rounds state pool
    let (states, pool) ← relinkStates rounds states pool
    some (state :: states, pool)

end Rounds

/-- `remove_unit_reductions`, with a bound on the rounds at each state. -/
def removeUnitReductions (ctx : UnitReductionContext) (rounds : Nat) (table : ParseTable) :
    Option ParseTable :=
  let unitSymbol := ctx.unitReductionSymbolAt table
  if (List.range table.states.length).all fun i => (unitSymbol i).isNone then some table
  else
    (relinkStates unitSymbol rounds table.states ⟨table.actionLists, .empty⟩).map
      fun (states, pool) => { table with states, actionLists := pool.lists }

end TreeSitter.Generate
