import TreeSitter.Generate.Rules
import TreeSitter.Generate.CharacterSetOps
import TreeSitter.Library.IndexMap

/-!
# TreeSitter.Generate.Tables

The **parse table** and the **lex table** of `tables.rs`. Terminal entries refer to
action lists by their index in a shared pool; the pool is the list of those lists.
-/

namespace TreeSitter.Generate

open Library

/-- `TokenSet`: the source's bit vectors as the set of tokens they stand for. -/
abbrev TokenSet := Finset Symbol

/-! ### Parse tables -/

/-- `ParseAction`. -/
inductive ParseAction where
  | accept
  | shift (state : Nat) (isRepetition : Bool)
  | shiftExtra
  | recover
  | reduce (symbol : Symbol) (childCount : Nat) (dynamicPrecedence : Int) (productionId : Nat)
deriving DecidableEq

/-- `GotoAction`. -/
inductive GotoAction where
  | goto (state : Nat)
  | shiftExtra
deriving DecidableEq

/-- `ActionListId`: an index into the pool and the flag packed beside it. -/
structure ActionListId where
  index : Nat
  reusable : Bool
deriving DecidableEq

/-- `ParseState`. -/
structure ParseState where
  id : Nat
  terminalEntries : IndexMap Symbol ActionListId
  nonterminalEntries : IndexMap Symbol GotoAction
  reservedWords : TokenSet := ∅
  lexStateId : Nat := 0
  externalLexStateId : Nat := 0
  coreId : Nat := 0
  hasEofGatedReduce : Bool := false

/-- `ParseTable`, less the parts that no modelled pass reads. -/
structure ParseTable where
  states : List ParseState
  actionLists : List (List ParseAction)
  symbols : List Symbol := []

/-- `ActionListPool::get`. -/
def ParseTable.actions (table : ParseTable) (id : ActionListId) : List ParseAction :=
  table.actionLists.getD id.index []

/-- Rename the target of a shift. -/
def ParseAction.rename (f : Nat → Nat) : ParseAction → ParseAction
  | .shift state isRepetition => .shift (f state) isRepetition
  | action => action

def GotoAction.rename (f : Nat → Nat) : GotoAction → GotoAction
  | .goto state => .goto (f state)
  | .shiftExtra => .shiftExtra

/-- `update_nonterminal_references`: a goto whose target changes is inserted again at
its own key, so the order of the entries stays. -/
def ParseState.updateNonterminalReferences (state : ParseState)
    (f : Nat → ParseState → Nat) : ParseState :=
  { state with
    nonterminalEntries := state.nonterminalEntries.mapValues (·.rename fun s => f s state) }

/-- Whether some state refers to a list of the pool (`remap_scratch`). -/
def ParseTable.isReferenced (table : ParseTable) (index : Nat) : Bool :=
  table.states.any fun state => state.terminalEntries.entries.any fun e => e.2.index == index

/-- `remap_terminal_references`: only lists that some state refers to are touched. -/
def ParseTable.remapTerminalReferences (table : ParseTable) (f : Nat → Nat) : ParseTable :=
  { table with
    actionLists := table.actionLists.mapIdx fun index actions =>
      if table.isReferenced index then actions.map (ParseAction.rename f) else actions }

theorem ParseTable.actions_remapTerminalReferences (table : ParseTable) (f : Nat → Nat)
    {id : ActionListId} (h : table.isReferenced id.index = true) :
    (table.remapTerminalReferences f).actions id =
      (table.actions id).map (ParseAction.rename f) := by
  simp only [actions, remapTerminalReferences, List.getD_eq_getElem?_getD, List.getElem?_mapIdx]
  cases table.actionLists[id.index]? with
  | none => rfl
  | some actions => simp [h]

/-! ### Lex tables -/

/-- `AdvanceAction`. -/
structure AdvanceAction where
  state : Nat
  inMainToken : Bool
deriving DecidableEq

/-- `LexState`. -/
structure LexState where
  acceptAction : Option Symbol := none
  eofAction : Option AdvanceAction := none
  advanceActions : List (CharacterSet × AdvanceAction) := []

/-- `LexTable`. -/
structure LexTable where
  states : List LexState := []

end TreeSitter.Generate
