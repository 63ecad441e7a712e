import TreeSitter.Generate.Grammars
import TreeSitter.Generate.Tables
import TreeSitter.Library.Worklist

/-!
# TreeSitter.Generate.BuildTables.ItemSetBuilder

`item_set_builder.rs`: the **closure** of an item set. For each non-terminal, the items that its
expansion adds to a set are computed in advance, together with the tokens that can follow them and
whether the tokens behind the non-terminal itself can. Items are compared by what matters for the
parse table (`item.rs`). Lookahead sets are interned in the source; here they are sets.
-/

namespace TreeSitter.Generate

open Library

/-! ### Grammars -/

/-- `SyntaxGrammar`, of what the builder reads. -/
structure SyntaxGrammar where
  /-- The productions of all variables, and those that stand for others. -/
  productions : List Production
  /-- The ids of the productions of each variable, from the first to behind the last. -/
  varProds : List (Nat × Nat)
  variablesToInline : List Symbol := []
  wordToken : Option Symbol := none
  /-- `lexical_grammar.variables.len()` -/
  nTerminals : Nat
  /-- `external_tokens.len()` -/
  nExternals : Nat := 0
  /-- `InlinedProductionMap` -/
  inlines : IndexMap (Nat × Nat) (List Nat) := .empty

/-- `START_PRODUCTION_ID`. -/
def startProductionId : Nat := 2 ^ 32 - 1

/-- `start_production`. -/
def startProduction : Production where
  steps := [{ symbol := .nonTerminal 0, reserved := 2 ^ 16 - 1 }]

namespace SyntaxGrammar

variable (g : SyntaxGrammar)

/-- `variable_prod_ids`. -/
def variableProdIds (i : Nat) : List Nat :=
  match g.varProds[i]? with
  | some (start, stop) => List.range' start (stop - start)
  | none => []

/-- The production with an id. The source panics if there is none. -/
def production (id : Nat) : Production :=
  if id = startProductionId then startProduction else (g.productions[id]?).getD { steps := [] }

end SyntaxGrammar

/-! ### Items -/

/-- `ParseItem`. -/
structure ParseItem where
  variableIndex : Nat
  stepIndex : Nat
  prodId : Nat
  hasPrecedingInheritedFields : Bool := false
deriving DecidableEq

/-- What items are compared by: of the steps before the dot, their aliases and fields, and their
symbols if some of them have fields. -/
structure ItemKey where
  variableIndex : Nat
  stepIndex : Nat
  dynamicPrecedence : Int
  requiresEofLookahead : Bool
  precedence : Precedence
  associativity : Option Associativity
  matched : List (Option Alias × Option String)
  matchedSymbols : Option (List Symbol)
  remaining : List ProductionStep
deriving DecidableEq

namespace ParseItem

variable (g : SyntaxGrammar) (item : ParseItem)

/-- `ParseItem::step`. -/
def step : Option ProductionStep := (g.production item.prodId).steps[item.stepIndex]?

/-- `ParseItem::successor`. -/
def successor : ParseItem := { item with stepIndex := item.stepIndex + 1 }

/-- `ParseItem::substitute_production`. -/
def substituteProduction (id : Nat) : ParseItem := { item with prodId := id }

/-- The step before the dot. -/
def prevStep : Option ProductionStep :=
  if item.stepIndex > 0 then (g.production item.prodId).steps[item.stepIndex - 1]? else none

/-- The `ItemContent` of an item, and what its `PartialEq` reads besides. -/
def key : ItemKey :=
  let p := g.production item.prodId
  { variableIndex := item.variableIndex
    stepIndex := item.stepIndex
    dynamicPrecedence := p.dynamicPrecedence
    requiresEofLookahead := p.requiresEofLookahead
    precedence := ((item.prevStep g).map ProductionStep.precedence).getD .none
    associativity := (item.prevStep g).bind ProductionStep.associativity
    matched := (p.steps.take item.stepIndex).map fun s => (s.aliasAs, s.field)
    matchedSymbols := if item.hasPrecedingInheritedFields then
        some ((p.steps.take item.stepIndex).map ProductionStep.symbol) else none
    remaining := p.steps.drop item.stepIndex }

end ParseItem

/-- `ParseItemSetEntry`. -/
structure ParseItemSetEntry where
  item : ParseItem
  lookaheads : TokenSet := ∅
  followingReservedWordSet : Nat := 0

/-- `ParseItemSet`: the entries by the keys of their items. -/
abbrev ParseItemSet := IndexMap ItemKey ParseItemSetEntry

/-- The entry of an item, which `insert` puts there if it is missing, is changed. -/
def updateEntry (g : SyntaxGrammar) (set : ParseItemSet) (item : ParseItem)
    (f : ParseItemSetEntry → ParseItemSetEntry) : ParseItemSet :=
  set.insert (item.key g) (f ((set.get? (item.key g)).getD { item := item }))

/-! ### First sets -/

/-- What the loop over `symbols_to_process` has found. -/
structure FirstSetState where
  processed : List Symbol := []
  firstSet : TokenSet := ∅
  reservedFirstSet : Nat := 0

/-- One production of a symbol that is processed, and the stack. -/
def firstSetProduction (state : FirstSetState × List Symbol) (p : Production) :
    FirstSetState × List Symbol :=
  match p.steps.head? with
  | none => state
  | some step =>
    let reserved := max state.1.reservedFirstSet step.reserved
    if step.symbol.isTerminal || step.symbol.isExternal then
      ({ state.1 with
          firstSet := insert step.symbol state.1.firstSet, reservedFirstSet := reserved }, state.2)
    else if step.symbol ∈ state.1.processed then
      ({ state.1 with reservedFirstSet := reserved }, state.2)
    else
      ({ state.1 with
          processed := step.symbol :: state.1.processed, reservedFirstSet := reserved },
        step.symbol :: state.2)

/-- A turn of the loop over `symbols_to_process`. -/
def processFirst (g : SyntaxGrammar) (state : FirstSetState) (sym : Symbol) :
    FirstSetState × List Symbol :=
  (g.variableProdIds sym.index).foldl (fun s id => firstSetProduction s (g.production id))
    (state, [])

def firstSetOf (fuel : Nat) (g : SyntaxGrammar) (i : Nat) : Option FirstSetState :=
  runWorklist (processFirst g) fuel {} [.nonTerminal i]

/-- `first_sets` and `reserved_first_sets`. -/
structure FirstSets where
  variableSets : List FirstSetState

/-- The first set of a symbol. The source panics at a symbol that the grammar does not have. -/
def FirstSets.firstSet (g : SyntaxGrammar) (sets : FirstSets) (s : Symbol) : TokenSet :=
  match s.kind with
  | .terminal => if s.index < g.nTerminals then {s} else ∅
  | .external => if s.index < g.nExternals then {s} else ∅
  | .nonTerminal => ((sets.variableSets[s.index]?).map FirstSetState.firstSet).getD ∅
  | _ => ∅

def FirstSets.reservedFirstSet (sets : FirstSets) (s : Symbol) : Nat :=
  match s.kind with
  | .nonTerminal => ((sets.variableSets[s.index]?).map FirstSetState.reservedFirstSet).getD 0
  | _ => 0

/-! ### Follow sets -/

/-- `FollowSetInfo`. -/
structure FollowSetInfo where
  lookaheads : TokenSet := ∅
  reservedLookaheads : Nat := 0
  propagatesLookaheads : Bool := false

/-- The children of a task: what is pushed for a production. -/
def followProduction (g : SyntaxGrammar) (sets : FirstSets) (info : FollowSetInfo)
    (p : Production) : Option (Nat × FollowSetInfo) :=
  match p.steps with
  | [] => none
  | step :: rest =>
    if step.symbol.isNonTerminal then
      match rest with
      | next :: _ => some (step.symbol.index,
          { lookaheads := sets.firstSet g next.symbol
            reservedLookaheads := sets.reservedFirstSet next.symbol })
      | [] =>
        if p.requiresEofLookahead then some (step.symbol.index, { lookaheads := {Symbol.eof} })
        else some (step.symbol.index, info)
    else none

/-- What is known of a non-terminal, with what a task adds. -/
def FollowSetInfo.join (old task : FollowSetInfo) : FollowSetInfo where
  lookaheads := old.lookaheads ∪ task.lookaheads
  reservedLookaheads := max old.reservedLookaheads task.reservedLookaheads
  propagatesLookaheads := old.propagatesLookaheads || task.propagatesLookaheads

/-- A turn of the loop over `stack`. A task that adds nothing pushes nothing. -/
def processFollow (g : SyntaxGrammar) (sets : FirstSets) (infos : IndexMap Nat FollowSetInfo)
    (task : Nat × FollowSetInfo) : IndexMap Nat FollowSetInfo × List (Nat × FollowSetInfo) :=
  let old := (infos.get? task.1).getD {}
  let didAdd := decide (¬ task.2.lookaheads ⊆ old.lookaheads) ||
    decide (task.2.reservedLookaheads > old.reservedLookaheads) ||
    (task.2.propagatesLookaheads && !old.propagatesLookaheads)
  (infos.insert task.1 (old.join task.2),
    if didAdd then
      ((g.variableProdIds task.1).filterMap fun id =>
        followProduction g sets task.2 (g.production id)).reverse
    else [])

/-- `follow_set_info_by_non_terminal` for a variable. -/
def followSets (fuel : Nat) (g : SyntaxGrammar) (sets : FirstSets) (i : Nat) :
    Option (IndexMap Nat FollowSetInfo) :=
  runWorklist (processFollow g sets) fuel .empty
    [(i, { propagatesLookaheads := true })]

/-! ### Additions -/

/-- `AdditionInfo`. -/
structure AdditionInfo where
  lookaheads : TokenSet
  reservedLookaheads : Nat
  propagatesLookaheads : Bool
  containsWord : Bool
deriving DecidableEq

/-- `TransitiveClosureAddition`. -/
structure TransitiveClosureAddition where
  item : ParseItem
  info : AdditionInfo

/-- `find_or_push`. -/
def findOrPush (g : SyntaxGrammar) (additions : List TransitiveClosureAddition)
    (addition : TransitiveClosureAddition) : List TransitiveClosureAddition :=
  if additions.any fun a => a.item.key g = addition.item.key g ∧ a.info = addition.info then additions
  else additions ++ [addition]

/-- The info for an item of a production, which may need the end of the input behind it. -/
def itemInfo (g : SyntaxGrammar) (info : AdditionInfo) (id : Nat) : AdditionInfo :=
  if (g.production id).requiresEofLookahead then ⟨{Symbol.eof}, 0, false, false⟩ else info

def productionAdditions (g : SyntaxGrammar) (info : AdditionInfo) (i id : Nat) :
    List TransitiveClosureAddition :=
  let item : ParseItem := { variableIndex := i, stepIndex := 0, prodId := id }
  match g.inlines.get? (item.prodId, item.stepIndex) with
  | some ids => ids.map fun id => ⟨item.substituteProduction id, itemInfo g info id⟩
  | none => [⟨item, itemInfo g info id⟩]

def FollowSetInfo.additionInfo (g : SyntaxGrammar) (info : FollowSetInfo) : AdditionInfo where
  lookaheads := info.lookaheads
  reservedLookaheads := info.reservedLookaheads
  propagatesLookaheads := info.propagatesLookaheads
  containsWord := g.wordToken.any (· ∈ info.lookaheads)

/-- The additions of a non-terminal with what can follow it. -/
def variableAdditions (g : SyntaxGrammar) (entry : Nat × FollowSetInfo) :
    List TransitiveClosureAddition :=
  if Symbol.nonTerminal entry.1 ∈ g.variablesToInline then []
  else (g.variableProdIds entry.1).flatMap
    (productionAdditions g (entry.2.additionInfo g) entry.1)

/-- `ParseItemSetBuilder`. -/
structure ParseItemSetBuilder where
  firstSets : FirstSets
  transitiveClosureAdditions : List (List TransitiveClosureAddition)

/-- `ParseItemSetBuilder::new`; `none` if the fuel ran out. -/
def ParseItemSetBuilder.new (fuel : Nat) (g : SyntaxGrammar) : Option ParseItemSetBuilder := do
  let variableSets ← (List.range g.varProds.length).mapM (firstSetOf fuel g)
  let sets : FirstSets := ⟨variableSets⟩
  let infos ← (List.range g.varProds.length).mapM (followSets fuel g sets)
  return ⟨sets, infos.map fun m =>
    (m.entries.flatMap (variableAdditions g)).foldl (findOrPush g) []⟩

namespace ParseItemSetBuilder

variable (g : SyntaxGrammar) (b : ParseItemSetBuilder)

/-! ### The closure -/

/-- What an addition does to the entry of its item. -/
def applyAddition (info : AdditionInfo) (followingTokens : TokenSet)
    (followingReservedTokens : Nat) (e : ParseItemSetEntry) : ParseItemSetEntry :=
  let e := { e with lookaheads := e.lookaheads ∪ info.lookaheads }
  let e := if info.containsWord then
    { e with followingReservedWordSet := max e.followingReservedWordSet info.reservedLookaheads }
    else e
  if info.propagatesLookaheads then
    let e := { e with lookaheads := e.lookaheads ∪ followingTokens }
    if g.wordToken.any (· ∈ followingTokens) then
      { e with followingReservedWordSet := max e.followingReservedWordSet followingReservedTokens }
    else e
  else e

/-- The tokens that can follow the non-terminal behind the dot of an entry. -/
def followingTokens (entry : ParseItemSetEntry) : TokenSet × Nat :=
  match entry.item.successor.step g with
  | some next => (b.firstSets.firstSet g next.symbol, b.firstSets.reservedFirstSet next.symbol)
  | none => (entry.lookaheads, entry.followingReservedWordSet)

/-- `add_item`. -/
def addItem (set : ParseItemSet) (entry : ParseItemSetEntry) : ParseItemSet :=
  let set := match entry.item.step g with
    | some step =>
      if step.symbol.isNonTerminal then
        let following := followingTokens g b entry
        ((b.transitiveClosureAdditions[step.symbol.index]?).getD []).foldl (fun set addition =>
          updateEntry g set addition.item (applyAddition g addition.info following.1 following.2)) set
      else set
    | none => set
  updateEntry g set entry.item fun e =>
    { e with
      lookaheads := e.lookaheads ∪ entry.lookaheads
      followingReservedWordSet := max e.followingReservedWordSet entry.followingReservedWordSet }

def inlinedEntries (entry : ParseItemSetEntry) : List ParseItemSetEntry :=
  match g.inlines.get? (entry.item.prodId, entry.item.stepIndex) with
  | some ids => ids.map fun id => { entry with item := entry.item.substituteProduction id }
  | none => [entry]

/-- `transitive_closure`. -/
def transitiveClosure (itemSet : ParseItemSet) : ParseItemSet :=
  ((itemSet.entries.map Prod.snd).flatMap (inlinedEntries g)).foldl (addItem g b)
    .empty

end ParseItemSetBuilder

end TreeSitter.Generate
