import TreeSitter.Generate.Grammars
import TreeSitter.Library.IndexMap

/-!
# TreeSitter.Generate.PrepareGrammar.ProcessInlines

`process_inlines.rs`: wherever a step of a production has an **inlined** symbol, the productions of
that symbol are put in its place. The results are kept under the production and the step, in the
`InlinedProductionMap`; productions are referred to by their ids, and new ones get the next ids.
Nothing bounds the loops of the source, so they have fuel here, and `none` says that it ran out.
-/

namespace TreeSitter.Generate

open Library

/-- `ProcessInlinesError`. -/
inductive ProcessInlinesError where
  | externalToken (name : String)
  | token (name : String)
  | firstRule (name : String)
  | noReachableProductions (name : String)

/-- The names of the symbols, for the errors. -/
structure SymbolNames where
  vars : List String
  lexicalVariables : List String
  externalTokens : List String

/-! ### Substitution -/

/-- What every inserted step takes from the removed one. -/
def overrideStep (removed step : ProductionStep) : ProductionStep :=
  { step with
    aliasAs := if removed.aliasAs.isSome then removed.aliasAs else step.aliasAs
    field := if removed.field.isSome then removed.field else step.field }

/-- What the last inserted step takes from the removed one. -/
def inheritStep (removed step : ProductionStep) : ProductionStep :=
  { step with
    precedence := if step.precedence = .none then removed.precedence else step.precedence
    associativity := if step.associativity.isNone then removed.associativity
                     else step.associativity }

/-- The steps of `p` in place of the removed one. -/
def insertedSteps (removed : ProductionStep) (p : Production) : List ProductionStep :=
  let inserted := p.steps.map (overrideStep removed)
  inserted.modify (inserted.length - 1) (inheritStep removed)

/-- `p` in place of the step at index `si`; `none` if `p` needs the end of the input and more steps
follow. -/
def substitute (removedProd : Production) (si : Nat) (removed : ProductionStep) (p : Production) :
    Option Production :=
  if p.requiresEofLookahead && si + 1 < removedProd.steps.length then none
  else some
    { steps := removedProd.steps.take si ++ insertedSteps removed p ++
        removedProd.steps.drop (si + 1)
      dynamicPrecedence := if absI32 p.dynamicPrecedence > absI32 removedProd.dynamicPrecedence
                           then p.dynamicPrecedence else removedProd.dynamicPrecedence
      requiresEofLookahead := removedProd.requiresEofLookahead || p.requiresEofLookahead }

section Builder

variable (store : ProductionStore) (inline : List Symbol)

/-- `var_prods`, for an inlined symbol. -/
def productionsOf (s : Symbol) : List Production := store[s.index]?.getD []

/-- The productions in place of one with an inlined symbol. -/
def replacements (removedProd : Production) (si : Nat) (removed : ProductionStep) :
    List Production :=
  (productionsOf store removed.symbol).filterMap (substitute removedProd si removed)

/-- The loop over `scratch`: what is before the index, and what is left. -/
def scratchLoop (si : Nat) : Nat → List Production → List Production → Option (List Production)
  | 0, _, _ => none
  | _ + 1, finished, [] => some finished
  | fuel + 1, finished, production :: scratch =>
    match production.steps[si]? with
    | none => scratchLoop si fuel (finished ++ [production]) scratch
    | some step =>
      if step.symbol ∈ inline then
        scratchLoop si fuel finished (replacements store production si step ++ scratch)
      else scratchLoop si fuel (finished ++ [production]) scratch

/-- `InlineBuilder`, with the productions that are already there. The ids in `memo` are found by
their production, since equal ones have the same hash. -/
structure InlineBuilder where
  productions : List Production
  map : IndexMap (Nat × Nat) (List Nat)
  memo : List Nat

namespace InlineBuilder

variable (b : InlineBuilder)

/-- `production_step_for_id`. -/
def productionStepForId (id step : Nat) : Option ProductionStep :=
  b.productions[id]?.bind fun p => p.steps[step]?

/-- The id of a production, which is a new one unless there is an equal one. -/
def storeProduction (p : Production) : Nat × InlineBuilder :=
  match b.memo.find? fun id => b.productions[id]? = some p with
  | some id => (id, b)
  | none => (b.productions.length,
    { b with productions := b.productions ++ [p], memo := b.memo ++ [b.productions.length] })

def storeProductions : InlineBuilder → List Production → List Nat × InlineBuilder
  | b, [] => ([], b)
  | b, p :: ps =>
    let (id, b) := b.storeProduction p
    let (ids, b) := storeProductions b ps
    (id :: ids, b)

end InlineBuilder

/-- `inline_production_at_step`. -/
def inlineProductionAtStep (fuel : Nat) (b : InlineBuilder) (id step : Nat) :
    Option (List Nat × InlineBuilder) :=
  match b.map.get? (id, step) with
  | some ids => some (ids, b)
  | none => do
    let src ← b.productions[id]?
    let scratch ← scratchLoop store inline step fuel [] [src]
    let (ids, b) := b.storeProductions scratch
    return (ids, { b with map := b.map.insert (id, step) ids })

/-- The loops over the worklist of a production: what is before the index, and what is left. A
round begins where the last one ended, until there is nothing left. -/
def worklistLoop : Nat → InlineBuilder → Bool → List (Nat × Nat) → List (Nat × Nat) →
    Option (InlineBuilder × Bool)
  | 0, _, _, _, _ => none
  | fuel + 1, b, survived, finished, [] =>
    if finished = [] then some (b, survived) else worklistLoop fuel b survived [] finished
  | fuel + 1, b, survived, finished, (id, step) :: worklist =>
    match b.productionStepForId id step with
    | none => worklistLoop fuel b true finished worklist
    | some s =>
      if s.symbol ∈ inline then
        match inlineProductionAtStep store inline fuel b id step with
        | none => none
        | some (ids, b) =>
          worklistLoop fuel b survived finished (ids.map (fun id => (id, step)) ++ worklist)
      else worklistLoop fuel b survived (finished ++ [(id, step + 1)]) worklist

/-- One turn of the loop over the productions, with those that did not survive. -/
def buildProduction (fuel : Nat) (state : InlineBuilder × List Nat) (id : Nat) :
    Option (InlineBuilder × List Nat) := do
  let (b, survived) ← worklistLoop store inline fuel state.1 false [] [(id, 0)]
  return (b, if survived then state.2 else state.2 ++ [id])

/-- `build`. -/
def buildInlines (fuel : Nat) : Option (InlineBuilder × List Nat) :=
  (List.range store.flatten.length).foldlM (buildProduction store inline fuel)
    (⟨store.flatten, ⟨[], List.nodup_nil⟩, []⟩, [])

def checkInlined (names : SymbolNames) (s : Symbol) : Except ProcessInlinesError Unit :=
  match s.kind with
  | .external => .error (.externalToken (names.externalTokens[s.index]?.getD ""))
  | .terminal => .error (.token (names.lexicalVariables[s.index]?.getD ""))
  | .nonTerminal =>
    if s.index = 0 then .error (.firstRule (names.vars[0]?.getD "")) else .ok ()
  | .endOfFile => .ok ()
  | .endOfNonTerminalExtra => .ok ()

/-- The id of the first production of a variable. -/
def prodStart (i : Nat) : Nat := (store.take i).flatten.length

/-- Every production of the variable at index `i`, if there is any, has only expansions that were
dropped, and the variable is used. -/
def Unreachable (b : InlineBuilder) (dead : List Nat) (i : Nat) (ps : List Production) : Prop :=
  ps ≠ [] ∧ (∀ j < ps.length, prodStart store i + j ∈ dead) ∧
    (i = 0 ∨ ∃ p ∈ b.productions, ∃ step ∈ p.steps, step.symbol = .nonTerminal i)

instance (b : InlineBuilder) (dead : List Nat) (i : Nat) (ps : List Production) :
    Decidable (Unreachable store b dead i ps) :=
  inferInstanceAs (Decidable (_ ∧ _ ∧ _))

/-- The checks behind `build`. -/
def checkReachable (names : SymbolNames) (b : InlineBuilder) (dead : List Nat) :
    Except ProcessInlinesError Unit :=
  store.zipIdx.forM fun entry =>
    if Unreachable store b dead entry.2 entry.1 then
      .error (.noReachableProductions (names.vars[entry.2]?.getD ""))
    else .ok ()

/-- `process_inlines`: the productions, and which of them stand for others. -/
def processInlines (fuel : Nat) (names : SymbolNames) :
    Option (Except ProcessInlinesError (List Production × IndexMap (Nat × Nat) (List Nat))) :=
  if inline = [] then some (.ok (store.flatten, ⟨[], List.nodup_nil⟩))
  else
    match inline.forM (checkInlined names) with
    | .error e => some (.error e)
    | .ok () => do
      let (b, dead) ← buildInlines store inline fuel
      return (checkReachable store names b dead).map fun _ => (b.productions, b.map)

end Builder

end TreeSitter.Generate
