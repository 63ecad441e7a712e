import TreeSitter.Generate.Grammars
import TreeSitter.Library.ChoiceCursor

/-!
# TreeSitter.Generate.PrepareGrammar.FlattenGrammar

`flatten_grammar.rs`: the rule of a variable becomes **productions**, one for each way to decide
the choices of the rule. A walk over the rule asks a cursor at each choice, and the cursor is
advanced until every path has been walked; `TreeSitter.Library.ChoiceCursor` has walks and
cursors. An empty choice makes a path **dead**.
-/

namespace TreeSitter.Generate

open Library

/-- `FlattenGrammarError`. -/
inductive FlattenGrammarError where
  | noReservedWordSet (name : String)
  | tooManyReservedWordSets (count : Nat)
  | emptyString (rule : String)
  | recursiveInline (rule : String)
  | noReachableProductions (rule : String)

/-- `FlattenCtx`. -/
structure FlattenCtx where
  prec : Precedence := .none
  assoc : Option Associativity := none
  aliasAs : Option Alias := none
  field : Option String := none
  reserved : Nat := 0

/-- `FlattenState`, less the cursor. -/
structure FlattenState where
  steps : List ProductionStep := []
  dynPrec : Int := 0
  dead : Bool := false

namespace FlattenState

/-- `push_step`. -/
def pushStep (st : FlattenState) (s : Symbol) (ctx : FlattenCtx) : FlattenState :=
  { st with steps := st.steps ++ [⟨s, ctx.prec, ctx.assoc, ctx.aliasAs, ctx.field, ctx.reserved⟩] }

def modifyLast (st : FlattenState) (f : ProductionStep → ProductionStep) : FlattenState :=
  { st with steps := st.steps.modify (st.steps.length - 1) f }

/-- `restore_outer_prec`. -/
def restoreOuterPrec (st : FlattenState) (outer : Precedence) : FlattenState :=
  st.modifyLast fun step => { step with precedence := outer }

/-- `restore_outer_assoc`. -/
def restoreOuterAssoc (st : FlattenState) (outer : Option Associativity) : FlattenState :=
  st.modifyLast fun step => { step with associativity := outer }

end FlattenState

/-- The context inside of `Metadata`. -/
def FlattenCtx.inner (ctx : FlattenCtx) (params : MetadataParams) : FlattenCtx :=
  { ctx with
    prec := if params.precedence ≠ .none then params.precedence else ctx.prec
    assoc := if params.associativity.isSome then params.associativity else ctx.assoc
    aliasAs := if params.aliasAs.isSome then params.aliasAs else ctx.aliasAs
    field := if params.field.isSome then params.field else ctx.field }

/-- What is undone behind `Metadata`, where more steps follow. -/
def restoreOuter (params : MetadataParams) (ctx : FlattenCtx) (atEnd : Bool)
    (result : Bool × FlattenState) : Bool × FlattenState :=
  if result.1 && !atEnd then
    let st := if params.precedence ≠ .none then result.2.restoreOuterPrec ctx.prec else result.2
    (result.1, if params.associativity.isSome then st.restoreOuterAssoc ctx.assoc else st)
  else result

/-- A walk that may fail, and what follows it. -/
abbrev FlattenWalk := Walk (Except FlattenGrammarError (Bool × FlattenState))

/-- `?`, with what follows. -/
def FlattenWalk.andThen (w : FlattenWalk) (k : Bool × FlattenState → FlattenWalk) : FlattenWalk :=
  w.bind fun
    | .ok result => k result
    | .error e => .done (.error e)

mutual

/-- `apply`. -/
def applyRule (reservedIds : String → Option Nat) :
    Rule → FlattenCtx → Bool → FlattenState → FlattenWalk
  | .sym s, ctx, _, st => .done (.ok (true, st.pushStep s ctx))
  | .seq es, ctx, atEnd, st => applySeq reservedIds es ctx atEnd false st
  | .choice es, ctx, atEnd, st =>
    if es.isEmpty then .done (.ok (false, { st with dead := true }))
    else .select es.length fun selected => applyNth reservedIds es selected ctx atEnd st
  | .eof, ctx, _, st => .done (.ok (true, st.pushStep .eof ctx))
  | .metadata params r, ctx, atEnd, st =>
    (applyRule reservedIds r (ctx.inner params) atEnd
      { st with dynPrec := if absI32 params.dynamicPrecedence > absI32 st.dynPrec
                           then params.dynamicPrecedence else st.dynPrec }).andThen
      fun result => .done (.ok (restoreOuter params ctx atEnd result))
  | .reserved r name, ctx, atEnd, st =>
    match reservedIds name with
    | none => .done (.error (.noReservedWordSet name))
    | some id => applyRule reservedIds r { ctx with reserved := id } atEnd st
  | .blank, _, _, st | .string _, _, _, st | .pattern _ _, _, _, st | .namedSymbol _, _, _, st
  | .repeat _, _, _, st => .done (.ok (false, st))

/-- The loop over the children of a sequence, which ends where the path is dead. -/
def applySeq (reservedIds : String → Option Nat) :
    List Rule → FlattenCtx → Bool → Bool → FlattenState → FlattenWalk
  | [], _, _, didPush, st => .done (.ok (didPush, st))
  | e :: es, ctx, atEnd, didPush, st =>
    (applyRule reservedIds e ctx (atEnd && es.isEmpty) st).andThen fun result =>
      if result.2.dead then .done (.ok (didPush || result.1, result.2))
      else applySeq reservedIds es ctx atEnd (didPush || result.1) result.2

/-- The selected child of a choice. -/
def applyNth (reservedIds : String → Option Nat) :
    List Rule → Nat → FlattenCtx → Bool → FlattenState → FlattenWalk
  | [], _, _, _, st => .done (.ok (false, st))
  | e :: _, 0, ctx, atEnd, st => applyRule reservedIds e ctx atEnd st
  | _ :: es, i + 1, ctx, atEnd, st => applyNth reservedIds es i ctx atEnd st

end

/-- `emit_ready`, on the productions of the variable so far. -/
def emitReady (productions : List Production) (p : Production) : List Production :=
  if p ∈ productions then productions else productions ++ [p]

/-- `emit`; `none` if the path has `eof()` anywhere but in its last step. -/
def emit (productions : List Production) (st : FlattenState) : Option (List Production) :=
  match st.steps.findIdx? fun step => step.symbol = .eof with
  | none => some (emitReady productions ⟨st.steps, st.dynPrec, false⟩)
  | some eofIndex =>
    if eofIndex ≠ st.steps.length - 1 then none
    else some (emitReady productions ⟨st.steps.dropLast, st.dynPrec, true⟩)

/-- The productions of a variable, and whether a path was dropped. -/
structure Flattened where
  productions : List Production := []
  droppedForEof : Bool := false

/-- One turn of the loop over the paths of a variable. -/
def flattenPath (out : Flattened) (result : Except FlattenGrammarError (Bool × FlattenState)) :
    Except FlattenGrammarError Flattened := do
  let (_, st) ← result
  if st.dead then return out
  else
    match emit out.productions st with
    | some productions => return { out with productions }
    | none => return { out with droppedForEof := true }

/-- The loop over the paths of a variable. -/
def flattenVariable (reservedIds : String → Option Nat) (v : Variable) :
    Except FlattenGrammarError (List Production) := do
  let walk := applyRule reservedIds v.root {} true {}
  let out ← Walk.forEach flattenPath walk walk.leaves.length [] {}
  if out.droppedForEof && out.productions.isEmpty then
    .error (.noReachableProductions v.name)
  else return out.productions

/-- `check`, for one production of the variable at index `i`. -/
def checkProduction (g : InputGrammar) (out : ProductionStore) (i : Nat) (name : String)
    (p : Production) : Except FlattenGrammarError Unit :=
  if out.steps.any (fun s => s.symbol = .nonTerminal i) && p.steps.isEmpty &&
      !p.requiresEofLookahead then .error (.emptyString name)
  else if g.inline.contains (.nonTerminal i) &&
      p.steps.any (fun s => s.symbol = .nonTerminal i) then .error (.recursiveInline name)
  else .ok ()

/-- `check`. -/
def checkProductions (g : InputGrammar) (out : ProductionStore) :
    Except FlattenGrammarError Unit :=
  (g.vars.zip out).zipIdx.forM fun entry =>
    entry.1.2.forM (checkProduction g out entry.2 entry.1.1.name)

/-- `reserved_ids`: the last of several sets with one name. -/
def reservedId (reservedSets : List String) (name : String) : Option Nat :=
  (reservedSets.zipIdx.reverse.find? fun entry => entry.1 = name).map Prod.snd

/-- `flatten_grammar`. -/
def flattenGrammar (g : InputGrammar) (reservedSets : List String) :
    Except FlattenGrammarError ProductionStore := do
  if reservedSets.length > 2 ^ 16 - 1 then
    .error (.tooManyReservedWordSets reservedSets.length)
  else
    let out ← g.vars.mapM (flattenVariable (reservedId reservedSets))
    checkProductions g out
    return out

end TreeSitter.Generate
