import TreeSitter.Generate.PrepareGrammar.FlattenGrammarSound

/-!
# TreeSitter.Generate.PrepareGrammar.ResolveChoices

What the choices of a rule have to do with its productions. To **resolve** a rule is to put the
selected alternative in the place of each choice that is reached; a walk over the rule resolves
it and flattens what comes of it (`applyRule_eq_bind`). The loop over the paths of a variable,
with the cursor of the source, ends and leaves one production for each different result
(`flattenVariableLoop_resolutions`).
-/

namespace TreeSitter.Generate

open List Library

/-! ### Resolved rules -/

mutual

/-- A walk over the rule ends inside of it: at an empty choice, or at a set of reserved words
that is not declared. -/
def Rule.stops (reservedIds : String → Option Nat) : Rule → Bool
  | .choice es => es.isEmpty
  | .seq es => stopsAny reservedIds es
  | .metadata _ r => r.stops reservedIds
  | .reserved r name => (reservedIds name).isNone || r.stops reservedIds
  | .sym _ | .eof | .blank | .string _ | .pattern _ _ | .namedSymbol _ | .repeat _ => false

def stopsAny (reservedIds : String → Option Nat) : List Rule → Bool
  | [] => false
  | e :: es => e.stops reservedIds || stopsAny reservedIds es

end

mutual

/-- **A rule with each choice that is reached replaced by one of its alternatives.** What stands
behind the end of a walk is not reached. -/
def resolve (reservedIds : String → Option Nat) : Rule → Walk Rule
  | .choice es =>
    if es.isEmpty then .done (.choice [])
    else .select es.length fun selected => resolveNth reservedIds es selected
  | .seq es => (resolveSeq reservedIds es).bind fun es => .done (.seq es)
  | .metadata params r => (resolve reservedIds r).bind fun r => .done (.metadata params r)
  | .reserved r name =>
    if (reservedIds name).isNone then .done (.reserved .blank name)
    else (resolve reservedIds r).bind fun r => .done (.reserved r name)
  | .sym s => .done (.sym s)
  | .eof => .done .eof
  | .blank => .done .blank
  | .string value => .done (.string value)
  | .pattern value flags => .done (.pattern value flags)
  | .namedSymbol name => .done (.namedSymbol name)
  | .repeat r => .done (.repeat r)

def resolveSeq (reservedIds : String → Option Nat) : List Rule → Walk (List Rule)
  | [] => .done []
  | e :: es => (resolve reservedIds e).bind fun e =>
    if e.stops reservedIds then .done (e :: es.map fun _ => .blank)
    else (resolveSeq reservedIds es).bind fun es => .done (e :: es)

def resolveNth (reservedIds : String → Option Nat) : List Rule → Nat → Walk Rule
  | [], _ => .done .blank
  | e :: _, 0 => resolve reservedIds e
  | _ :: es, i + 1 => resolveNth reservedIds es i

end

mutual

/-- No choice is left but empty ones. -/
def Rule.Resolved : Rule → Prop
  | .choice es => es = []
  | .seq es => ResolvedAll es
  | .metadata _ r | .reserved r _ => r.Resolved
  | .sym _ | .eof | .blank | .string _ | .pattern _ _ | .namedSymbol _ | .repeat _ => True

def ResolvedAll : List Rule → Prop
  | [] => True
  | e :: es => e.Resolved ∧ ResolvedAll es

end

theorem resolvedAll_blanks (es : List Rule) : ResolvedAll (es.map fun _ => .blank) := by
  induction es with
  | nil => trivial
  | cons e es ih => exact ⟨trivial, ih⟩

mutual

theorem resolve_resolved (ids : String → Option Nat) : ∀ r : Rule,
    (resolve ids r).All Rule.Resolved
  | .choice es => by
    rw [resolve]
    split
    · rfl
    · exact fun i => resolveNth_resolved ids es i
  | .seq es => by
    rw [resolve]
    exact ((resolveSeq_resolved ids es).imp fun es h => h.1).bind fun es h => h
  | .metadata params r => by
    rw [resolve]
    exact (resolve_resolved ids r).bind fun r h => h
  | .reserved r name => by
    rw [resolve]
    split
    · trivial
    · exact (resolve_resolved ids r).bind fun r h => h
  | .sym _ | .eof | .blank | .string _ | .pattern _ _ | .namedSymbol _ | .repeat _ => trivial

theorem resolveSeq_resolved (ids : String → Option Nat) : ∀ es : List Rule,
    (resolveSeq ids es).All fun es' => ResolvedAll es' ∧ es'.isEmpty = es.isEmpty
  | [] => ⟨trivial, rfl⟩
  | e :: es => by
    rw [resolveSeq]
    refine (resolve_resolved ids e).bind fun e' he' => ?_
    split
    · exact ⟨⟨he', resolvedAll_blanks es⟩, rfl⟩
    · exact (resolveSeq_resolved ids es).bind fun es' hes' => ⟨⟨he', hes'.1⟩, rfl⟩

theorem resolveNth_resolved (ids : String → Option Nat) : ∀ (es : List Rule) (i : Nat),
    (resolveNth ids es i).All Rule.Resolved
  | [], _ => trivial
  | e :: _, 0 => resolve_resolved ids e
  | _ :: es, i + 1 => resolveNth_resolved ids es i

end

/-! ### A walk over a resolved rule -/

/-- The state inside of `Metadata`. -/
def FlattenState.inner (st : FlattenState) (params : MetadataParams) : FlattenState :=
  { st with dynPrec := if absI32 params.dynamicPrecedence > absI32 st.dynPrec
                       then params.dynamicPrecedence else st.dynPrec }

theorem FlattenState.dead_empty : ({} : FlattenState).dead = false := rfl

theorem FlattenState.dead_inner {st : FlattenState} (params : MetadataParams)
    (h : st.dead = false) : (st.inner params).dead = false := h

theorem applyRule_metadata (ids : String → Option Nat) (params : MetadataParams) (r : Rule)
    (ctx : FlattenCtx) (atEnd : Bool) (st : FlattenState) :
    applyRule ids (.metadata params r) ctx atEnd st =
      (applyRule ids r (ctx.inner params) atEnd (st.inner params)).andThen fun result =>
        .done (.ok (restoreOuter params ctx atEnd result)) := by
  rw [applyRule]
  rfl

/-- The walk ended inside of the rule. -/
def stopped : Except FlattenGrammarError (Bool × FlattenState) → Bool
  | .ok (_, st) => st.dead
  | .error _ => true

theorem stopped_ok (result : Bool × FlattenState) : stopped (.ok result) = result.2.dead := rfl

theorem stopped_restoreOuter (params : MetadataParams) (ctx : FlattenCtx) (atEnd : Bool)
    (result : Bool × FlattenState) :
    stopped (.ok (restoreOuter params ctx atEnd result)) = stopped (.ok result) := by
  unfold restoreOuter
  split
  · dsimp only [stopped]
    split <;> split <;> rfl
  · rfl

mutual

/-- **A resolved rule leaves no choice to a walk**, which ends inside of it if it has an end
there. -/
theorem applyRule_resolved (ids : String → Option Nat) : ∀ {r : Rule}, r.Resolved →
    ∀ (ctx : FlattenCtx) (atEnd : Bool) {st : FlattenState}, st.dead = false →
      ∃ result, applyRule ids r ctx atEnd st = .done result ∧ stopped result = r.stops ids
  | .choice es, h, ctx, atEnd, st, _ => by
    obtain rfl : es = [] := h
    exact ⟨_, rfl, rfl⟩
  | .seq es, h, ctx, atEnd, st, hst => applySeq_resolved ids h ctx atEnd false hst
  | .metadata params r, h, ctx, atEnd, st, hst => by
    obtain ⟨result, hresult, hstops⟩ := applyRule_resolved ids (r := r) h (ctx.inner params)
      atEnd (FlattenState.dead_inner params hst)
    rw [applyRule_metadata, hresult]
    cases result with
    | ok result => exact ⟨_, rfl, (stopped_restoreOuter params ctx atEnd result).trans hstops⟩
    | error e => exact ⟨_, rfl, hstops⟩
  | .reserved r name, h, ctx, atEnd, st, hst => by
    rw [applyRule, Rule.stops]
    cases hid : ids name with
    | none => exact ⟨_, rfl, rfl⟩
    | some id => exact applyRule_resolved ids (r := r) h _ atEnd hst
  | .sym _, _, _, _, _, hst | .eof, _, _, _, _, hst | .blank, _, _, _, _, hst
  | .string _, _, _, _, _, hst | .pattern _ _, _, _, _, _, hst | .namedSymbol _, _, _, _, _, hst
  | .repeat _, _, _, _, _, hst => ⟨_, rfl, hst⟩

theorem applySeq_resolved (ids : String → Option Nat) : ∀ {es : List Rule}, ResolvedAll es →
    ∀ (ctx : FlattenCtx) (atEnd didPush : Bool) {st : FlattenState}, st.dead = false →
      ∃ result, applySeq ids es ctx atEnd didPush st = .done result ∧
        stopped result = stopsAny ids es
  | [], _, _, _, _, _, hst => ⟨_, rfl, hst⟩
  | e :: es, h, ctx, atEnd, didPush, st, hst => by
    rw [applySeq, stopsAny]
    obtain ⟨result, hresult, hstops⟩ := applyRule_resolved ids h.1 ctx (atEnd && es.isEmpty) hst
    rw [hresult, ← hstops]
    cases result with
    | error e => exact ⟨_, rfl, rfl⟩
    | ok result =>
      dsimp only [FlattenWalk.andThen, Walk.bind]
      cases hdead : result.2.dead with
      | true =>
        refine ⟨_, if_pos rfl, ?_⟩
        simp [stopped_ok, hdead]
      | false =>
        obtain ⟨result', hresult', hstops'⟩ :=
          applySeq_resolved ids h.2 ctx atEnd (didPush || result.1) hdead
        refine ⟨result', hresult', ?_⟩
        rw [hstops', stopped_ok, hdead, Bool.false_or]

end

mutual

/-- The first set of reserved words that a walk over a resolved rule reaches and that is not
declared. -/
def Rule.undeclared (reservedIds : String → Option Nat) : Rule → Option String
  | .choice _ => none
  | .seq es => undeclaredFirst reservedIds es
  | .metadata _ r => r.undeclared reservedIds
  | .reserved r name =>
    if (reservedIds name).isNone then some name else r.undeclared reservedIds
  | .sym _ | .eof | .blank | .string _ | .pattern _ _ | .namedSymbol _ | .repeat _ => none

def undeclaredFirst (reservedIds : String → Option Nat) : List Rule → Option String
  | [] => none
  | e :: es =>
    if e.stops reservedIds then e.undeclared reservedIds else undeclaredFirst reservedIds es

end

def walkError : Except FlattenGrammarError (Bool × FlattenState) → Option FlattenGrammarError
  | .ok _ => none
  | .error e => some e

mutual

theorem applyRule_error (ids : String → Option Nat) : ∀ {r : Rule}, r.Resolved →
    ∀ (ctx : FlattenCtx) (atEnd : Bool) {st : FlattenState}, st.dead = false →
      ∀ {result}, applyRule ids r ctx atEnd st = .done result →
        walkError result = (r.undeclared ids).map .noReservedWordSet
  | .choice es, h, ctx, atEnd, st, _, result, hresult => by
    obtain rfl : es = [] := h
    cases hresult
    rfl
  | .seq es, h, ctx, atEnd, st, hst, result, hresult =>
    applySeq_error ids h ctx atEnd false hst hresult
  | .metadata params r, h, ctx, atEnd, st, hst, result, hresult => by
    obtain ⟨inner, hinner, -⟩ := applyRule_resolved ids (r := r) h (ctx.inner params)
      atEnd (FlattenState.dead_inner params hst)
    have herror := applyRule_error ids (r := r) h _ _ (FlattenState.dead_inner params hst) hinner
    rw [applyRule_metadata, hinner] at hresult
    rw [Rule.undeclared, ← herror]
    cases inner <;> cases hresult <;> rfl
  | .reserved r name, h, ctx, atEnd, st, hst, result, hresult => by
    rw [applyRule] at hresult
    rw [Rule.undeclared]
    cases hid : ids name with
    | none =>
      rw [hid] at hresult
      cases hresult
      rfl
    | some id =>
      rw [hid] at hresult
      exact applyRule_error ids (r := r) h _ _ hst hresult
  | .sym _, _, _, _, _, _, _, hresult | .eof, _, _, _, _, _, _, hresult
  | .blank, _, _, _, _, _, _, hresult | .string _, _, _, _, _, _, _, hresult
  | .pattern _ _, _, _, _, _, _, _, hresult | .namedSymbol _, _, _, _, _, _, _, hresult
  | .repeat _, _, _, _, _, _, _, hresult => by cases hresult; rfl

theorem applySeq_error (ids : String → Option Nat) : ∀ {es : List Rule}, ResolvedAll es →
    ∀ (ctx : FlattenCtx) (atEnd didPush : Bool) {st : FlattenState}, st.dead = false →
      ∀ {result}, applySeq ids es ctx atEnd didPush st = .done result →
        walkError result = (undeclaredFirst ids es).map .noReservedWordSet
  | [], _, _, _, _, _, _, _, hresult => by cases hresult; rfl
  | e :: es, h, ctx, atEnd, didPush, st, hst, result, hresult => by
    obtain ⟨first, hfirst, hstops⟩ := applyRule_resolved ids h.1 ctx (atEnd && es.isEmpty) hst
    have herror := applyRule_error ids h.1 _ _ hst hfirst
    rw [applySeq, hfirst] at hresult
    rw [undeclaredFirst, ← hstops]
    cases first with
    | error e =>
      cases hresult
      exact herror
    | ok first =>
      dsimp only [FlattenWalk.andThen, Walk.bind] at hresult
      rw [stopped_ok]
      cases hdead : first.2.dead with
      | true =>
        rw [hdead] at hresult
        cases hresult
        exact herror
      | false =>
        rw [hdead] at hresult
        exact applySeq_error ids h.2 ctx atEnd _ hdead hresult

end

/-! ### The steps of a resolved rule -/

/-- What is put back in the last step of `Metadata`. -/
def closeStep (params : MetadataParams) (ctx : FlattenCtx) (step : ProductionStep) :
    ProductionStep :=
  { step with
    precedence := if params.precedence ≠ .none then ctx.prec else step.precedence
    associativity := if params.associativity.isSome then ctx.assoc else step.associativity }

/-- The steps of `Metadata`, where more may follow. -/
def closeRegion (params : MetadataParams) (ctx : FlattenCtx) (atEnd : Bool)
    (steps : List ProductionStep) : List ProductionStep :=
  if atEnd then steps else steps.modify (steps.length - 1) (closeStep params ctx)

mutual

/-- The steps that a walk over a resolved rule pushes. -/
def resolvedSteps (reservedIds : String → Option Nat) :
    Rule → FlattenCtx → Bool → List ProductionStep
  | .sym s, ctx, _ => [⟨s, ctx.prec, ctx.assoc, ctx.aliasAs, ctx.field, ctx.reserved⟩]
  | .eof, ctx, _ => [⟨.eof, ctx.prec, ctx.assoc, ctx.aliasAs, ctx.field, ctx.reserved⟩]
  | .seq es, ctx, atEnd => resolvedStepsAll reservedIds es ctx atEnd
  | .metadata params r, ctx, atEnd =>
    closeRegion params ctx atEnd (resolvedSteps reservedIds r (ctx.inner params) atEnd)
  | .reserved r name, ctx, atEnd =>
    resolvedSteps reservedIds r { ctx with reserved := (reservedIds name).getD 0 } atEnd
  | .choice _, _, _ | .blank, _, _ | .string _, _, _ | .pattern _ _, _, _ | .namedSymbol _, _, _
  | .repeat _, _, _ => []

def resolvedStepsAll (reservedIds : String → Option Nat) :
    List Rule → FlattenCtx → Bool → List ProductionStep
  | [], _, _ => []
  | e :: es, ctx, atEnd => resolvedSteps reservedIds e ctx (atEnd && es.isEmpty) ++
    resolvedStepsAll reservedIds es ctx atEnd

end

theorem modify_concat {α : Type} (xs : List α) (x : α) (f : α → α) :
    (xs ++ [x]).modify ((xs ++ [x]).length - 1) f = xs ++ [f x] := by
  rw [length_append, length_singleton, Nat.add_sub_cancel, modify_eq_set_getElem?]
  simp

theorem modify_append_concat {α : Type} (xs ys : List α) (x : α) (f : α → α) :
    (xs ++ (ys ++ [x])).modify ((xs ++ (ys ++ [x])).length - 1) f = xs ++ (ys ++ [f x]) := by
  rw [← append_assoc, modify_concat, append_assoc]

theorem restoreOuter_append (params : MetadataParams) (ctx : FlattenCtx) (atEnd : Bool)
    (st : FlattenState) (before steps : List ProductionStep) :
    restoreOuter params ctx atEnd (!steps.isEmpty, { st with steps := before ++ steps }) =
      (!steps.isEmpty, { st with steps := before ++ closeRegion params ctx atEnd steps }) := by
  unfold restoreOuter closeRegion
  rcases eq_nil_or_concat steps with rfl | ⟨steps, step, rfl⟩
  · simp
  · rw [concat_eq_append]
    cases atEnd with
    | true => simp
    | false =>
      by_cases hprec : params.precedence = .none <;>
        by_cases hassoc : params.associativity.isSome = true <;>
        simp [hprec, hassoc, closeStep, FlattenState.restoreOuterPrec,
          FlattenState.restoreOuterAssoc, FlattenState.modifyLast, modify_concat,
          modify_append_concat, -length_append]

mutual

/-- **A walk over a resolved rule pushes its steps**, if it does not end inside of it. -/
theorem applyRule_steps (ids : String → Option Nat) : ∀ {r : Rule}, r.Resolved →
    r.stops ids = false → ∀ (ctx : FlattenCtx) (atEnd : Bool) {st : FlattenState},
      st.dead = false → ∃ dynPrec, applyRule ids r ctx atEnd st =
        .done (.ok (!(resolvedSteps ids r ctx atEnd).isEmpty,
          ⟨st.steps ++ resolvedSteps ids r ctx atEnd, dynPrec, false⟩))
  | .choice es, h, hstops, _, _, _, _ => by
    obtain rfl : es = [] := h
    cases hstops
  | .seq es, h, hstops, ctx, atEnd, st, hst => by
    obtain ⟨dynPrec, hwalk⟩ := applySeq_steps ids h hstops ctx atEnd false hst
    exact ⟨dynPrec, hwalk⟩
  | .metadata params r, h, hstops, ctx, atEnd, st, hst => by
    obtain ⟨dynPrec, hwalk⟩ := applyRule_steps ids (r := r) h hstops (ctx.inner params) atEnd
      (FlattenState.dead_inner params hst)
    refine ⟨dynPrec, ?_⟩
    rw [applyRule_metadata, hwalk, FlattenWalk.andThen, Walk.bind]
    dsimp only
    rw [restoreOuter_append params ctx atEnd ⟨[], dynPrec, false⟩]
    have hempty : (closeRegion params ctx atEnd
        (resolvedSteps ids r (ctx.inner params) atEnd)).isEmpty =
          (resolvedSteps ids r (ctx.inner params) atEnd).isEmpty := by
      rw [Bool.eq_iff_iff, isEmpty_iff_length_eq_zero, isEmpty_iff_length_eq_zero, closeRegion]
      split
      · rfl
      · rw [length_modify]
    rw [resolvedSteps, hempty]
    rfl
  | .reserved r name, h, hstops, ctx, atEnd, st, hst => by
    rw [Rule.stops, Bool.or_eq_false_iff] at hstops
    rw [applyRule, resolvedSteps]
    cases hid : ids name with
    | none =>
      rw [hid] at hstops
      cases hstops.1
    | some id => exact applyRule_steps ids (r := r) h hstops.2 _ atEnd hst
  | .sym _, _, _, _, _, st, hst | .eof, _, _, _, _, st, hst =>
      ⟨st.dynPrec, by simp [applyRule, resolvedSteps, FlattenState.pushStep, hst]⟩
  | .blank, _, _, _, _, st, hst | .string _, _, _, _, _, st, hst
  | .pattern _ _, _, _, _, _, st, hst | .namedSymbol _, _, _, _, _, st, hst
  | .repeat _, _, _, _, _, st, hst => ⟨st.dynPrec, by simp [applyRule, resolvedSteps, ← hst]⟩

theorem applySeq_steps (ids : String → Option Nat) : ∀ {es : List Rule}, ResolvedAll es →
    stopsAny ids es = false → ∀ (ctx : FlattenCtx) (atEnd didPush : Bool) {st : FlattenState},
      st.dead = false → ∃ dynPrec, applySeq ids es ctx atEnd didPush st =
        .done (.ok (didPush || !(resolvedStepsAll ids es ctx atEnd).isEmpty,
          ⟨st.steps ++ resolvedStepsAll ids es ctx atEnd, dynPrec, false⟩))
  | [], _, _, _, _, _, st, hst => ⟨st.dynPrec, by simp [applySeq, resolvedStepsAll, ← hst]⟩
  | e :: es, h, hstops, ctx, atEnd, didPush, st, hst => by
    rw [stopsAny, Bool.or_eq_false_iff] at hstops
    obtain ⟨dynPrec, hwalk⟩ := applyRule_steps ids h.1 hstops.1 ctx (atEnd && es.isEmpty) hst
    have halive : FlattenState.dead
        ⟨st.steps ++ resolvedSteps ids e ctx (atEnd && es.isEmpty), dynPrec, false⟩ = false := rfl
    obtain ⟨dynPrec', hwalk'⟩ := applySeq_steps ids h.2 hstops.2 ctx atEnd
      (didPush || !(resolvedSteps ids e ctx (atEnd && es.isEmpty)).isEmpty) halive
    refine ⟨dynPrec', ?_⟩
    rw [applySeq, hwalk, FlattenWalk.andThen, Walk.bind]
    dsimp only
    rw [if_neg Bool.false_ne_true, hwalk', resolvedStepsAll]
    cases resolvedSteps ids e ctx (atEnd && es.isEmpty) <;> simp

end

/-! ### A walk over any rule -/

mutual

/-- **A walk resolves the rule, and flattens what comes of it.** -/
theorem applyRule_eq_bind (ids : String → Option Nat) : ∀ (r : Rule) (ctx : FlattenCtx)
    (atEnd : Bool) {st : FlattenState}, st.dead = false → applyRule ids r ctx atEnd st =
      (resolve ids r).bind fun r' => applyRule ids r' ctx atEnd st
  | .choice es, ctx, atEnd, st, hst => by
    rw [applyRule, resolve]
    split
    · rfl
    · exact congrArg (Walk.select es.length) (funext fun i =>
        applyNth_eq_bind ids es i ctx atEnd hst)
  | .seq es, ctx, atEnd, st, hst => by
    rw [applyRule, resolve, Walk.bind_assoc]
    exact applySeq_eq_bind ids es ctx atEnd false hst
  | .metadata params r, ctx, atEnd, st, hst => by
    rw [applyRule_metadata, resolve, Walk.bind_assoc, FlattenWalk.andThen,
      applyRule_eq_bind ids r (ctx.inner params) atEnd (FlattenState.dead_inner params hst),
      Walk.bind_assoc]
    simp only [Walk.bind, applyRule_metadata, FlattenWalk.andThen]
  | .reserved r name, ctx, atEnd, st, hst => by
    rw [applyRule, resolve]
    cases hid : ids name with
    | none =>
      rw [if_pos (Option.isNone_none (α := Nat)), Walk.bind, applyRule, hid]
    | some id =>
      rw [if_neg (by simp), Walk.bind_assoc]
      refine (applyRule_eq_bind ids r { ctx with reserved := id } atEnd hst).trans ?_
      congr 1
      funext r'
      rw [Walk.bind, applyRule, hid]
  | .sym _, _, _, _, _ | .eof, _, _, _, _ | .blank, _, _, _, _ | .string _, _, _, _, _
  | .pattern _ _, _, _, _, _ | .namedSymbol _, _, _, _, _ | .repeat _, _, _, _, _ => rfl

theorem applySeq_eq_bind (ids : String → Option Nat) : ∀ (es : List Rule) (ctx : FlattenCtx)
    (atEnd didPush : Bool) {st : FlattenState}, st.dead = false →
      applySeq ids es ctx atEnd didPush st =
        (resolveSeq ids es).bind fun es' => applySeq ids es' ctx atEnd didPush st
  | [], _, _, _, _, _ => rfl
  | e :: es, ctx, atEnd, didPush, st, hst => by
    rw [applySeq, resolveSeq, Walk.bind_assoc, applyRule_eq_bind ids e ctx _ hst,
      FlattenWalk.andThen, Walk.bind_assoc]
    refine Walk.bind_congr (resolve_resolved ids e) fun e' he' => ?_
    obtain ⟨result, hresult, hstops⟩ := applyRule_resolved ids he' ctx (atEnd && es.isEmpty) hst
    rw [hresult]
    split
    · rename_i h
      rw [Walk.bind, Walk.bind, applySeq, isEmpty_map, hresult]
      rw [← hstops] at h
      cases result with
      | error e => rfl
      | ok result =>
        rw [stopped_ok] at h
        simp [FlattenWalk.andThen, Walk.bind, h]
    · rename_i h
      rw [← hstops] at h
      cases result with
      | error e => exact absurd rfl h
      | ok result =>
        rw [stopped_ok, Bool.not_eq_true] at h
        rw [Walk.bind_assoc]
        dsimp only [Walk.bind]
        rw [if_neg (by simp [h]), applySeq_eq_bind ids es ctx atEnd _ h]
        refine Walk.bind_congr (resolveSeq_resolved ids es) fun es' hes' => ?_
        rw [applySeq, hes'.2, hresult]
        simp [FlattenWalk.andThen, Walk.bind, h]

theorem applyNth_eq_bind (ids : String → Option Nat) : ∀ (es : List Rule) (i : Nat)
    (ctx : FlattenCtx) (atEnd : Bool) {st : FlattenState}, st.dead = false →
      applyNth ids es i ctx atEnd st =
        (resolveNth ids es i).bind fun r => applyRule ids r ctx atEnd st
  | [], _, _, _, _, _ => rfl
  | e :: _, 0, ctx, atEnd, _, hst => applyRule_eq_bind ids e ctx atEnd hst
  | _ :: es, i + 1, ctx, atEnd, _, hst => applyNth_eq_bind ids es i ctx atEnd hst

end

/-! ### The cursor of the source -/

/-- `ChoiceCursor`. -/
structure ChoiceCursor where
  decisions : List Nat := []
  arities : List Nat := []
  depth : Nat := 0

namespace ChoiceCursor

/-- `begin_path`. -/
def beginPath (c : ChoiceCursor) : ChoiceCursor := { c with arities := [], depth := 0 }

/-- `select`. -/
def select (c : ChoiceCursor) (len : Nat) : Nat × ChoiceCursor :=
  (c.decisions.getD c.depth 0, { c with arities := c.arities ++ [len], depth := c.depth + 1 })

/-- `Vec::resize`, with zeros. -/
def resize (decisions : List Nat) (len : Nat) : List Nat :=
  decisions.take len ++ List.replicate (len - decisions.length) 0

/-- The loop of `advance` over the depths below one. -/
def advanceBelow (c : ChoiceCursor) : Nat → Bool × ChoiceCursor
  | 0 => (false, c)
  | depth + 1 =>
    let selected := c.decisions.getD depth 0
    if selected + 1 < c.arities.getD depth 0 then
      (true, { c with decisions := (resize c.decisions (depth + 1)).set depth (selected + 1) })
    else c.advanceBelow depth

/-- `advance`. -/
def advance (c : ChoiceCursor) : Bool × ChoiceCursor := c.advanceBelow c.arities.length

def follow {β : Type} (c : ChoiceCursor) : Walk β → β × ChoiceCursor
  | .done b => (b, c)
  | .select len next => (c.select len).2.follow (next (c.select len).1)

theorem follow_eq {β : Type} (w : Walk β) : ∀ c : ChoiceCursor, c.follow w =
    ((w.run (c.decisions.drop c.depth)).1, { c with
      arities := c.arities ++ (w.run (c.decisions.drop c.depth)).2
      depth := c.depth + (w.run (c.decisions.drop c.depth)).2.length }) := by
  induction w with
  | done b => exact fun c => by simp [follow, Walk.run]
  | select len next ih =>
    intro c
    have hselected : (c.decisions.drop c.depth).headD 0 = c.decisions.getD c.depth 0 := by
      rw [headD_eq_head?_getD, head?_drop, getD_eq_getElem?_getD]
    rw [follow, ih, Walk.run, hselected]
    simp [select, Nat.add_assoc, Nat.add_comm 1]

theorem advanceBelow_of_lt {c : ChoiceCursor} {depth : Nat}
    (h : c.decisions.getD depth 0 + 1 < c.arities.getD depth 0) :
    c.advanceBelow (depth + 1) = (true, { c with
      decisions := (resize c.decisions (depth + 1)).set depth (c.decisions.getD depth 0 + 1) }) :=
  if_pos h

theorem advanceBelow_of_not_lt {c : ChoiceCursor} {depth : Nat}
    (h : ¬ c.decisions.getD depth 0 + 1 < c.arities.getD depth 0) :
    c.advanceBelow (depth + 1) = c.advanceBelow depth := if_neg h

theorem advanceBelow_cons (c : ChoiceCursor) (len : Nat) (arities : List Nat)
    (harities : c.arities = len :: arities) (depth : Nat) : c.advanceBelow (depth + 1) =
    match ({ decisions := c.decisions.tail, arities } : ChoiceCursor).advanceBelow depth with
    | (true, rest) => (true, { c with decisions := c.decisions.headD 0 :: rest.decisions })
    | (false, _) => c.advanceBelow 1 := by
  induction depth with
  | zero => rfl
  | succ depth ih =>
    have hselected : c.decisions.getD (depth + 1) 0 = c.decisions.tail.getD depth 0 := by
      cases c.decisions <;> rfl
    have harity : c.arities.getD (depth + 1) 0 = arities.getD depth 0 := by
      rw [harities, getD_cons_succ]
    by_cases hlt : c.decisions.tail.getD depth 0 + 1 < arities.getD depth 0
    · rw [advanceBelow_of_lt (by rwa [hselected, harity]), advanceBelow_of_lt hlt, hselected]
      have hset : (resize c.decisions (depth + 1 + 1)).set (depth + 1)
          (c.decisions.tail.getD depth 0 + 1) = c.decisions.headD 0 ::
            (resize c.decisions.tail (depth + 1)).set depth
              (c.decisions.tail.getD depth 0 + 1) := by
        cases c.decisions with
        | nil => rfl
        | cons d ds => simp [resize]
      rw [hset]
    · rw [advanceBelow_of_not_lt (by rwa [hselected, harity]), ih,
        advanceBelow_of_not_lt (c := { decisions := c.decisions.tail, arities }) hlt]

/-- **The cursor of the source advances as the counter does.** -/
theorem advance_eq_replace (c : ChoiceCursor) : c.advance =
    match Walk.advance c.decisions c.arities with
    | some decisions => (true, { c with decisions })
    | none => (false, c) := by
  obtain ⟨decisions, arities, depth⟩ := c
  induction arities generalizing decisions depth with
  | nil => rfl
  | cons len arities ih =>
    rw [advance, length_cons, advanceBelow_cons _ len arities rfl, Walk.advance]
    have hrest := ih decisions.tail 0
    rw [advance] at hrest
    rw [hrest]
    cases Walk.advance decisions.tail arities with
    | some rest => rfl
    | none =>
      cases decisions <;> simp [advanceBelow, resize]
      all_goals (split <;> rfl)

end ChoiceCursor

/-! ### The loop over the paths of a variable -/

/-- What follows the loop over the paths of a variable. -/
def finishVariable (v : Variable) (out : Flattened) :
    Except FlattenGrammarError (List Production) :=
  if out.droppedForEof && out.productions.isEmpty then .error (.noReachableProductions v.name)
  else .ok out.productions

/-- The loop over the paths of a variable, and what follows it, if it ends within some turns. -/
def flattenVariableLoop (reservedIds : String → Option Nat) (v : Variable) :
    Nat → ChoiceCursor → Flattened → Option (Except FlattenGrammarError (List Production))
  | 0, _, _ => none
  | turns + 1, cursor, out =>
    let path := cursor.follow (applyRule reservedIds v.root {} true {})
    match flattenPath out path.1 with
    | .error e => some (.error e)
    | .ok out =>
      match path.2.advance with
      | (true, cursor) => flattenVariableLoop reservedIds v turns cursor.beginPath out
      | (false, _) => some (finishVariable v out)

/-- The loop takes the outcomes of the walk in turn, from those of some decisions on. -/
theorem flattenVariableLoop_leavesFrom (ids : String → Option Nat) (v : Variable) :
    ∀ {turns : Nat} (decisions : List Nat) (out : Flattened),
      ((applyRule ids v.root {} true {}).leavesFrom decisions).length ≤ turns →
        flattenVariableLoop ids v turns { decisions } out = some
          (((applyRule ids v.root {} true {}).leavesFrom decisions).foldlM flattenPath out >>=
            finishVariable v) := by
  intro turns
  have hpositive := applyRule_positive ids v.root {} true {}
  induction turns with
  | zero =>
    intro decisions out hlen
    rw [Walk.leavesFrom_eq hpositive] at hlen
    simp at hlen
  | succ turns ih =>
    intro decisions out hlen
    rw [Walk.leavesFrom_eq hpositive] at hlen ⊢
    rw [flattenVariableLoop, ChoiceCursor.follow_eq, foldlM_cons]
    simp only [drop_zero, nil_append, Nat.zero_add, ChoiceCursor.advance_eq_replace]
    cases flattenPath out ((applyRule ids v.root {} true {}).run decisions).1 with
    | error e => rfl
    | ok out' =>
      cases hadvance : Walk.advance decisions
          ((applyRule ids v.root {} true {}).run decisions).2 with
      | none => rfl
      | some rest =>
        rw [hadvance, length_cons] at hlen
        exact ih rest out' (Nat.le_of_succ_le_succ hlen)

/-- **The loop ends**, after as many turns as the walk has outcomes. -/
theorem flattenVariableLoop_eq (ids : String → Option Nat) (v : Variable) {turns : Nat}
    (h : (applyRule ids v.root {} true {}).leaves.length ≤ turns) :
    flattenVariableLoop ids v turns {} {} = some
      ((applyRule ids v.root {} true {}).leaves.foldlM flattenPath {} >>= finishVariable v) := by
  rw [← Walk.leavesFrom_nil (applyRule_positive ids v.root {} true {})] at h ⊢
  exact flattenVariableLoop_leavesFrom ids v [] {} h

/-! ### What the loop leaves -/

/-- All resolutions of a rule, in the order of their decisions. -/
def resolutions (reservedIds : String → Option Nat) (r : Rule) : List Rule :=
  (resolve reservedIds r).leaves

def resolvedOutcome (reservedIds : String → Option Nat) (r : Rule) :
    Except FlattenGrammarError (Bool × FlattenState) :=
  ((applyRule reservedIds r {} true {}).run []).1

def outcomeProduction : Except FlattenGrammarError (Bool × FlattenState) → Option Production
  | .ok (_, st) => if st.dead then none else produced st
  | .error _ => none

/-- The production of a resolved rule, if it has one. -/
def resolvedProduction (reservedIds : String → Option Nat) (r : Rule) : Option Production :=
  outcomeProduction (resolvedOutcome reservedIds r)

def resolvedSymbols (reservedIds : String → Option Nat) (r : Rule) : List Symbol :=
  (resolvedSteps reservedIds r {} true).map ProductionStep.symbol

variable {ids : String → Option Nat} {r : Rule}

theorem resolved_of_mem_resolutions {r' : Rule} (h : r' ∈ resolutions ids r) : r'.Resolved :=
  (resolve_resolved ids r).forall_leaves r' h

theorem applyRule_eq_done (h : r.Resolved) :
    applyRule ids r {} true {} = .done (resolvedOutcome ids r) := by
  obtain ⟨result, hresult, -⟩ := applyRule_resolved ids h {} true FlattenState.dead_empty
  rw [resolvedOutcome, hresult]
  rfl

theorem stopped_resolvedOutcome (h : r.Resolved) :
    stopped (resolvedOutcome ids r) = r.stops ids := by
  obtain ⟨result, hresult, hstops⟩ := applyRule_resolved ids h {} true FlattenState.dead_empty
  rw [← hstops, resolvedOutcome, hresult]
  rfl

theorem walkError_resolvedOutcome (h : r.Resolved) :
    walkError (resolvedOutcome ids r) = (r.undeclared ids).map .noReservedWordSet :=
  applyRule_error ids h {} true FlattenState.dead_empty (applyRule_eq_done h)

theorem leaves_applyRule_eq (ids : String → Option Nat) (r : Rule) :
    (applyRule ids r {} true {}).leaves = (resolutions ids r).map (resolvedOutcome ids) := by
  rw [applyRule_eq_bind ids r {} true rfl, Walk.leaves_bind, map_eq_flatMap]
  refine flatMap_congr fun r' hr' => ?_
  rw [applyRule_eq_done (resolved_of_mem_resolutions hr'), Walk.leaves]

theorem outcomeProduction_of_stopped {result : Except FlattenGrammarError (Bool × FlattenState)}
    (h : stopped result = true) : outcomeProduction result = none := by
  cases result with
  | error e => rfl
  | ok result => exact if_pos h

theorem resolvedOutcome_steps (h : r.Resolved) (hstops : r.stops ids = false) : ∃ didPush dynPrec,
      resolvedOutcome ids r = .ok (didPush, ⟨resolvedSteps ids r {} true, dynPrec, false⟩) := by
  obtain ⟨dynPrec, hwalk⟩ := applyRule_steps ids h hstops {} true FlattenState.dead_empty
  refine ⟨!(resolvedSteps ids r {} true).isEmpty, dynPrec, ?_⟩
  rw [resolvedOutcome, hwalk]
  rfl

theorem produced_eq_none {st : FlattenState} : produced st = none ↔ ¬ EofLast st.syms := by
  constructor
  · intro h hlast
    obtain ⟨p, hp, -⟩ := produced_lang hlast fun _ => 0
    rw [h] at hp
    cases hp
  · intro h
    cases hp : produced st with
    | none => rfl
    | some p => exact absurd (eofLast_of_produced hp) h

/-- **A resolution is dropped where it runs into the end of a walk, or puts the end of the input
before another step.** -/
theorem resolvedProduction_eq_none (h : r.Resolved) :
    resolvedProduction ids r = none ↔
      r.stops ids = true ∨ ¬ EofLast (resolvedSymbols ids r) := by
  rw [resolvedProduction]
  cases hstops : r.stops ids with
  | true =>
    have hstopped := outcomeProduction_of_stopped ((stopped_resolvedOutcome h).trans hstops)
    simp [hstopped]
  | false =>
    obtain ⟨didPush, dynPrec, houtcome⟩ := resolvedOutcome_steps h hstops
    rw [houtcome, outcomeProduction, if_neg Bool.false_ne_true, produced_eq_none]
    simp [FlattenState.syms, resolvedSymbols]

theorem emitReady_eraseDups (ps : List Production) (p : Production) :
    emitReady ps.eraseDups p = (ps ++ [p]).eraseDups := by
  rw [emitReady, eraseDups_append]
  split
  · rename_i hmem
    rw [mem_eraseDups] at hmem
    simp [List.removeAll, hmem]
  · rename_i hmem
    rw [mem_eraseDups] at hmem
    simp [List.removeAll, hmem, eraseDups_cons]

theorem eraseDups_eq_nil {ps : List Production} : ps.eraseDups = [] ↔ ps = [] := by
  cases ps with
  | nil => rfl
  | cons p ps => simp [eraseDups_cons]

/-- A path was dropped for what follows `eof()`. -/
def droppedOutcome (result : Except FlattenGrammarError (Bool × FlattenState)) : Bool :=
  !stopped result && (outcomeProduction result).isNone

theorem flattenPath_eraseDups (ps : List Production) (dropped : Bool)
    (result : Except FlattenGrammarError (Bool × FlattenState)) :
    flattenPath ⟨ps.eraseDups, dropped⟩ result =
      (walkError result).elim (.ok ⟨(ps ++ (outcomeProduction result).toList).eraseDups,
        dropped || droppedOutcome result⟩) .error := by
  cases result with
  | error e => rfl
  | ok result =>
    obtain ⟨didPush, st⟩ := result
    have hflat : flattenPath ⟨ps.eraseDups, dropped⟩ (.ok (didPush, st)) =
        if st.dead then Except.ok (Flattened.mk ps.eraseDups dropped)
        else (emit ps.eraseDups st).elim (.ok (Flattened.mk ps.eraseDups true))
          fun productions => .ok (Flattened.mk productions dropped) := by
      cases hemit : emit ps.eraseDups st <;> simp [flattenPath, hemit]
    rw [hflat, walkError, droppedOutcome, stopped_ok, outcomeProduction, emit_eq]
    cases st.dead with
    | true => simp
    | false =>
      cases produced st with
      | none => simp
      | some p => simp [emitReady_eraseDups]

/-- **The loop keeps the first of equal productions**, and ends at the first error. -/
theorem foldlM_flattenPath_eq :
    ∀ (results : List (Except FlattenGrammarError (Bool × FlattenState))) (ps : List Production)
      (dropped : Bool), results.foldlM flattenPath ⟨ps.eraseDups, dropped⟩ =
        (results.findSome? walkError).elim
          (.ok ⟨(ps ++ results.filterMap outcomeProduction).eraseDups,
            dropped || results.any droppedOutcome⟩) .error := by
  intro results
  induction results with
  | nil =>
    intro ps dropped
    simp [pure, Except.pure]
  | cons result results ih =>
    intro ps dropped
    rw [foldlM_cons, flattenPath_eraseDups, findSome?_cons, any_cons]
    cases walkError result with
    | some e => rfl
    | none =>
      refine (ih _ _).trans ?_
      rw [append_assoc, Bool.or_assoc]
      cases hproduction : outcomeProduction result with
      | none => rw [filterMap_cons_none hproduction]; rfl
      | some p => rw [filterMap_cons_some hproduction]; rfl

theorem findSome?_walkError : ∀ {rs : List Rule},
    (∀ r ∈ rs, r.Resolved) → (rs.map (resolvedOutcome ids)).findSome? walkError =
      (rs.findSome? (Rule.undeclared ids)).map .noReservedWordSet
  | [], _ => rfl
  | r :: rs, h => by
    rw [map_cons, findSome?_cons, findSome?_cons, walkError_resolvedOutcome (h r mem_cons_self)]
    cases r.undeclared ids with
    | some name => rfl
    | none => exact findSome?_walkError fun r hr => h r (mem_cons_of_mem _ hr)

/-- The productions of a variable are those of the resolutions of its rule. -/
theorem mem_flattenVariable {v : Variable} {ps : List Production}
    (h : flattenVariable ids v = .ok ps) {p : Production} :
    p ∈ ps ↔ ∃ r ∈ resolutions ids v.root, resolvedProduction ids r = some p := by
  rw [flattenVariable, Walk.forEach_eq (applyRule_positive ids v.root {} true {}),
    leaves_applyRule_eq] at h
  obtain ⟨out, hloop, h⟩ := bind_eq_ok.mp h
  have hps : ps = out.productions := by
    split at h <;> cases h
    rfl
  replace hloop := (foldlM_flattenPath_eq _ [] false).symm.trans hloop
  generalize List.findSome? walkError _ = error at hloop
  cases error with
  | some e => cases hloop
  | none =>
    cases hloop
    rw [hps, mem_eraseDups, nil_append, filterMap_map, mem_filterMap]
    rfl

/-- **The loop over the paths of a variable ends, with one production for each different result
of resolving its rule**, in the order of the decisions; what is dropped are the resolutions that
run into an empty choice, and those that put the end of the input before another step. If none
is left and one was dropped for the end of the input, no production is reachable. -/
theorem flattenVariableLoop_resolutions (ids : String → Option Nat) (v : Variable) :
    (∃ turns, ∀ n ≥ turns, flattenVariableLoop ids v n {} {} = some
      (match (resolutions ids v.root).findSome? (Rule.undeclared ids) with
      | some name => .error (.noReservedWordSet name)
      | none =>
        if (resolutions ids v.root).filterMap (resolvedProduction ids) = [] ∧
            ∃ r ∈ resolutions ids v.root, r.stops ids = false
        then .error (.noReachableProductions v.name)
        else .ok ((resolutions ids v.root).filterMap (resolvedProduction ids)).eraseDups)) ∧
    (∀ r ∈ resolutions ids v.root, resolvedProduction ids r = none ↔
      r.stops ids = true ∨ ¬ EofLast (resolvedSymbols ids r)) ∧
    resolutions ids v.root = (resolve ids v.root).paths.map Prod.snd ∧
    (resolve ids v.root).paths.Pairwise (fun p q => List.Lex (· < ·) p.1 q.1) ∧
    ∀ decisions r, (decisions, r) ∈ (resolve ids v.root).paths ↔
      (resolve ids v.root).Takes decisions r := by
  refine ⟨⟨_, fun n hn => (flattenVariableLoop_eq ids v hn).trans (congrArg some ?_)⟩,
    fun r hr => resolvedProduction_eq_none (resolved_of_mem_resolutions hr),
    (Walk.map_snd_paths _).symm, Walk.paths_pairwise _, fun _ _ => Walk.mem_paths⟩
  have hresolved : ∀ r ∈ resolutions ids v.root, r.Resolved :=
    fun r hr => resolved_of_mem_resolutions hr
  rw [leaves_applyRule_eq]
  generalize resolutions ids v.root = rs at hresolved
  refine (congrArg (· >>= finishVariable v) (foldlM_flattenPath_eq _ [] false)).trans ?_
  have hproductions : (rs.map (resolvedOutcome ids)).filterMap outcomeProduction =
      rs.filterMap (resolvedProduction ids) := filterMap_map ..
  rw [findSome?_walkError hresolved, hproductions, nil_append, Bool.false_or]
  cases rs.findSome? (Rule.undeclared ids) with
  | some name => rfl
  | none =>
    change finishVariable v _ = _
    rw [finishVariable]
    refine if_congr ?_ rfl rfl
    rw [Bool.and_eq_true, and_comm, List.isEmpty_iff, eraseDups_eq_nil]
    refine and_congr_right fun hempty => ?_
    rw [filterMap_eq_nil_iff] at hempty
    rw [any_map, any_eq_true]
    refine exists_congr fun r => and_congr_right fun hr => ?_
    have hnone : outcomeProduction (resolvedOutcome ids r) = none := hempty r hr
    rw [Function.comp_apply, droppedOutcome, stopped_resolvedOutcome (hresolved r hr), hnone]
    simp

def emptyChoice : Variable := ⟨"rule", .named, .choice []⟩

/-- All resolutions of an empty choice are dropped, and there is no error. -/
theorem flattenVariableLoop_emptyChoice : emptyChoice.root.RepeatFree ∧
    (∀ r ∈ resolutions (fun _ => none) emptyChoice.root,
      resolvedProduction (fun _ => none) r = none) ∧
    flattenVariableLoop (fun _ => none) emptyChoice 1 {} {} = some (.ok []) := by
  refine ⟨?_, ?_, rfl⟩
  · simp [emptyChoice, Rule.RepeatFree, RepeatFreeAll]
  · intro r hr
    obtain rfl : r = .choice [] := by
      simpa [emptyChoice, resolutions, resolve, Walk.leaves] using hr
    rfl

end TreeSitter.Generate
