import TreeSitter.Generate.PrepareGrammar.ResolveChoices

/-!
# TreeSitter.Generate.PrepareGrammar.FlattenPrecedence

Which precedence and associativity the steps of a production carry. A `Metadata` node is a
**region** around the steps below it. A step that another follows carries what the innermost
region sets that is around both. The last step carries what the innermost region sets among
those that **end the rule**: nothing stands behind them, not even what is blank
(`placedRight_iff`).
-/

namespace TreeSitter.Generate

open List

/-! ### Regions -/

/-- A `Metadata` node around a step. -/
structure Region where
  /-- The children passed on the way to it. -/
  place : List Nat
  params : MetadataParams
  /-- No element of a sequence stands behind it. -/
  endsRule : Bool

/-- A step of a resolved rule, with the regions around it from the outermost on. -/
structure PlacedStep where
  place : List Nat
  regions : List Region

def Region.contains (region : Region) (place : List Nat) : Bool := region.place.isPrefixOf place

/-- Seen from a node above. -/
def Region.under (i : Nat) (region : Region) : Region := { region with place := i :: region.place }

/-- Seen from a node above. -/
def PlacedStep.under (i : Nat) (step : PlacedStep) : PlacedStep :=
  ⟨i :: step.place, step.regions.map (Region.under i)⟩

/-- A step inside of `Metadata`. -/
def PlacedStep.inRegion (params : MetadataParams) (atEnd : Bool) (step : PlacedStep) :
    PlacedStep :=
  { step.under 0 with regions := ⟨[], params, atEnd⟩ :: (step.under 0).regions }

mutual

/-- The steps of a resolved rule. -/
def placedSteps : Rule → Bool → List PlacedStep
  | .sym _, _ | .eof, _ => [⟨[], []⟩]
  | .seq es, atEnd => placedStepsFrom es 0 atEnd
  | .metadata params r, atEnd => (placedSteps r atEnd).map (PlacedStep.inRegion params atEnd)
  | .reserved r _, atEnd => (placedSteps r atEnd).map (PlacedStep.under 0)
  | .choice _, _ | .blank, _ | .string _, _ | .pattern _ _, _ | .namedSymbol _, _ | .repeat _, _ =>
    []

def placedStepsFrom : List Rule → Nat → Bool → List PlacedStep
  | [], _, _ => []
  | e :: es, i, atEnd => (placedSteps e (atEnd && es.isEmpty)).map (PlacedStep.under i) ++
    placedStepsFrom es (i + 1) atEnd

end

/-! ### What a step carries -/

/-- What regions set and steps carry: the precedence, or the associativity. -/
structure StepAttribute (γ : Type) where
  /-- What a region sets. -/
  set : MetadataParams → Option γ
  ctx : FlattenCtx → γ
  step : ProductionStep → γ
  ctx_inner : ∀ c params, ctx (c.inner params) = (set params).getD (ctx c)
  ctx_reserved : ∀ (c : FlattenCtx) id, ctx { c with reserved := id } = ctx c
  step_push : ∀ s (c : FlattenCtx),
    step ⟨s, c.prec, c.assoc, c.aliasAs, c.field, c.reserved⟩ = ctx c
  step_close : ∀ params c s,
    step (closeStep params c s) = if (set params).isSome then ctx c else step s

def precedenceAttribute : StepAttribute Precedence where
  set params := if params.precedence ≠ .none then some params.precedence else none
  ctx := FlattenCtx.prec
  step := ProductionStep.precedence
  ctx_inner c params := by by_cases h : params.precedence = .none <;> simp [FlattenCtx.inner, h]
  ctx_reserved _ _ := rfl
  step_push _ _ := rfl
  step_close params c s := by by_cases h : params.precedence = .none <;> simp [closeStep, h]

def associativityAttribute : StepAttribute (Option Associativity) where
  set params := if params.associativity.isSome then some params.associativity else none
  ctx := FlattenCtx.assoc
  step := ProductionStep.associativity
  ctx_inner c params := by cases h : params.associativity <;> simp [FlattenCtx.inner, h]
  ctx_reserved _ _ := rfl
  step_push _ _ := rfl
  step_close params c s := by cases h : params.associativity <;> simp [closeStep, h]

section Carries

variable {γ : Type} (A : StepAttribute γ)

/-- What the innermost of some regions sets that sets anything. -/
def innermost (outer : γ) (regions : List Region) : γ :=
  (regions.filterMap fun region => A.set region.params).getLastD outer

theorem innermost_cons (outer : γ) (region : Region) (regions : List Region) :
    innermost A outer (region :: regions) =
      innermost A ((A.set region.params).getD outer) regions := by
  unfold innermost
  rw [filterMap_cons]
  cases A.set region.params with
  | none => rfl
  | some value => exact getLastD_cons ..

theorem innermost_under (outer : γ) (i : Nat) (regions : List Region) :
    innermost A outer (regions.map (Region.under i)) = innermost A outer regions := by
  rw [innermost, filterMap_map]
  rfl

/-- Each step carries what the innermost region sets that is around it and the next one; the last
step carries what the innermost region sets of those that count for it. -/
inductive Carries (counts : Region → Bool) (outer : γ) :
    List ProductionStep → List PlacedStep → Prop where
  | nil : Carries counts outer [] []
  | last {s : ProductionStep} {p : PlacedStep} :
      A.step s = innermost A outer (p.regions.filter counts) → Carries counts outer [s] [p]
  | cons {s s' : ProductionStep} {p p' : PlacedStep} {ss : List ProductionStep}
      {ps : List PlacedStep} :
      A.step s = innermost A outer (p.regions.filter fun region => region.contains p'.place) →
      Carries counts outer (s' :: ss) (p' :: ps) → Carries counts outer (s :: s' :: ss) (p :: p' :: ps)

variable {A} {counts : Region → Bool} {outer : γ} {ss : List ProductionStep} {ps : List PlacedStep}

theorem filter_contains_under (i : Nat) (p p' : PlacedStep) :
    (p.under i).regions.filter (fun region => region.contains (p'.under i).place) =
      (p.regions.filter fun region => region.contains p'.place).map (Region.under i) := by
  refine (filter_map ..).trans (congrArg _ (filter_congr fun region _ => ?_))
  simp [Region.contains, Region.under, PlacedStep.under]

theorem ending_under (i : Nat) (p : PlacedStep) :
    (p.under i).regions.filter Region.endsRule =
      (p.regions.filter Region.endsRule).map (Region.under i) := filter_map ..

theorem Carries.under (i : Nat) (h : Carries A Region.endsRule outer ss ps) :
    Carries A Region.endsRule outer ss (ps.map (PlacedStep.under i)) := by
  induction h with
  | nil => exact .nil
  | last hstep =>
    refine .last ?_
    rw [hstep]
    exact (congrArg _ (ending_under i _)).trans (innermost_under A ..) |>.symm
  | cons hstep _ ih =>
    refine .cons ?_ ih
    rw [hstep, filter_contains_under, innermost_under]

def NoneEndsRule (ps : List PlacedStep) : Prop := ∀ p ∈ ps, p.regions.filter Region.endsRule = []

theorem NoneEndsRule.under (i : Nat) (h : NoneEndsRule ps) :
    NoneEndsRule (ps.map (PlacedStep.under i)) := by
  intro _ hmem
  obtain ⟨p, hp, rfl⟩ := mem_map.mp hmem
  rw [ending_under, h p hp, map_nil]

/-- One part behind the other: the regions of the first part end there. -/
theorem Carries.append (h : Carries A Region.endsRule outer ss ps) (hclosed : NoneEndsRule ps)
    {ss' : List ProductionStep} {ps' : List PlacedStep}
    (h' : Carries A Region.endsRule outer ss' ps')
    (hapart : ∀ p ∈ ps, ∀ p' ∈ ps', ∀ region ∈ p.regions, region.contains p'.place = false) :
    Carries A Region.endsRule outer (ss ++ ss') (ps ++ ps') := by
  induction h with
  | nil => exact h'
  | @last s p hstep =>
    rw [hclosed p mem_cons_self] at hstep
    have hnext : ∀ p' ∈ ps', (p.regions.filter fun region => region.contains p'.place) = [] :=
      fun p' hp' => filter_eq_nil_iff.mpr fun region hregion =>
        Bool.not_eq_true _ ▸ hapart p mem_cons_self p' hp' region hregion
    cases h' with
    | nil => exact .last (hclosed p mem_cons_self ▸ hstep)
    | last hstep' => exact .cons (hnext _ mem_cons_self ▸ hstep) (.last hstep')
    | cons hstep' h' => exact .cons (hnext _ mem_cons_self ▸ hstep) (.cons hstep' h')
  | cons hstep _ ih =>
    exact .cons hstep (ih (fun p hp => hclosed p (mem_cons_of_mem _ hp))
      fun p hp => hapart p (mem_cons_of_mem _ hp))

theorem innermost_inRegion (params : MetadataParams) (ctx : FlattenCtx) (atEnd : Bool)
    (p p' : PlacedStep) :
    innermost A (A.ctx ctx) ((p.inRegion params atEnd).regions.filter fun region =>
      region.contains (p'.inRegion params atEnd).place) =
    innermost A (A.ctx (ctx.inner params))
      (p.regions.filter fun region => region.contains p'.place) := by
  rw [PlacedStep.inRegion, PlacedStep.inRegion, filter_cons_of_pos (by rfl), innermost_cons,
    filter_contains_under, innermost_under, A.ctx_inner]

theorem Carries.inRegion {params : MetadataParams} {ctx : FlattenCtx} {atEnd : Bool}
    (h : Carries A Region.endsRule (A.ctx (ctx.inner params)) ss ps)
    (hclosed : atEnd = false → NoneEndsRule ps) :
    Carries A Region.endsRule (A.ctx ctx) (closeRegion params ctx atEnd ss)
      (ps.map (PlacedStep.inRegion params atEnd)) := by
  unfold closeRegion
  cases atEnd with
  | true =>
    rw [if_pos rfl]
    induction h with
    | nil => exact .nil
    | @last s p hstep =>
      refine .last ?_
      rw [hstep, PlacedStep.inRegion, filter_cons_of_pos rfl, innermost_cons, ← A.ctx_inner]
      exact (congrArg _ (ending_under 0 p)).trans (innermost_under A ..) |>.symm
    | cons hstep _ ih =>
      exact .cons (hstep.trans (innermost_inRegion ..).symm) (ih fun h => by cases h)
  | false =>
    rw [if_neg Bool.false_ne_true]
    replace hclosed := hclosed rfl
    induction h with
    | nil => exact .nil
    | @last s p hstep =>
      refine .last ?_
      rw [hclosed p mem_cons_self, innermost, filterMap_nil, getLastD_nil, A.ctx_inner] at hstep
      have hending : (p.inRegion params false).regions.filter Region.endsRule = [] := by
        rw [PlacedStep.inRegion, filter_cons_of_neg Bool.false_ne_true]
        exact (ending_under 0 p).trans (by rw [hclosed p mem_cons_self, map_nil])
      rw [hending, innermost, filterMap_nil, getLastD_nil]
      change A.step (closeStep params ctx s) = _
      rw [A.step_close, hstep]
      cases A.set params <;> rfl
    | @cons s s' p p' ss ps hstep _ ih =>
      replace ih := ih fun p hp => hclosed p (mem_cons_of_mem _ hp)
      obtain ⟨t, ts, hts⟩ : ∃ t ts, (s' :: ss).modify ((s' :: ss).length - 1)
          (closeStep params ctx) = t :: ts := by
        cases ss <;> exact ⟨_, _, rfl⟩
      rw [hts] at ih
      change Carries A Region.endsRule (A.ctx ctx) (s :: (s' :: ss).modify
        ((s' :: ss).length - 1) (closeStep params ctx)) _
      rw [hts]
      exact .cons (hstep.trans (innermost_inRegion ..).symm) ih

theorem Carries.length (h : Carries A counts outer ss ps) : ss.length = ps.length := by
  induction h with
  | nil | last _ => rfl
  | cons _ _ ih => exact congrArg (· + 1) ih

theorem Carries.dropLast (h : Carries A counts outer ss ps) {eofStep : PlacedStep}
    (hlast : ps.getLast? = some eofStep) :
    Carries A (fun region => region.contains eofStep.place) outer ss.dropLast ps.dropLast := by
  induction h with
  | nil => cases hlast
  | last _ => exact .nil
  | @cons s s' p p' ss ps hstep h ih =>
    rw [getLast?_cons_cons] at hlast
    replace ih := ih hlast
    rw [dropLast_cons_of_ne_nil (cons_ne_nil s' ss), dropLast_cons_of_ne_nil (cons_ne_nil p' ps)]
    cases h with
    | last _ =>
      cases hlast
      exact .last hstep
    | cons _ _ => exact .cons hstep ih

theorem Carries.iff_last (h : Carries A counts outer ss ps) {c : Region → Bool} :
    Carries A c outer ss ps ↔ ∀ p, ps.getLast? = some p →
      innermost A outer (p.regions.filter c) =
        innermost A outer (p.regions.filter counts) := by
  induction h with
  | nil => exact ⟨fun _ p hp => (by cases hp), fun _ => .nil⟩
  | last hstep =>
    constructor
    · intro h' p hp
      cases hp
      cases h' with
      | last hstep' => exact hstep'.symm.trans hstep
    · exact fun h' => .last (hstep.trans (h' _ rfl).symm)
  | cons hstep _ ih =>
    rw [getLast?_cons_cons, ← ih]
    constructor
    · intro h'
      cases h' with
      | cons _ h' => exact h'
    · exact .cons hstep

end Carries

mutual

theorem noneEndsRule_placedSteps : ∀ r : Rule, NoneEndsRule (placedSteps r false)
  | .sym _ | .eof => by simp [NoneEndsRule, placedSteps]
  | .seq es => noneEndsRule_placedStepsFrom es 0
  | .metadata params r => by
    intro _ hmem
    obtain ⟨p, hp, rfl⟩ := mem_map.mp hmem
    rw [PlacedStep.inRegion, filter_cons_of_neg Bool.false_ne_true]
    exact (ending_under 0 p).trans (by rw [noneEndsRule_placedSteps r p hp, map_nil])
  | .reserved r _ => (noneEndsRule_placedSteps r).under 0
  | .choice _ | .blank | .string _ | .pattern _ _ | .namedSymbol _ | .repeat _ =>
    by simp [NoneEndsRule, placedSteps]

theorem noneEndsRule_placedStepsFrom : ∀ (es : List Rule) (i : Nat),
    NoneEndsRule (placedStepsFrom es i false)
  | [], _ => by simp [NoneEndsRule, placedStepsFrom]
  | e :: es, i => by
    intro p hp
    rw [placedStepsFrom, mem_append] at hp
    rcases hp with hp | hp
    · exact (noneEndsRule_placedSteps e).under i p hp
    · exact noneEndsRule_placedStepsFrom es (i + 1) p hp

end

theorem exists_place_of_mem_placedStepsFrom {es : List Rule} {i : Nat} {atEnd : Bool}
    {p : PlacedStep} (h : p ∈ placedStepsFrom es i atEnd) :
    ∃ j, i ≤ j ∧ ∃ place, p.place = j :: place := by
  induction es generalizing i with
  | nil => exact absurd h not_mem_nil
  | cons e es ih =>
    rw [placedStepsFrom, mem_append] at h
    rcases h with hp | hp
    · obtain ⟨p, hp, rfl⟩ := mem_map.mp hp
      exact ⟨i, le_rfl, p.place, rfl⟩
    · obtain ⟨j, hj, hplace⟩ := ih hp
      exact ⟨j, by omega, hplace⟩

section Resolved

variable {γ : Type} (A : StepAttribute γ) (ids : String → Option Nat)

mutual

/-- **What the steps of a resolved rule carry.** -/
theorem carries_resolvedSteps : ∀ (r : Rule) (ctx : FlattenCtx) (atEnd : Bool),
    Carries A Region.endsRule (A.ctx ctx) (resolvedSteps ids r ctx atEnd) (placedSteps r atEnd)
  | .sym _, _, _ | .eof, _, _ => .last (A.step_push ..)
  | .seq es, ctx, atEnd => carries_resolvedStepsAll es 0 ctx atEnd
  | .metadata params r, ctx, atEnd =>
    (carries_resolvedSteps r (ctx.inner params) atEnd).inRegion fun h => by
      rw [h]
      exact noneEndsRule_placedSteps r
  | .reserved r name, ctx, atEnd => by
    rw [resolvedSteps, placedSteps, ← A.ctx_reserved ctx ((ids name).getD 0)]
    exact (carries_resolvedSteps r _ atEnd).under 0
  | .choice _, _, _ | .blank, _, _ | .string _, _, _ | .pattern _ _, _, _ | .namedSymbol _, _, _
  | .repeat _, _, _ => .nil

theorem carries_resolvedStepsAll : ∀ (es : List Rule) (i : Nat) (ctx : FlattenCtx)
    (atEnd : Bool), Carries A Region.endsRule (A.ctx ctx)
      (resolvedStepsAll ids es ctx atEnd) (placedStepsFrom es i atEnd)
  | [], _, _, _ => .nil
  | [e], i, ctx, atEnd => by
    have hcarries := (carries_resolvedSteps e ctx atEnd).under i
    simpa [resolvedStepsAll, placedStepsFrom] using hcarries
  | e :: e' :: es, i, ctx, atEnd => by
    have hfirst : (atEnd && (e' :: es).isEmpty) = false := Bool.and_false _
    rw [resolvedStepsAll, placedStepsFrom, hfirst]
    refine ((carries_resolvedSteps e ctx false).under i).append ((noneEndsRule_placedSteps e).under i)
      (carries_resolvedStepsAll (e' :: es) (i + 1) ctx atEnd) ?_
    intro p hp p' hp' region hregion
    obtain ⟨p, -, rfl⟩ := mem_map.mp hp
    obtain ⟨region, -, rfl⟩ := mem_map.mp hregion
    obtain ⟨j, hj, place, hplace⟩ := exists_place_of_mem_placedStepsFrom hp'
    have hne : i ≠ j := by omega
    simp [Region.contains, Region.under, hplace, List.isPrefixOf, hne]

end

end Resolved

/-! ### Productions -/

/-- The steps of a production of a resolved rule, where they stand in the rule. An `eof()` behind
them is no step of the production. -/
def productionPlaces (r : Rule) (p : Production) : List PlacedStep :=
  (placedSteps r true).take p.steps.length

/-- The region goes on behind the last step of the production: up to an `eof()`, or up to the end
of the rule. -/
def Region.goesOn (r : Rule) (p : Production) (region : Region) : Bool :=
  match (placedSteps r true)[p.steps.length]? with
  | some eofStep => region.contains eofStep.place
  | none => region.endsRule

/-- **Each step but the last carries what the innermost region sets that is around it and the next
step; the last one carries what the innermost region around it sets.** -/
def PlacedRight (r : Rule) (p : Production) : Prop :=
  Carries precedenceAttribute (fun _ => true) .none p.steps (productionPlaces r p) ∧
  Carries associativityAttribute (fun _ => true) none p.steps (productionPlaces r p)

/-- Around the last step, the innermost region sets what the innermost one sets that goes on
behind it. -/
def LastRegionGoesOn (r : Rule) (p : Production) : Prop :=
  ∀ last, (productionPlaces r p).getLast? = some last →
    innermost precedenceAttribute .none last.regions =
      innermost precedenceAttribute .none (last.regions.filter (Region.goesOn r p)) ∧
    innermost associativityAttribute none last.regions =
      innermost associativityAttribute none (last.regions.filter (Region.goesOn r p))

theorem steps_of_resolvedProduction {ids : String → Option Nat} {r : Rule} (hr : r.Resolved)
    {p : Production} (h : resolvedProduction ids r = some p) :
    p.steps = resolvedSteps ids r {} true ∨
      resolvedSteps ids r {} true ≠ [] ∧ p.steps = (resolvedSteps ids r {} true).dropLast := by
  cases hstops : r.stops ids with
  | true =>
    have hnone := (resolvedProduction_eq_none hr).mpr (Or.inl hstops)
    rw [hnone] at h
    cases h
  | false =>
    obtain ⟨didPush, dynPrec, houtcome⟩ := resolvedOutcome_steps hr hstops
    rw [resolvedProduction, houtcome, outcomeProduction, if_neg Bool.false_ne_true, produced] at h
    split at h
    · cases h
      exact Or.inl rfl
    · rename_i hfind
      split at h
      · cases h
      · cases h
        refine Or.inr ⟨fun hnil => ?_, rfl⟩
        simp [hnil] at hfind

theorem carries_production {γ : Type} (A : StepAttribute γ) {ids : String → Option Nat}
    {r : Rule} (hr : r.Resolved) {p : Production} (h : resolvedProduction ids r = some p) :
    Carries A (Region.goesOn r p) (A.ctx {}) p.steps (productionPlaces r p) := by
  have hcarries := carries_resolvedSteps A ids r {} true
  have hlen := hcarries.length
  rcases steps_of_resolvedProduction hr h with hsteps | ⟨hne, hsteps⟩
  · have hgoesOn : Region.goesOn r p = Region.endsRule := by
      funext region
      rw [Region.goesOn, hsteps, hlen, getElem?_eq_none le_rfl]
    rwa [hgoesOn, productionPlaces, hsteps, hlen, take_length]
  · have hne' : placedSteps r true ≠ [] := by
      rwa [← length_pos_iff, ← hlen, length_pos_iff]
    have hcount : p.steps.length = (placedSteps r true).length - 1 := by
      rw [hsteps, length_dropLast, hlen]
    have hgoesOn : Region.goesOn r p =
        fun region => region.contains ((placedSteps r true).getLast hne').place := by
      funext region
      rw [Region.goesOn, hcount, ← getLast?_eq_getElem?, getLast?_eq_some_getLast hne']
    rw [hgoesOn, productionPlaces, hcount, ← dropLast_eq_take, hsteps]
    exact hcarries.dropLast (getLast?_eq_some_getLast hne')

/-- **The steps of a production carry what they should exactly if, around the last one, the
innermost region sets what the innermost one sets that goes on behind it.** -/
theorem placedRight_iff (ids : String → Option Nat) (v : Variable) :
    (∀ ps, flattenVariable ids v = .ok ps → ∀ p ∈ ps,
      ∃ r ∈ resolutions ids v.root, resolvedProduction ids r = some p) ∧
    ∀ r ∈ resolutions ids v.root, ∀ p, resolvedProduction ids r = some p →
      (PlacedRight r p ↔ LastRegionGoesOn r p) := by
  refine ⟨fun ps hps p hp => (mem_flattenVariable hps).mp hp, fun r hr p hp => ?_⟩
  have hresolved := resolved_of_mem_resolutions hr
  have hprec := (carries_production precedenceAttribute hresolved hp).iff_last
    (c := fun _ => true)
  have hassoc := (carries_production associativityAttribute hresolved hp).iff_last
    (c := fun _ => true)
  simp only [filter_true] at hprec hassoc
  rw [PlacedRight, LastRegionGoesOn]
  refine (and_congr hprec hassoc).trans ?_
  exact ⟨fun h last hlast => ⟨h.1 last hlast, h.2 last hlast⟩,
    fun h => ⟨fun last hlast => (h last hlast).1, fun last hlast => (h last hlast).2⟩⟩

/-- `seq(prec(1, a), blank)`, which is what becomes of `seq(prec(1, a), optional(b))` without
`b`. -/
def blankBehindRegion : Rule :=
  .seq [.metadata { precedence := .integer 1 } (.sym (.terminal 0)), .blank]

/-- The last step is in a region, and carries no precedence. -/
theorem not_placedRight_blankBehindRegion : ∃ p : Production,
    flattenVariable (fun _ => none)
      ⟨"rule", .named, .seq [.metadata { precedence := .integer 1 } (.sym (.terminal 0)),
        .choice [.sym (.terminal 1), .blank]]⟩ =
      .ok [⟨[⟨.terminal 0, .none, none, none, none, 0⟩, ⟨.terminal 1, .none, none, none, none, 0⟩],
        0, false⟩, p] ∧
    blankBehindRegion ∈ resolutions (fun _ => none)
      (.seq [.metadata { precedence := .integer 1 } (.sym (.terminal 0)),
        .choice [.sym (.terminal 1), .blank]]) ∧
    resolvedProduction (fun _ => none) blankBehindRegion = some p ∧
    ¬ PlacedRight blankBehindRegion p := by
  refine ⟨⟨[⟨.terminal 0, .none, none, none, none, 0⟩], 0, false⟩, rfl, ?_, rfl, fun h => ?_⟩
  · exact mem_cons_of_mem _ mem_cons_self
  · cases h.1 with
    | last hstep => cases hstep

/-- `prec(1, seq(a, b))`. -/
def wholeRegion : Variable :=
  ⟨"rule", .named, .metadata { precedence := .integer 1 }
    (.seq [.sym (.terminal 0), .sym (.terminal 1)])⟩

theorem placedRight_wholeRegion : ∃ p, flattenVariable (fun _ => none) wholeRegion = .ok [p] ∧
    (PlacedRight wholeRegion.root p ↔ LastRegionGoesOn wholeRegion.root p) :=
  ⟨_, rfl, (placedRight_iff (fun _ => none) wholeRegion).2 _ mem_cons_self _ rfl⟩

end TreeSitter.Generate
