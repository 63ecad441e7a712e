import TreeSitter.Generate.PrepareGrammar.ProcessInlines
import TreeSitter.Generate.PrepareGrammar.FlattenGrammar
import TreeSitter.Library.MacroExpansion
import TreeSitter.Library.Fallible

/-!
# TreeSitter.Generate.PrepareGrammar.ProcessInlinesTerminates

**When inlining ends.** Inlined symbols are macros (`inlineMacros`), and the loops read the symbols
behind a step as a word of `TreeSitter.Library.MacroExpansion`. So they end exactly if no inlined
rule calls itself, over any number of other ones (`processInlines_terminates_iff`). The check
behind flattening only rejects rules that do so directly.
-/

namespace TreeSitter.Generate

open List Library Relation

section Macros

variable (store : ProductionStore) (inline : List Symbol)

/-- Inlined symbols stand for their productions. -/
def inlineMacros : Macros Symbol := fun s =>
  if s ∈ inline then
    some ((productionsOf store s).map fun p =>
      (p.steps.map ProductionStep.symbol, p.requiresEofLookahead))
  else none

theorem isSome_inlineMacros {s : Symbol} : (inlineMacros store inline s).isSome = true ↔
    s ∈ inline := by
  unfold inlineMacros
  split <;> simp_all

theorem finite_inlineMacros : {s | (inlineMacros store inline s).isSome = true}.Finite := by
  refine (finite_toSet inline).subset fun s hs => ?_
  exact (isSome_inlineMacros store inline).mp hs

end Macros

def Production.rest (p : Production) (step : Nat) : List Symbol :=
  (p.steps.drop step).map ProductionStep.symbol

theorem Production.rest_zero (p : Production) : p.rest 0 = p.steps.map ProductionStep.symbol := rfl

theorem Production.rest_of_getElem? {p : Production} {k : Nat} {step : ProductionStep}
    (h : p.steps[k]? = some step) : p.rest k = step.symbol :: p.rest (k + 1) := by
  obtain ⟨hlt, hget⟩ := List.getElem?_eq_some_iff.mp h
  rw [Production.rest, List.drop_eq_getElem_cons hlt, List.map_cons, hget]
  rfl

theorem Production.rest_of_getElem?_none {p : Production} {k : Nat} (h : p.steps[k]? = none) :
    p.rest k = [] := by
  rw [getElem?_eq_none_iff] at h
  rw [Production.rest, drop_eq_nil_of_le h, map_nil]

theorem symbol_insertedSteps (removed : ProductionStep) (p : Production) :
    (insertedSteps removed p).map ProductionStep.symbol = p.steps.map ProductionStep.symbol := by
  refine ext_getElem (by simp [insertedSteps]) fun i hi hi' => ?_
  simp only [insertedSteps, getElem_map, getElem_modify]
  split <;> rfl

section Substitution

variable {x y p : Production} {k : Nat} {step : ProductionStep}

theorem substitute_eq_some (hstep : x.steps[k]? = some step) (h : substitute x k step p = some y) :
    (p.requiresEofLookahead = true → x.rest (k + 1) = []) ∧
      y.rest k = p.rest 0 ++ x.rest (k + 1) := by
  obtain ⟨hlt, -⟩ := List.getElem?_eq_some_iff.mp hstep
  unfold substitute at h
  split at h
  · cases h
  · rename_i hnot
    refine ⟨fun heof => ?_, ?_⟩
    · rw [heof, Bool.true_and, decide_eq_true_eq, Nat.not_lt] at hnot
      exact Production.rest_of_getElem?_none (getElem?_eq_none hnot)
    · cases h
      have htake : (x.steps.take k).length = k := by
        rw [length_take]
        omega
      rw [Production.rest, append_assoc, drop_left' htake, map_append, symbol_insertedSteps]
      rfl

theorem exists_substitute (step : ProductionStep)
    (heof : p.requiresEofLookahead = true → x.rest (k + 1) = []) :
    ∃ y, substitute x k step p = some y := by
  unfold substitute
  split
  · rename_i hboth
    rw [Bool.and_eq_true, decide_eq_true_eq] at hboth
    have hnil := heof hboth.1
    rw [Production.rest, map_eq_nil_iff, drop_eq_nil_iff] at hnil
    omega
  · exact ⟨_, rfl⟩

end Substitution

section Loops

variable {store : ProductionStore} {inline : List Symbol}

/-- The production has an inlined symbol at the step. -/
def InlinedAt (inline : List Symbol) (k : Nat) (x : Production) : Prop :=
  ∃ step, x.steps[k]? = some step ∧ step.symbol ∈ inline

/-- A production with one of the inlined rule in place of a step. -/
def SubstitutedAt (store : ProductionStore) (inline : List Symbol) (k : Nat)
    (x y : Production) : Prop :=
  ∃ step, x.steps[k]? = some step ∧ step.symbol ∈ inline ∧ y ∈ replacements store x k step

/-- A production without an inlined symbol at the step, after any number of substitutions. -/
def ExpandedAt (store : ProductionStore) (inline : List Symbol) (k : Nat)
    (x y : Production) : Prop :=
  ReflTransGen (SubstitutedAt store inline k) x y ∧ ¬ InlinedAt inline k y

variable {x : Production} {k : Nat}

/-- **Substitutions are steps of reading.** -/
theorem unfolds_iff (hx : InlinedAt inline k x) {w : List Symbol} :
    (inlineMacros store inline).Unfolds (x.rest k) w ↔
      ∃ y, SubstitutedAt store inline k x y ∧ y.rest k = w := by
  obtain ⟨step, hstep, hinline⟩ := hx
  have hunfold : inlineMacros store inline step.symbol =
      some ((productionsOf store step.symbol).map fun p =>
        (p.steps.map ProductionStep.symbol, p.requiresEofLookahead)) := if_pos hinline
  rw [Production.rest_of_getElem? hstep]
  constructor
  · intro h
    cases h with
    | consume hnone => rw [hunfold] at hnone; cases hnone
    | expand hs hbody hend =>
      rw [hunfold, Option.some_inj] at hs
      subst hs
      obtain ⟨p, hp, heq⟩ := mem_map.mp hbody
      rw [Prod.mk.injEq] at heq
      obtain ⟨y, hy⟩ := exists_substitute (p := p) step fun h => hend (heq.2 ▸ h)
      refine ⟨y, ⟨step, hstep, hinline, mem_filterMap.mpr ⟨p, hp, hy⟩⟩, ?_⟩
      rw [(substitute_eq_some hstep hy).2, ← heq.1]
      rfl
  · intro h
    obtain ⟨y, ⟨step', hstep', -, hy⟩, rfl⟩ := h
    obtain rfl := Option.some_inj.mp (hstep.symm.trans hstep')
    obtain ⟨p, hp, hsubst⟩ := mem_filterMap.mp hy
    obtain ⟨heof, hrest⟩ := substitute_eq_some hstep hsubst
    rw [hrest]
    exact .expand hunfold (mem_map.mpr ⟨p, hp, rfl⟩) heof

variable {step : ProductionStep}

theorem unfolds_of_not_inlined (hstep : x.steps[k]? = some step) (hinline : step.symbol ∉ inline) :
    (inlineMacros store inline).Unfolds (x.rest k) (x.rest (k + 1)) := by
  rw [Production.rest_of_getElem? hstep]
  exact .consume (if_neg hinline)

/-- The word behind a step can be read to its end. -/
def EndsAt (store : ProductionStore) (inline : List Symbol) (k : Nat) (x : Production) : Prop :=
  (inlineMacros store inline).Terminates (x.rest k)

theorem endsAt_of_substituted (hx : InlinedAt inline k x)
    (h : ∀ y, SubstitutedAt store inline k x y → EndsAt store inline k y) :
    EndsAt store inline k x := by
  refine Acc.intro _ fun w hw => ?_
  obtain ⟨y, hy, rfl⟩ := (unfolds_iff hx).mp hw
  exact h y hy

theorem endsAt_of_succ (hstep : x.steps[k]? = some step) (hinline : step.symbol ∉ inline)
    (h : EndsAt store inline (k + 1) x) : EndsAt store inline k x := by
  unfold EndsAt
  rw [Production.rest_of_getElem? hstep]
  exact Macros.Terminates.cons (if_neg hinline) h

theorem endsAt_of_none (h : x.steps[k]? = none) :
    EndsAt store inline k x := by
  unfold EndsAt
  rw [Production.rest_of_getElem?_none h]
  exact Macros.terminates_nil

variable {y : Production}

theorem substitutedAt_iff (hstep : x.steps[k]? = some step) (hinline : step.symbol ∈ inline) :
    SubstitutedAt store inline k x y ↔ y ∈ replacements store x k step := by
  constructor
  · intro h
    obtain ⟨step', hstep', -, hy⟩ := h
    obtain rfl := Option.some_inj.mp (hstep.symm.trans hstep')
    exact hy
  · exact fun hy => ⟨step, hstep, hinline, hy⟩

theorem not_inlinedAt_of_none (h : x.steps[k]? = none) :
    ¬ InlinedAt inline k x := by
  intro hx
  obtain ⟨step, hstep, -⟩ := hx
  rw [h] at hstep
  cases hstep

theorem not_inlinedAt (hstep : x.steps[k]? = some step) (hinline : step.symbol ∉ inline) :
    ¬ InlinedAt inline k x := by
  intro hx
  obtain ⟨step', hstep', hinline'⟩ := hx
  obtain rfl := Option.some_inj.mp (hstep.symm.trans hstep')
  exact hinline hinline'

/-- A production without an inlined symbol at the step is left as it is. -/
theorem expandedAt_iff_eq (hx : ¬ InlinedAt inline k x) :
    ExpandedAt store inline k x y ↔ y = x := by
  constructor
  · intro h
    rcases h.1.cases_head with rfl | ⟨z, ⟨step, hstep, hinline, -⟩, -⟩
    · rfl
    · exact absurd ⟨step, hstep, hinline⟩ hx
  · rintro rfl
    exact ⟨.refl, hx⟩

theorem expandedAt_iff_exists (hx : InlinedAt inline k x) :
    ExpandedAt store inline k x y ↔
      ∃ z, SubstitutedAt store inline k x z ∧ ExpandedAt store inline k z y := by
  constructor
  · intro h
    rcases h.1.cases_head with rfl | ⟨z, hz, hrest⟩
    · exact absurd hx h.2
    · exact ⟨z, hz, hrest, h.2⟩
  · rintro ⟨z, hz, hrest, hy⟩
    exact ⟨hrest.head hz, hy⟩

/-! ### The loop over one step -/

/-- **What the loop leaves are the expansions**, and they end only if what was there does. -/
theorem scratchLoop_spec : ∀ {fuel : Nat} {finished scratch result : List Production},
    scratchLoop store inline k fuel finished scratch = some result →
    (∀ y, y ∈ result ↔ y ∈ finished ∨ ∃ x ∈ scratch, ExpandedAt store inline k x y) ∧
      ((∀ y ∈ result, EndsAt store inline k y) → ∀ x ∈ scratch, EndsAt store inline k x)
  | 0, _, _, _, h => by cases h
  | fuel + 1, finished, [], result, h => by
    cases h
    simp
  | fuel + 1, finished, x :: scratch, result, h => by
    have hdone : ¬ InlinedAt inline k x →
        scratchLoop store inline k fuel (finished ++ [x]) scratch = some result →
        (∀ y, y ∈ result ↔ y ∈ finished ∨ ∃ x' ∈ x :: scratch, ExpandedAt store inline k x' y) ∧
          ((∀ y ∈ result, EndsAt store inline k y) →
            ∀ x' ∈ x :: scratch, EndsAt store inline k x') := by
      intro hx hloop
      obtain ⟨hmem, hends⟩ := scratchLoop_spec hloop
      refine ⟨fun y => ?_, fun hresult => ?_⟩
      · rw [hmem, mem_append, mem_singleton, exists_mem_cons_iff, expandedAt_iff_eq hx, or_assoc]
      · rw [forall_mem_cons]
        refine ⟨hresult x ((hmem x).mpr (Or.inl ?_)), hends hresult⟩
        exact mem_append_right _ mem_cons_self
    unfold scratchLoop at h
    cases hstep : x.steps[k]? with
    | none =>
      rw [hstep] at h
      exact hdone (not_inlinedAt_of_none hstep) h
    | some step =>
      rw [hstep] at h
      dsimp only at h
      split at h
      · rename_i hinline
        obtain ⟨hmem, hends⟩ := scratchLoop_spec h
        have hx : InlinedAt inline k x := ⟨step, hstep, hinline⟩
        refine ⟨fun y => ?_, fun hresult => ?_⟩
        · rw [hmem, exists_mem_cons_iff, expandedAt_iff_exists hx]
          simp only [mem_append, or_and_right, exists_or, substitutedAt_iff hstep hinline]
        · rw [forall_mem_cons]
          have hall := hends hresult
          refine ⟨endsAt_of_substituted hx fun y hy => ?_, fun x' hx' =>
            hall x' (mem_append_right _ hx')⟩
          rw [substitutedAt_iff hstep hinline] at hy
          exact hall y (mem_append_left _ hy)
      · rename_i hinline
        exact hdone (not_inlinedAt hstep hinline) h

theorem scratchLoop_mono : ∀ {fuel fuel' : Nat} {finished scratch result : List Production},
    scratchLoop store inline k fuel finished scratch = some result → fuel ≤ fuel' →
    scratchLoop store inline k fuel' finished scratch = some result
  | 0, _, _, _, _, h, _ => by cases h
  | fuel + 1, 0, _, _, _, _, hle => by omega
  | fuel + 1, fuel' + 1, finished, [], result, h, _ => h
  | fuel + 1, fuel' + 1, finished, x :: scratch, result, h, hle => by
    have hle' := Nat.le_of_succ_le_succ hle
    unfold scratchLoop at h ⊢
    cases hstep : x.steps[k]? with
    | none =>
      rw [hstep] at h
      exact scratchLoop_mono h hle'
    | some step =>
      rw [hstep] at h
      dsimp only at h ⊢
      split at h
      · rename_i hinline
        rw [if_pos hinline]
        exact scratchLoop_mono h hle'
      · rename_i hinline
        rw [if_neg hinline]
        exact scratchLoop_mono h hle'

theorem exists_scratchLoop (hx : EndsAt store inline k x) :
    ∀ {finished scratch : List Production},
      (∀ finished', ∃ fuel result,
        scratchLoop store inline k fuel finished' scratch = some result) →
      ∃ fuel result, scratchLoop store inline k fuel finished (x :: scratch) = some result := by
  unfold EndsAt at hx
  generalize hw : x.rest k = w at hx
  induction hx generalizing x with
  | intro w _ ih =>
    subst hw
    intro finished scratch hscratch
    by_cases hinlined : InlinedAt inline k x
    · -- The replacements are read one after the other.
      have hlist : ∀ ys : List Production, (∀ y ∈ ys, SubstitutedAt store inline k x y) →
          ∀ finished', ∃ fuel result,
            scratchLoop store inline k fuel finished' (ys ++ scratch) = some result := by
        intro ys
        induction ys with
        | nil => exact fun _ => hscratch
        | cons y ys ihys =>
          intro hys finished'
          rw [forall_mem_cons] at hys
          exact ih _ ((unfolds_iff hinlined).mpr ⟨y, hys.1, rfl⟩) rfl (ihys hys.2)
      obtain ⟨step, hstep, hinline⟩ := hinlined
      obtain ⟨fuel, result, hloop⟩ := hlist (replacements store x k step)
        (fun y hy => (substitutedAt_iff hstep hinline).mpr hy) finished
      refine ⟨fuel + 1, result, ?_⟩
      rw [scratchLoop, hstep]
      dsimp only
      rw [if_pos hinline, hloop]
    · obtain ⟨fuel, result, hloop⟩ := hscratch (finished ++ [x])
      refine ⟨fuel + 1, result, ?_⟩
      rw [scratchLoop]
      cases hstep : x.steps[k]? with
      | none => exact hloop
      | some step =>
        dsimp only
        rw [if_neg fun hinline => hinlined ⟨step, hstep, hinline⟩, hloop]

/-! ### The builder -/

/-- The productions with these ids. -/
def Listed (productions : List Production) (ids : List Nat) (ys : List Production) : Prop :=
  List.Forall₂ (fun id y => productions[id]? = some y) ids ys

variable {productions ys : List Production} {ids : List Nat}

theorem Listed.mono {productions' : List Production} (h : Listed productions ids ys)
    (hle : productions <+: productions') :
    Listed productions' ids ys :=
  h.imp fun _ _ hget => getElem?_of_isPrefix hle hget

theorem Listed.exists_id (h : Listed productions ids ys) (hy : y ∈ ys) :
    ∃ id ∈ ids, productions[id]? = some y := by
  induction h with
  | nil => cases hy
  | @cons id y' ids ys hid _ ih =>
    rcases mem_cons.mp hy with rfl | hy
    · exact ⟨id, mem_cons_self, hid⟩
    · obtain ⟨id', hid', hget⟩ := ih hy
      exact ⟨id', mem_cons_of_mem _ hid', hget⟩

variable {id : Nat}

theorem Listed.exists_production (h : Listed productions ids ys) (hid : id ∈ ids) :
    ∃ y ∈ ys, productions[id]? = some y := by
  induction h with
  | nil => cases hid
  | @cons id' y ids ys hget _ ih =>
    rcases mem_cons.mp hid with rfl | hid
    · exact ⟨y, mem_cons_self, hget⟩
    · obtain ⟨y', hy', hget'⟩ := ih hid
      exact ⟨y', mem_cons_of_mem _ hy', hget'⟩

namespace InlineBuilder

/-- A builder after some steps: ids and entries stay. -/
structure Grows (b b' : InlineBuilder) : Prop where
  productions : b.productions <+: b'.productions
  map : ∀ e ids, b.map.get? e = some ids → b'.map.get? e = some ids

theorem Grows.refl (b : InlineBuilder) : b.Grows b := ⟨prefix_rfl, fun _ _ h => h⟩

theorem Grows.trans {b b' b'' : InlineBuilder} (h : b.Grows b') (h' : b'.Grows b'') : b.Grows b'' :=
  ⟨h.productions.trans h'.productions, fun e ids hids => h'.map e ids (h.map e ids hids)⟩

theorem Grows.getElem? {b b' : InlineBuilder} (h : b.Grows b') {id : Nat} {x : Production}
    (hx : b.productions[id]? = some x) : b'.productions[id]? = some x :=
  getElem?_of_isPrefix h.productions hx

/-- An entry of the map: the expansions of its production, which end only if the production
does. -/
structure Entry (store : ProductionStore) (inline : List Symbol) (productions : List Production)
    (id k : Nat) (ids : List Nat) (x : Production) (ys : List Production) : Prop where
  production : productions[id]? = some x
  inlined : InlinedAt inline k x
  listed : Listed productions ids ys
  expanded : ∀ y, y ∈ ys ↔ ExpandedAt store inline k x y
  ends : (∀ y ∈ ys, EndsAt store inline k y) → EndsAt store inline k x

theorem Entry.mono {productions productions' : List Production} {id k : Nat} {ids : List Nat}
    {x : Production} {ys : List Production} (h : Entry store inline productions id k ids x ys)
    (hle : productions <+: productions') : Entry store inline productions' id k ids x ys :=
  { h with
    production := getElem?_of_isPrefix hle h.production
    listed := h.listed.mono hle }

/-- All entries of the map are what they should be. -/
def Valid (store : ProductionStore) (inline : List Symbol) (b : InlineBuilder) : Prop :=
  ∀ id k ids, b.map.get? (id, k) = some ids →
    ∃ x ys, Entry store inline b.productions id k ids x ys

theorem storeProduction_spec (b : InlineBuilder) (p : Production) :
    (b.storeProduction p).2.productions[(b.storeProduction p).1]? = some p ∧
      b.productions <+: (b.storeProduction p).2.productions ∧
      (b.storeProduction p).2.map = b.map := by
  unfold storeProduction
  split
  · rename_i id hfind
    have hid := find?_some hfind
    rw [decide_eq_true_eq] at hid
    exact ⟨hid, prefix_rfl, rfl⟩
  · exact ⟨by simp, prefix_append _ _, rfl⟩

theorem storeProductions_spec : ∀ (ps : List Production) (b : InlineBuilder),
    Listed (b.storeProductions ps).2.productions (b.storeProductions ps).1 ps ∧
      b.productions <+: (b.storeProductions ps).2.productions ∧
      (b.storeProductions ps).2.map = b.map
  | [], b => ⟨.nil, prefix_rfl, rfl⟩
  | p :: ps, b => by
    obtain ⟨hid, hle, hmap⟩ := b.storeProduction_spec p
    obtain ⟨hids, hle', hmap'⟩ := storeProductions_spec ps (b.storeProduction p).2
    exact ⟨.cons (getElem?_of_isPrefix hle' hid) hids, hle.trans hle', hmap'.trans hmap⟩

end InlineBuilder

open InlineBuilder

variable {b b' : InlineBuilder} {fuel : Nat}

theorem inlineProductionAtStep_spec (hvalid : b.Valid store inline)
    (hx : b.productions[id]? = some x) (hinlined : InlinedAt inline k x)
    (h : inlineProductionAtStep store inline fuel b id k = some (ids, b')) :
    b'.Valid store inline ∧ b.Grows b' ∧ b'.map.get? (id, k) = some ids := by
  unfold inlineProductionAtStep at h
  cases hget : b.map.get? (id, k) with
  | some ids' =>
    rw [hget] at h
    cases h
    exact ⟨hvalid, .refl b, hget⟩
  | none =>
    rw [hget] at h
    dsimp only [Option.bind_eq_bind] at h
    rw [hx, Option.bind_some, Option.bind_eq_some_iff] at h
    obtain ⟨scratch, hscratch, h⟩ := h
    obtain ⟨hlisted, hle, hmap⟩ := b.storeProductions_spec scratch
    cases h
    obtain ⟨hmem, hends⟩ := scratchLoop_spec hscratch
    refine ⟨fun id' k' ids' hids' => ?_, ⟨hle, fun e ids' hids' => ?_⟩, ?_⟩
    · dsimp only at hids' ⊢
      rw [IndexMap.get?_insert] at hids'
      split at hids'
      · rename_i heq
        cases heq
        cases hids'
        refine ⟨x, scratch, getElem?_of_isPrefix hle hx, hinlined, hlisted, fun y => ?_, fun hys => ?_⟩
        · rw [hmem]
          simp
        · exact hends hys x mem_cons_self
      · rw [hmap] at hids'
        obtain ⟨x', ys, hentry⟩ := hvalid id' k' ids' hids'
        exact ⟨x', ys, hentry.mono hle⟩
    · dsimp only
      rw [IndexMap.get?_insert, hmap]
      split
      · rename_i heq
        rw [← heq, hget] at hids'
        cases hids'
      · exact hids'
    · dsimp only
      rw [IndexMap.get?_insert, if_pos rfl]

variable {fuel' : Nat}

theorem inlineProductionAtStep_mono {r : List Nat × InlineBuilder}
    (h : inlineProductionAtStep store inline fuel b id k = some r) (hle : fuel ≤ fuel') :
    inlineProductionAtStep store inline fuel' b id k = some r := by
  unfold inlineProductionAtStep at h ⊢
  cases hget : b.map.get? (id, k) with
  | some ids => rwa [hget] at h
  | none =>
    rw [hget] at h
    dsimp only [Option.bind_eq_bind] at h ⊢
    rw [Option.bind_eq_some_iff] at h
    obtain ⟨x, hx, h⟩ := h
    rw [Option.bind_eq_some_iff] at h
    obtain ⟨scratch, hscratch, h⟩ := h
    rw [hx, Option.bind_some, scratchLoop_mono hscratch hle]
    exact h

/-! ### The worklist -/

/-- From a production and a step to the next one: over a step, or to what stands for the
production. -/
def Moves (inline : List Symbol) (productions : List Production)
    (map : IndexMap (Nat × Nat) (List Nat)) (e e' : Nat × Nat) : Prop :=
  (∃ x step, productions[e.1]? = some x ∧ x.steps[e.2]? = some step ∧ step.symbol ∉ inline ∧
      e' = (e.1, e.2 + 1)) ∨
    ∃ ids, map.get? e = some ids ∧ ∃ id ∈ ids, e' = (id, e.2)

/-- Wherever one gets from `e`, there is an entry for an inlined symbol. -/
def Covered (inline : List Symbol) (productions : List Production)
    (map : IndexMap (Nat × Nat) (List Nat)) (e : Nat × Nat) : Prop :=
  ∀ e', ReflTransGen (Moves inline productions map) e e' → ∀ x, productions[e'.1]? = some x →
    InlinedAt inline e'.2 x → (map.get? e').isSome = true

/-- Where nothing is inlined one can only go over the step, and else only to an expansion. -/
theorem Moves.cases (hvalid : b.Valid store inline) (hx : b.productions[id]? = some x)
    {e : Nat × Nat} (h : Moves inline b.productions b.map (id, k) e) :
    (¬ InlinedAt inline k x ∧ x.steps[k]?.isSome = true ∧ e = (id, k + 1)) ∨
      (InlinedAt inline k x ∧ ∃ ids, b.map.get? (id, k) = some ids ∧ ∃ id' ∈ ids, e = (id', k)) := by
  rcases h with ⟨y, step, hy, hstep, hinline, rfl⟩ | ⟨ids, hids, id', hid', rfl⟩
  · obtain rfl := Option.some_inj.mp (hx.symm.trans hy)
    exact Or.inl ⟨not_inlinedAt hstep hinline, Option.isSome_iff_exists.mpr ⟨step, hstep⟩, rfl⟩
  · obtain ⟨y, ys, hentry⟩ := hvalid id k ids hids
    obtain rfl := Option.some_inj.mp (hx.symm.trans hentry.production)
    exact Or.inr ⟨hentry.inlined, ids, hids, id', hid', rfl⟩

/-- The word at `e` is read to its end, and what is read is covered. -/
structure Finished (store : ProductionStore) (inline : List Symbol) (b : InlineBuilder)
    (e : Nat × Nat) : Prop where
  covered : Covered inline b.productions b.map e
  ends : ∀ x, b.productions[e.1]? = some x → EndsAt store inline e.2 x

section Finished

variable {b b' : InlineBuilder} {id k : Nat} {x : Production}

theorem covered_of_moves (hx : b.productions[id]? = some x)
    (hentry : InlinedAt inline k x → (b.map.get? (id, k)).isSome = true)
    (hnext : ∀ e, Moves inline b.productions b.map (id, k) e →
      Covered inline b.productions b.map e) :
    Covered inline b.productions b.map (id, k) := by
  intro e hmoves
  rcases hmoves.cases_head with rfl | ⟨e₁, hfirst, hrest⟩
  · intro y hy hinlined
    obtain rfl := Option.some_inj.mp (hx.symm.trans hy)
    exact hentry hinlined
  · exact hnext e₁ hfirst e hrest

theorem finished_of_none (hvalid : b.Valid store inline) (hx : b.productions[id]? = some x)
    (hstep : x.steps[k]? = none) : Finished store inline b (id, k) where
  covered := by
    have hnot : ¬ InlinedAt inline k x := not_inlinedAt_of_none hstep
    refine covered_of_moves hx (fun h => absurd h hnot) fun e hmoves => ?_
    rcases hmoves.cases hvalid hx with ⟨-, hsome, -⟩ | ⟨hinlined, -⟩
    · rw [hstep] at hsome
      cases hsome
    · exact absurd hinlined hnot
  ends y hy := by
    obtain rfl := Option.some_inj.mp (hx.symm.trans hy)
    exact endsAt_of_none hstep

theorem finished_of_succ {step : ProductionStep} (hvalid : b.Valid store inline)
    (hx : b.productions[id]? = some x) (hstep : x.steps[k]? = some step)
    (hinline : step.symbol ∉ inline) (h : Finished store inline b (id, k + 1)) :
    Finished store inline b (id, k) where
  covered := by
    have hnot := not_inlinedAt hstep hinline
    refine covered_of_moves hx (fun h => absurd h hnot) fun e hmoves => ?_
    rcases hmoves.cases hvalid hx with ⟨-, -, rfl⟩ | ⟨hinlined, -⟩
    · exact h.covered
    · exact absurd hinlined hnot
  ends y hy := by
    obtain rfl := Option.some_inj.mp (hx.symm.trans hy)
    exact endsAt_of_succ hstep hinline (h.ends x hx)

theorem finished_of_entry {ids : List Nat} (hvalid : b.Valid store inline)
    (hids : b.map.get? (id, k) = some ids)
    (h : ∀ id' ∈ ids, Finished store inline b (id', k)) : Finished store inline b (id, k) := by
  obtain ⟨x, ys, hentry⟩ := hvalid id k ids hids
  refine ⟨covered_of_moves hentry.production (fun _ => by rw [hids]; rfl) fun e hmoves => ?_,
    fun y hy => ?_⟩
  · rcases hmoves.cases hvalid hentry.production with ⟨hnot, -⟩ | ⟨-, ids', hids', id', hid', rfl⟩
    · exact absurd hentry.inlined hnot
    · obtain rfl := Option.some_inj.mp (hids.symm.trans hids')
      exact (h id' hid').covered
  · obtain rfl := Option.some_inj.mp (hentry.production.symm.trans hy)
    refine hentry.ends fun y hy => ?_
    obtain ⟨id', hid', hget⟩ := hentry.listed.exists_id hy
    exact (h id' hid').ends y hget

/-- All of these are ids. -/
def Known (b : InlineBuilder) (es : List (Nat × Nat)) : Prop :=
  ∀ e ∈ es, ∃ x, b.productions[e.1]? = some x

theorem Known.mono {es : List (Nat × Nat)} (h : Known b es) (hgrows : b.Grows b') : Known b' es :=
  fun e he => (h e he).imp fun _ hx => hgrows.getElem? hx

theorem known_entry {ids : List Nat} (hvalid : b.Valid store inline)
    (hids : b.map.get? (id, k) = some ids) : Known b (ids.map fun id => (id, k)) := by
  obtain ⟨x, ys, hentry⟩ := hvalid id k ids hids
  intro e he
  obtain ⟨id', hid', rfl⟩ := mem_map.mp he
  obtain ⟨y, -, hget⟩ := hentry.listed.exists_production hid'
  exact ⟨y, hget⟩

end Finished

/-- **The loop reads every word of its worklist to the end**, and covers what it reads. -/
theorem worklistLoop_spec : ∀ {fuel : Nat} {b b' : InlineBuilder} {survived survived' : Bool}
    {finished worklist : List (Nat × Nat)},
    worklistLoop store inline fuel b survived finished worklist = some (b', survived') →
    b.Valid store inline → Known b finished → Known b worklist →
    b'.Valid store inline ∧ b.Grows b' ∧
      ∀ e, e ∈ finished ∨ e ∈ worklist → Finished store inline b' e
  | 0, _, _, _, _, _, _, h, _, _, _ => by cases h
  | fuel + 1, b, b', survived, survived', finished, [], h, hvalid, hfinished, _ => by
    unfold worklistLoop at h
    split at h
    · rename_i hnil
      cases h
      exact ⟨hvalid, .refl b, by simp [hnil]⟩
    · obtain ⟨hvalid', hgrows, hall⟩ := worklistLoop_spec h hvalid (by simp [Known]) hfinished
      exact ⟨hvalid', hgrows, fun e he => hall e (Or.inr (by simpa using he))⟩
  | fuel + 1, b, b', survived, survived', finished, (id, k) :: worklist, h, hvalid, hfinished,
      hworklist => by
      obtain ⟨⟨x, hx⟩, hworklist⟩ := forall_mem_cons.mp hworklist
      have hsplit : ∀ {P : Nat × Nat → Prop}, (∀ e, e ∈ finished ∨ e ∈ worklist → P e) →
          P (id, k) → ∀ e, e ∈ finished ∨ e ∈ (id, k) :: worklist → P e := by
        intro P hall hfirst e he
        rw [mem_cons] at he
        rcases he with hmem | rfl | hmem
        · exact hall e (Or.inl hmem)
        · exact hfirst
        · exact hall e (Or.inr hmem)
      unfold worklistLoop at h
      rw [InlineBuilder.productionStepForId, hx, Option.bind_some] at h
      cases hstep : x.steps[k]? with
      | none =>
        rw [hstep] at h
        obtain ⟨hvalid', hgrows, hall⟩ := worklistLoop_spec h hvalid hfinished hworklist
        exact ⟨hvalid', hgrows, hsplit hall (finished_of_none hvalid' (hgrows.getElem? hx) hstep)⟩
      | some step =>
        rw [hstep] at h
        dsimp only at h
        split at h
        · rename_i hinline
          split at h
          · cases h
          · rename_i ids b₁ hids
            obtain ⟨hvalid₁, hgrows₁, hentry⟩ :=
              inlineProductionAtStep_spec hvalid hx ⟨step, hstep, hinline⟩ hids
            have hknown : Known b₁ (ids.map (fun id => (id, k)) ++ worklist) :=
              forall_mem_append.mpr
                ⟨known_entry hvalid₁ hentry, Known.mono hworklist hgrows₁⟩
            obtain ⟨hvalid', hgrows, hall⟩ :=
              worklistLoop_spec h hvalid₁ (Known.mono hfinished hgrows₁) hknown
            refine ⟨hvalid', hgrows₁.trans hgrows, hsplit (fun e he => hall e ?_) ?_⟩
            · exact he.imp_right (mem_append_right _)
            · refine finished_of_entry hvalid' (hgrows.map _ _ hentry) fun id' hid' => ?_
              exact hall _ (Or.inr (mem_append_left _ (mem_map.mpr ⟨id', hid', rfl⟩)))
        · rename_i hinline
          have hknown : Known b (finished ++ [(id, k + 1)]) := by
            refine forall_mem_append.mpr ⟨hfinished, ?_⟩
            rw [forall_mem_singleton]
            exact ⟨x, hx⟩
          obtain ⟨hvalid', hgrows, hall⟩ := worklistLoop_spec h hvalid hknown hworklist
          refine ⟨hvalid', hgrows, hsplit (fun e he => hall e ?_) ?_⟩
          · exact he.imp_left (mem_append_left _)
          · refine finished_of_succ hvalid' (hgrows.getElem? hx) hstep hinline (hall _ (Or.inl ?_))
            exact mem_append_right _ mem_cons_self

theorem worklistLoop_mono : ∀ {fuel fuel' : Nat} {b : InlineBuilder} {survived : Bool}
    {finished worklist : List (Nat × Nat)} {r : InlineBuilder × Bool},
    worklistLoop store inline fuel b survived finished worklist = some r → fuel ≤ fuel' →
    worklistLoop store inline fuel' b survived finished worklist = some r
  | 0, _, _, _, _, _, _, h, _ => by cases h
  | fuel + 1, 0, _, _, _, _, _, _, hle => by omega
  | fuel + 1, fuel' + 1, b, survived, finished, [], r, h, hle => by
    unfold worklistLoop at h ⊢
    split at h
    · rename_i hnil
      rw [if_pos hnil]
      exact h
    · rename_i hnil
      rw [if_neg hnil]
      exact worklistLoop_mono h (Nat.le_of_succ_le_succ hle)
  | fuel + 1, fuel' + 1, b, survived, finished, (id, k) :: worklist, r, h, hle => by
    have hle' := Nat.le_of_succ_le_succ hle
    unfold worklistLoop at h ⊢
    cases hstep : b.productionStepForId id k with
    | none =>
      rw [hstep] at h
      exact worklistLoop_mono h hle'
    | some step =>
      rw [hstep] at h
      dsimp only at h ⊢
      split at h
      · rename_i hinline
        rw [if_pos hinline]
        split at h
        · cases h
        · rename_i ids b₁ hids
          rw [inlineProductionAtStep_mono hids hle']
          exact worklistLoop_mono h hle'
      · rename_i hinline
        rw [if_neg hinline]
        exact worklistLoop_mono h hle'

/-- The symbols behind a step, by the id of the production. -/
def restAt (b : InlineBuilder) (e : Nat × Nat) : List Symbol :=
  (b.productions[e.1]?.map fun x => x.rest e.2).getD []

theorem restAt_eq (hx : b.productions[id]? = some x) (k : Nat) : restAt b (id, k) = x.rest k := by
  rw [restAt, hx]
  rfl

theorem map_restAt (hgrows : b.Grows b') {es : List (Nat × Nat)} (h : Known b es) :
    es.map (restAt b') = es.map (restAt b) := by
  refine map_congr_left fun e he => ?_
  obtain ⟨x, hx⟩ := h e he
  rw [restAt, restAt, hx, hgrows.getElem? hx]

theorem exists_inlineProductionAtStep (hx : b.productions[id]? = some x)
    (hends : EndsAt store inline k x) :
    ∃ fuel r, inlineProductionAtStep store inline fuel b id k = some r := by
  unfold inlineProductionAtStep
  cases hget : b.map.get? (id, k) with
  | some ids => exact ⟨0, _, rfl⟩
  | none =>
    have hscratch : ∃ fuel scratch,
        scratchLoop store inline k fuel [] [x] = some scratch :=
      exists_scratchLoop hends fun finished => ⟨1, finished, rfl⟩
    obtain ⟨fuel, scratch, hloop⟩ := hscratch
    refine ⟨fuel, ((b.storeProductions scratch).1, { (b.storeProductions scratch).2 with
      map := (b.storeProductions scratch).2.map.insert (id, k)
        (b.storeProductions scratch).1 }), ?_⟩
    dsimp only [Option.bind_eq_bind]
    rw [hx, Option.bind_some, hloop, Option.bind_some]
    rfl

theorem transGen_rest (hx : InlinedAt inline k x) (h : ExpandedAt store inline k x y) :
    TransGen (inlineMacros store inline).Unfolds (x.rest k) (y.rest k) := by
  obtain ⟨z, hz, hrest⟩ := (expandedAt_iff_exists hx).mp h
  refine TransGen.head' ((unfolds_iff hx).mpr ⟨z, hz, rfl⟩) ?_
  exact hrest.1.lift (fun p : Production => p.rest k) fun a c hac => by
    obtain ⟨step, hstep, hinline, -⟩ := id hac
    exact (unfolds_iff ⟨step, hstep, hinline⟩).mpr ⟨c, hac, rfl⟩

theorem cutExpand_of_perm {α : Type*} {r : α → α → Prop} {ws ws' vs ts : List α} {w : α}
    (hws : ws.Perm (w :: vs)) (hws' : ws'.Perm (ts ++ vs)) (h : ∀ v ∈ ts, r v w) :
    CutExpand r (ws' : Multiset α) (ws : Multiset α) := by
  refine ⟨(ts : Multiset α), w, h, ?_⟩
  rw [Multiset.coe_eq_coe.mpr hws, Multiset.coe_eq_coe.mpr hws', ← Multiset.cons_coe,
    ← Multiset.coe_add, add_comm, Multiset.singleton_add, Multiset.cons_add, add_comm (ts : Multiset α)]

/-- A word is smaller if it is what is left of reading. -/
def Smaller (store : ProductionStore) (inline : List Symbol) (v w : List Symbol) : Prop :=
  TransGen (inlineMacros store inline).Unfolds w v

theorem exists_worklistLoop_cons (hall : ∀ w, (inlineMacros store inline).Terminates w)
    {survived : Bool} {finished worklist : List (Nat × Nat)} (hvalid : b.Valid store inline)
    (hfinished : Known b finished) (hworklist : Known b ((id, k) :: worklist)) (ih : ∀ (b' :
      InlineBuilder) (survived : Bool) (finished' worklist' : List (Nat × Nat)), b'.Valid store
      inline → Known b' finished' → Known b' worklist' → CutExpand (Smaller store inline)
      ((finished' ++ worklist').map (restAt b') : Multiset (List Symbol)) ((finished ++ (id, k) ::
      worklist).map (restAt b) : Multiset (List Symbol)) → ∃ fuel r, worklistLoop store inline
      fuel b' survived finished' worklist' = some r) :
    ∃ fuel r, worklistLoop store inline fuel b survived finished ((id, k) :: worklist) = some r := by
  obtain ⟨⟨x, hx⟩, hworklist⟩ := forall_mem_cons.mp hworklist
  have hsmaller : ∀ (b' : InlineBuilder) (es finished' worklist' : List (Nat × Nat)),
      b.Grows b' → (finished' ++ worklist').Perm (es ++ (finished ++ worklist)) →
      (∀ e ∈ es, Smaller store inline (restAt b' e) (x.rest k)) →
      CutExpand (Smaller store inline)
        ((finished' ++ worklist').map (restAt b') : Multiset (List Symbol))
        ((finished ++ (id, k) :: worklist).map (restAt b) : Multiset (List Symbol)) := by
    intro b' es finished' worklist' hgrows hperm hes
    have hbefore : ((finished ++ (id, k) :: worklist).map (restAt b)).Perm
        (x.rest k :: (finished ++ worklist).map (restAt b)) := by
      rw [← restAt_eq hx, ← List.map_cons]
      exact perm_middle.map _
    have hafter : ((finished' ++ worklist').map (restAt b')).Perm
        (es.map (restAt b') ++ (finished ++ worklist).map (restAt b)) := by
      rw [← map_restAt hgrows (forall_mem_append.mpr ⟨hfinished, hworklist⟩), ← map_append]
      exact hperm.map _
    refine cutExpand_of_perm hbefore hafter fun v hv => ?_
    obtain ⟨e, he, rfl⟩ := mem_map.mp hv
    exact hes e he
  cases hstep : x.steps[k]? with
  | none =>
    obtain ⟨fuel, r, hloop⟩ := ih b true finished worklist hvalid hfinished hworklist
      (hsmaller b [] finished worklist (.refl b) (.refl _) (by simp))
    refine ⟨fuel + 1, r, ?_⟩
    rw [worklistLoop, InlineBuilder.productionStepForId, hx, Option.bind_some, hstep]
    exact hloop
  | some step =>
    by_cases hinline : step.symbol ∈ inline
    · obtain ⟨fuel₁, ⟨ids, b₁⟩, hids⟩ :=
        exists_inlineProductionAtStep hx (hall (x.rest k))
      obtain ⟨hvalid₁, hgrows, hget⟩ :=
        inlineProductionAtStep_spec hvalid hx ⟨step, hstep, hinline⟩ hids
      have hperm : (finished ++ (ids.map (fun id => (id, k)) ++ worklist)).Perm
          (ids.map (fun id => (id, k)) ++ (finished ++ worklist)) := by
        simp only [← append_assoc]
        exact perm_append_comm.append_right _
      have hes : ∀ e ∈ ids.map (fun id => (id, k)),
          Smaller store inline (restAt b₁ e) (x.rest k) := by
        intro e he
        obtain ⟨id', hid', rfl⟩ := mem_map.mp he
        obtain ⟨x', ys, hentry⟩ := hvalid₁ id k ids hget
        obtain rfl := Option.some_inj.mp ((hgrows.getElem? hx).symm.trans hentry.production)
        obtain ⟨y, hy, hget'⟩ := hentry.listed.exists_production hid'
        rw [restAt_eq hget']
        exact transGen_rest hentry.inlined ((hentry.expanded y).mp hy)
      obtain ⟨fuel₂, r, hloop⟩ := ih b₁ survived finished
        (ids.map (fun id => (id, k)) ++ worklist) hvalid₁ (Known.mono hfinished hgrows)
        (forall_mem_append.mpr ⟨known_entry hvalid₁ hget, Known.mono hworklist hgrows⟩)
        (hsmaller b₁ _ _ _ hgrows hperm hes)
      refine ⟨max fuel₁ fuel₂ + 1, r, ?_⟩
      rw [worklistLoop, InlineBuilder.productionStepForId, hx, Option.bind_some, hstep]
      dsimp only
      rw [if_pos hinline, inlineProductionAtStep_mono hids (le_max_left _ _)]
      exact worklistLoop_mono hloop (le_max_right _ _)
    · have hknown : Known b (finished ++ [(id, k + 1)]) := by
        refine forall_mem_append.mpr ⟨hfinished, ?_⟩
        rw [forall_mem_singleton]
        exact ⟨x, hx⟩
      have hperm : (finished ++ [(id, k + 1)] ++ worklist).Perm
          ([(id, k + 1)] ++ (finished ++ worklist)) := by
        rw [← append_assoc]
        exact perm_append_comm.append_right _
      have hes : ∀ e ∈ [(id, k + 1)], Smaller store inline (restAt b e) (x.rest k) := by
        rw [forall_mem_singleton, restAt_eq hx]
        exact .single (unfolds_of_not_inlined hstep hinline)
      obtain ⟨fuel, r, hloop⟩ := ih b survived (finished ++ [(id, k + 1)]) worklist hvalid
        hknown hworklist (hsmaller b _ _ _ (.refl b) hperm hes)
      refine ⟨fuel + 1, r, ?_⟩
      rw [worklistLoop, InlineBuilder.productionStepForId, hx, Option.bind_some, hstep]
      dsimp only
      rw [if_neg hinline, hloop]

/-- **The loop ends if all words do.** Each turn replaces a word by finitely many smaller ones. -/
theorem exists_worklistLoop (hall : ∀ w, (inlineMacros store inline).Terminates w)
    (b : InlineBuilder) (survived : Bool) (finished worklist : List (Nat × Nat))
    (hvalid : b.Valid store inline) (hfinished : Known b finished) (hworklist : Known b worklist) :
    ∃ fuel r, worklistLoop store inline fuel b survived finished worklist = some r := by
  have hwf : WellFounded (Smaller store inline) := by
    have hword : WellFounded fun v w => (inlineMacros store inline).Unfolds w v := ⟨hall⟩
    refine Subrelation.wf (fun {v w} h => ?_) hword.transGen
    exact transGen_swap.mpr h
  generalize hM : ((finished ++ worklist).map (restAt b) : Multiset (List Symbol)) = M
  induction hwf.cutExpand.apply M generalizing b survived finished worklist with
  | intro M _ ih =>
    subst hM
    cases worklist with
    | cons e worklist =>
      exact exists_worklistLoop_cons hall hvalid hfinished hworklist
        fun b' survived finished' worklist' hvalid' hfinished' hworklist' hless =>
          ih _ hless b' survived finished' worklist' hvalid' hfinished' hworklist' rfl
    | nil =>
      cases finished with
      | nil => exact ⟨1, _, rfl⟩
      | cons e finished =>
        -- The next round begins, with the same words.
        rw [append_nil] at ih
        have hround : ∃ fuel r,
            worklistLoop store inline fuel b survived [] (e :: finished) = some r :=
          exists_worklistLoop_cons hall hvalid (by simp [Known]) hfinished
            fun b' survived finished' worklist' hvalid' hfinished' hworklist' hless =>
              ih _ hless b' survived finished' worklist' hvalid' hfinished' hworklist' rfl
        obtain ⟨fuel, r, hloop⟩ := hround
        refine ⟨fuel + 1, r, ?_⟩
        rw [worklistLoop, if_neg (cons_ne_nil _ _), hloop]

/-! ### All productions -/

theorem Covered.grows (hvalid : b.Valid store inline) (hvalid' : b'.Valid store inline)
    (hgrows : b.Grows b') {e : Nat × Nat} (he : ∃ x, b.productions[e.1]? = some x)
    (h : Covered inline b.productions b.map e) :
    Covered inline b'.productions b'.map e := by
  have hreached : ∀ e', ReflTransGen (Moves inline b'.productions b'.map) e e' →
      ReflTransGen (Moves inline b.productions b.map) e e' ∧
        ∃ x, b.productions[e'.1]? = some x := by
    intro e' hmoves
    induction hmoves with
    | refl => exact ⟨.refl, he⟩
    | @tail e₁ e₂ _ hstep ih =>
      obtain ⟨hmoves, x, hx⟩ := ih
      obtain ⟨id, k⟩ := e₁
      rcases hstep.cases hvalid' (hgrows.getElem? hx) with
        ⟨hnot, hsome, rfl⟩ | ⟨hinlined, ids, hids, id', hid', rfl⟩
      · obtain ⟨step, hget⟩ := Option.isSome_iff_exists.mp hsome
        refine ⟨hmoves.tail (Or.inl ⟨x, step, hx, hget, fun hinline => ?_, rfl⟩), x, hx⟩
        exact hnot ⟨step, hget, hinline⟩
      · obtain ⟨ids₀, hids₀⟩ := Option.isSome_iff_exists.mp (h _ hmoves x hx hinlined)
        obtain rfl := Option.some_inj.mp ((hgrows.map _ _ hids₀).symm.trans hids)
        refine ⟨hmoves.tail (Or.inr ⟨ids₀, hids₀, id', hid', rfl⟩), ?_⟩
        exact known_entry hvalid hids₀ (id', k) (mem_map.mpr ⟨id', hid', rfl⟩)
  intro e' hmoves x hx hinlined
  obtain ⟨hmoves', y, hy⟩ := hreached e' hmoves
  obtain rfl := Option.some_inj.mp (hx.symm.trans (hgrows.getElem? hy))
  obtain ⟨ids, hids⟩ := Option.isSome_iff_exists.mp (h e' hmoves' x hy hinlined)
  rw [hgrows.map _ _ hids]
  rfl

theorem buildProduction_spec {dead dead' : List Nat}
    (h : buildProduction store inline fuel (b, dead) id = some (b', dead'))
    (hvalid : b.Valid store inline) (hid : ∃ x, b.productions[id]? = some x) :
    b'.Valid store inline ∧ b.Grows b' ∧ Finished store inline b' (id, 0) := by
  unfold buildProduction at h
  rw [Option.bind_eq_bind, Option.bind_eq_some_iff] at h
  obtain ⟨⟨b₁, survived⟩, hloop, h⟩ := h
  cases h
  obtain ⟨hvalid', hgrows, hall⟩ := worklistLoop_spec hloop hvalid (by simp [Known])
    (by simpa [Known] using hid)
  exact ⟨hvalid', hgrows, hall _ (Or.inr mem_cons_self)⟩

/-- **Every production is read to its end**, and what is read of it is covered. -/
theorem foldlM_build_spec : ∀ {ids : List Nat} {b b' : InlineBuilder}
    {dead dead' : List Nat},
    ids.foldlM (buildProduction store inline fuel) (b, dead) = some (b', dead') →
    b.Valid store inline → (∀ id ∈ ids, ∃ x, b.productions[id]? = some x) →
    b'.Valid store inline ∧ b.Grows b' ∧ ∀ id ∈ ids, Finished store inline b' (id, 0)
  | [], b, b', dead, dead', h, hvalid, _ => by
    cases h
    exact ⟨hvalid, .refl b, by simp⟩
  | id :: ids, b, b', dead, dead', h, hvalid, hids => by
    rw [foldlM_cons, Option.bind_eq_bind, Option.bind_eq_some_iff] at h
    obtain ⟨⟨b₁, dead₁⟩, hfirst, h⟩ := h
    obtain ⟨hid, hids⟩ := forall_mem_cons.mp hids
    obtain ⟨hvalid₁, hgrows₁, hfinished⟩ := buildProduction_spec hfirst hvalid hid
    obtain ⟨hvalid', hgrows, hall⟩ := foldlM_build_spec h hvalid₁ fun id' hid' =>
      (hids id' hid').imp fun _ hx => hgrows₁.getElem? hx
    refine ⟨hvalid', hgrows₁.trans hgrows, forall_mem_cons.mpr ⟨?_, hall⟩⟩
    obtain ⟨x, hx⟩ := hid
    have hx₁ := hgrows₁.getElem? hx
    refine ⟨hfinished.covered.grows hvalid₁ hvalid' hgrows ⟨x, hx₁⟩, fun y hy => ?_⟩
    obtain rfl := Option.some_inj.mp ((hgrows.getElem? hx₁).symm.trans hy)
    exact hfinished.ends x hx₁

theorem buildProduction_mono {state r : InlineBuilder × List Nat}
    (h : buildProduction store inline fuel state id = some r) (hle : fuel ≤ fuel') :
    buildProduction store inline fuel' state id = some r := by
  unfold buildProduction at h ⊢
  rw [Option.bind_eq_bind, Option.bind_eq_some_iff] at h ⊢
  obtain ⟨result, hloop, h⟩ := h
  exact ⟨result, worklistLoop_mono hloop hle, h⟩

theorem foldlM_build_mono (hle : fuel ≤ fuel') : ∀ {ids : List Nat}
    {state r : InlineBuilder × List Nat},
    ids.foldlM (buildProduction store inline fuel) state = some r →
    ids.foldlM (buildProduction store inline fuel') state = some r
  | [], _, _, h => h
  | id :: ids, state, r, h => by
    rw [foldlM_cons, Option.bind_eq_bind, Option.bind_eq_some_iff] at h ⊢
    obtain ⟨state₁, hfirst, h⟩ := h
    exact ⟨state₁, buildProduction_mono hfirst hle, foldlM_build_mono hle h⟩

theorem exists_foldlM_build (hall : ∀ w, (inlineMacros store inline).Terminates w) :
    ∀ (ids : List Nat) (b : InlineBuilder) (dead : List Nat), b.Valid store inline →
      (∀ id ∈ ids, ∃ x, b.productions[id]? = some x) →
      ∃ fuel r, ids.foldlM (buildProduction store inline fuel) (b, dead) = some r
  | [], b, dead, _, _ => ⟨0, _, rfl⟩
  | id :: ids, b, dead, hvalid, hids => by
    obtain ⟨hid, hids⟩ := forall_mem_cons.mp hids
    obtain ⟨fuel₁, ⟨b₁, survived⟩, hloop⟩ := exists_worklistLoop hall b false [] [(id, 0)] hvalid
      (by simp [Known]) (by simpa [Known] using hid)
    have hfirst : buildProduction store inline fuel₁ (b, dead) id =
        some (b₁, if survived then dead else dead ++ [id]) := by
      rw [buildProduction, hloop]
      rfl
    obtain ⟨hvalid₁, hgrows, -⟩ := buildProduction_spec hfirst hvalid hid
    obtain ⟨fuel₂, r, hrest⟩ := exists_foldlM_build hall ids b₁
      (if survived then dead else dead ++ [id]) hvalid₁
      fun id' hid' => (hids id' hid').imp fun _ hx => hgrows.getElem? hx
    refine ⟨max fuel₁ fuel₂, r, ?_⟩
    rw [foldlM_cons, buildProduction_mono hfirst (le_max_left _ _)]
    exact foldlM_build_mono (le_max_right _ _) hrest

theorem valid_empty (productions : List Production) (memo : List Nat) :
    InlineBuilder.Valid store inline ⟨productions, ⟨[], nodup_nil⟩, memo⟩ :=
  fun _ _ _ h => nomatch h

theorem known_range (productions : List Production) (id : Nat)
    (hid : id ∈ List.range productions.length) : ∃ x, productions[id]? = some x :=
  ⟨_, getElem?_eq_getElem (mem_range.mp hid)⟩

theorem buildInlines_spec {dead : List Nat} (h : buildInlines store inline fuel = some (b, dead)) :
    b.Valid store inline ∧ store.flatten <+: b.productions ∧
      ∀ id < store.flatten.length, Finished store inline b (id, 0) := by
  obtain ⟨hvalid, hgrows, hall⟩ := foldlM_build_spec h (valid_empty _ _) (known_range _)
  exact ⟨hvalid, hgrows.productions, fun id hid => hall id (mem_range.mpr hid)⟩

theorem mem_flatten_of_productionsOf {s : Symbol} {p : Production}
    (hp : p ∈ productionsOf store s) : p ∈ store.flatten := by
  unfold productionsOf at hp
  cases hget : store[s.index]? with
  | none => rw [hget] at hp; cases hp
  | some ps =>
    rw [hget] at hp
    exact mem_flatten.mpr ⟨ps, mem_of_getElem? hget, hp⟩

/-- **`build` ends exactly if no inlined rule calls itself.** -/
theorem exists_buildInlines_iff : (∃ fuel r, buildInlines store inline fuel = some r) ↔
    (inlineMacros store inline).Acyclic := by
  constructor
  · intro h
    obtain ⟨fuel, ⟨b, dead⟩, hbuild⟩ := h
    obtain ⟨-, hgrown, hall⟩ := buildInlines_spec hbuild
    refine Macros.acyclic_of_bodies fun s bodies body atEnd hs hbody => ?_
    unfold inlineMacros at hs
    split at hs
    · cases hs
      obtain ⟨p, hp, heq⟩ := mem_map.mp hbody
      rw [Prod.mk.injEq] at heq
      obtain ⟨id, hid⟩ := mem_iff_getElem?.mp (mem_flatten_of_productionsOf hp)
      have hends := (hall id (List.getElem?_eq_some_iff.mp hid).1).ends p
        (getElem?_of_isPrefix hgrown hid)
      rw [← heq.1]
      exact hends
    · cases hs
  · intro hacyclic
    exact exists_foldlM_build ((Macros.forall_terminates_iff (finite_inlineMacros _ _)).mpr hacyclic)
      _ _ _ (valid_empty _ _) (known_range _)

/-- **Inlining ends exactly if an error is found before it, or no inlined rule calls itself**, over
any number of other ones. -/
theorem processInlines_terminates_iff (names : SymbolNames) :
    (∃ fuel r, processInlines store inline fuel names = some r) ↔
      (∃ e, inline.forM (checkInlined names) = .error e) ∨ (inlineMacros store inline).Acyclic := by
  by_cases hnil : inline = []
  · subst hnil
    refine iff_of_true ⟨0, _, rfl⟩ (Or.inr fun x hx => ?_)
    obtain ⟨y, -, hy⟩ := TransGen.tail'_iff.mp hx
    have hsome := (isSome_inlineMacros store []).mp hy.isSome
    cases hsome
  · cases hcheck : inline.forM (checkInlined names) with
    | error e =>
      refine iff_of_true ⟨0, .error e, ?_⟩ (Or.inl ⟨e, rfl⟩)
      rw [processInlines, if_neg hnil, hcheck]
    | ok _ =>
      rw [← exists_buildInlines_iff, or_iff_right (by simp)]
      constructor
      · intro h
        obtain ⟨fuel, r, h⟩ := h
        rw [processInlines, if_neg hnil, hcheck] at h
        dsimp only at h
        rw [Option.bind_eq_bind, Option.bind_eq_some_iff] at h
        obtain ⟨result, hbuild, -⟩ := h
        exact ⟨fuel, result, hbuild⟩
      · intro h
        obtain ⟨fuel, result, hbuild⟩ := h
        refine ⟨fuel, (checkReachable store names result.1 result.2).map
          fun _ => (result.1.productions, result.1.map), ?_⟩
        rw [processInlines, if_neg hnil, hcheck]
        dsimp only
        rw [hbuild]
        rfl

end Loops

/-- Two inlined rules that refer to each other. -/
def mutualGrammar : InputGrammar where
  vars := [⟨"source", .named, .sym (.nonTerminal 1)⟩,
    ⟨"_a", .hidden, .seq [.sym (.terminal 0), .sym (.nonTerminal 2)]⟩,
    ⟨"_b", .hidden, .choice [.seq [.sym (.terminal 1), .sym (.nonTerminal 1)], .sym (.terminal 2)]⟩]
  inline := [.nonTerminal 1, .nonTerminal 2]

/-- Their productions. -/
def mutualStore : ProductionStore :=
  [[⟨[⟨.nonTerminal 1, .none, none, none, none, 0⟩], 0, false⟩],
    [⟨[⟨.terminal 0, .none, none, none, none, 0⟩, ⟨.nonTerminal 2, .none, none, none, none, 0⟩],
      0, false⟩],
    [⟨[⟨.terminal 1, .none, none, none, none, 0⟩, ⟨.nonTerminal 1, .none, none, none, none, 0⟩],
      0, false⟩, ⟨[⟨.terminal 2, .none, none, none, none, 0⟩], 0, false⟩]]

/-- Flattening accepts them, and they are inlined in each other forever. -/
theorem processInlines_mutual : flattenGrammar mutualGrammar [] = .ok mutualStore ∧
    ¬ ∃ fuel r, processInlines mutualStore mutualGrammar.inline fuel
      ⟨["source", "_a", "_b"], [], []⟩ = some r := by
  refine ⟨rfl, fun h => ?_⟩
  obtain ⟨fuel, r, h⟩ := h
  have hcheck : mutualGrammar.inline.forM (checkInlined ⟨["source", "_a", "_b"], [], []⟩) =
      .ok () := rfl
  rw [processInlines, if_neg (by simp [mutualGrammar]), hcheck] at h
  dsimp only at h
  rw [Option.bind_eq_bind, Option.bind_eq_some_iff] at h
  obtain ⟨result, hbuild, -⟩ := h
  have hterminal : ∀ i, ∀ t ∈ [Symbol.terminal i],
      (inlineMacros mutualStore mutualGrammar.inline t).isSome = true →
        (inlineMacros mutualStore mutualGrammar.inline).Productive t false := by
    intro i t ht hsome
    rw [isSome_inlineMacros, mem_singleton.mp ht] at hsome
    simp [mutualGrammar, Symbol.terminal, Symbol.nonTerminal] at hsome
  have hab : (inlineMacros mutualStore mutualGrammar.inline).Calls
      (.nonTerminal 1, true) (.nonTerminal 2, true) :=
    ⟨_, _, false, [.terminal 0], [], rfl, mem_cons_self, by simp, rfl, rfl, rfl, hterminal 0⟩
  have hba : (inlineMacros mutualStore mutualGrammar.inline).Calls
      (.nonTerminal 2, true) (.nonTerminal 1, true) :=
    ⟨_, _, false, [.terminal 1], [], rfl, mem_cons_self, by simp, rfl, rfl, rfl, hterminal 1⟩
  exact exists_buildInlines_iff.mp ⟨fuel, result, hbuild⟩ _ ((TransGen.single hab).tail hba)

end TreeSitter.Generate
