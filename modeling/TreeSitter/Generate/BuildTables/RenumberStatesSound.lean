import TreeSitter.Generate.BuildTables.RenumberStates
import TreeSitter.Generate.BuildTables.RemoveUnitReductionsSound

/-!
# TreeSitter.Generate.BuildTables.RenumberStatesSound

**The final renumbering is an isomorphism.** Each of the passes keeps what the states do, under the
new numbers: dropping states renames by ranks, reordering them by positions, and the new pool
renames nothing. The states 0 and 1 stay in front as long as no other state that is kept has
999999 entries (`isFinalRenumbering_iff`): their keys are no smaller than that.
-/

namespace TreeSitter.Generate

open List Library

variable {table table' table'' : ParseTable} {state state' state'' : ParseState}
  {rename rename' : Nat → Nat} {kept : Set Nat}

/-! ### Renamed states -/

theorem ParseAction.rename_rename (f g : Nat → Nat) (action : ParseAction) :
    (action.rename f).rename g = action.rename (g ∘ f) := by
  cases action <;> rfl

theorem GotoAction.rename_rename (f g : Nat → Nat) (action : GotoAction) :
    (action.rename f).rename g = action.rename (g ∘ f) := by
  cases action <;> rfl

theorem ParseAction.shiftTarget_rename (f : Nat → Nat) (action : ParseAction) :
    (action.rename f).shiftTarget = action.shiftTarget.map f := by
  cases action <;> rfl

theorem GotoAction.target_rename (f : Nat → Nat) (action : GotoAction) :
    (action.rename f).target = action.target.map f := by
  cases action <;> rfl

theorem ParseState.referencedStates_eq (state : ParseState) (table : ParseTable) :
    state.referencedStates table =
      ((state.terminalActions table).flatMap fun e => e.2.1.filterMap ParseAction.shiftTarget) ++
        state.nonterminalEntries.entries.filterMap fun e => e.2.target := by
  rw [referencedStates, terminalActions, flatMap_map]

theorem ParseState.symbolCount_eq (state : ParseState) (table : ParseTable) :
    state.symbolCount =
      (state.terminalActions table).length + state.nonterminalEntries.entries.length := by
  rw [symbolCount, terminalActions, length_map]

namespace ParseState.IsRenamed

section

variable (h : state.IsRenamed rename table table' state')

include h

theorem referencedStates :
    state'.referencedStates table' = (state.referencedStates table).map rename := by
  rw [referencedStates_eq, referencedStates_eq, h.terminals, h.gotos, IndexMap.mapValues,
    flatMap_map, filterMap_map, map_append, map_flatMap, map_filterMap]
  congr 1
  · refine flatMap_congr fun e _ => ?_
    rw [filterMap_map, map_filterMap]
    exact congrArg (List.filterMap · e.2.1) (funext (ParseAction.shiftTarget_rename rename))
  · exact congrArg (List.filterMap · _)
      (funext fun e => GotoAction.target_rename rename e.2)

theorem symbolCount : state'.symbolCount = state.symbolCount := by
  rw [symbolCount_eq state' table', symbolCount_eq state table, h.terminals, h.gotos,
    length_map, IndexMap.mapValues, length_map]

theorem trans (h' : state'.IsRenamed rename' table' table'' state'') :
    state.IsRenamed (rename' ∘ rename) table table'' state'' := by
  constructor
  · rw [h'.terminals, h.terminals, map_map]
    refine map_congr_left fun e _ => ?_
    simp only [Function.comp_apply, map_map, Prod.mk.injEq, true_and, and_true]
    exact map_congr_left fun action _ => ParseAction.rename_rename rename rename' action
  · rw [h'.gotos, h.gotos]
    simp only [IndexMap.mapValues, map_map, IndexMap.mk.injEq]
    refine map_congr_left fun e _ => ?_
    exact congrArg (Prod.mk e.1) (GotoAction.rename_rename rename rename' e.2)
  · have hrest := congrArg (fun s : ParseState => { s with
      terminalEntries := state.terminalEntries
      nonterminalEntries := state.nonterminalEntries }) h'.rest
    exact hrest.trans h.rest

end

end ParseState.IsRenamed

/-! ### Renamed tables -/

namespace ParseTable.IsRenamed

theorem trans (h : table.IsRenamed table' kept rename)
    (h' : table'.IsRenamed table'' (Set.Iio table'.states.length) rename') :
    table.IsRenamed table'' kept (rename' ∘ rename) := by
  refine ⟨h'.bijOn.comp h.bijOn, fun i hi state hstate => ?_⟩
  obtain ⟨state', hstate', hrenamed⟩ := h.states i hi state hstate
  obtain ⟨state'', hstate'', hrenamed'⟩ := h'.states _ (h.bijOn.mapsTo hi) state' hstate'
  exact ⟨state'', hstate'', hrenamed.trans hrenamed'⟩

theorem exists_old (h : table.IsRenamed table' kept rename)
    (hkept : ∀ i ∈ kept, i < table.states.length) {k : Nat}
    (hk : table'.states[k]? = some state') :
    ∃ i ∈ kept, ∃ state, rename i = k ∧ table.states[i]? = some state ∧
      state.IsRenamed rename table table' state' := by
  obtain ⟨hlt, -⟩ := List.getElem?_eq_some_iff.mp hk
  obtain ⟨i, hi, rfl⟩ := h.bijOn.surjOn hlt
  have hstate := List.getElem?_eq_getElem (hkept i hi)
  obtain ⟨new, hnew, hrenamed⟩ := h.states i hi _ hstate
  rw [hk] at hnew
  cases hnew
  exact ⟨i, hi, _, rfl, hstate, hrenamed⟩

theorem targets_lt (h : table.IsRenamed table' kept rename)
    (hkept : ∀ i ∈ kept, i < table.states.length)
    (hclosed : ∀ state ∈ table.states, ∀ target ∈ state.referencedStates table, target ∈ kept) :
    ∀ state ∈ table'.states, ∀ target ∈ state.referencedStates table',
      target < table'.states.length := by
  intro state' hmem target htarget
  obtain ⟨k, hk⟩ := mem_iff_getElem?.mp hmem
  obtain ⟨i, -, state, -, hstate, hrenamed⟩ := h.exists_old hkept hk
  rw [hrenamed.referencedStates, mem_map] at htarget
  obtain ⟨old, hold, rfl⟩ := htarget
  exact h.bijOn.mapsTo (hclosed state (mem_of_getElem? hstate) old hold)

end ParseTable.IsRenamed

/-! ### States with new references -/

/-- **A state with its gotos renamed** is a renamed state in a table whose pool is renamed for it.
-/
theorem isRenamed_update {states : List ParseState}
    (hmem : state.updateNonterminalReferences (fun id _ => rename id) ∈ states) :
    state.IsRenamed rename table
      ({ table with states := states }.remapTerminalReferences rename)
      (state.updateNonterminalReferences fun id _ => rename id) := by
  refine ⟨?_, rfl, rfl⟩
  rw [ParseState.terminalActions, ParseState.terminalActions, map_map]
  refine map_congr_left fun e he => ?_
  have hreferenced : ({ table with states := states } : ParseTable).isReferenced e.2.index := by
    rw [ParseTable.isReferenced, any_eq_true]
    refine ⟨_, hmem, ?_⟩
    rw [any_eq_true]
    exact ⟨e, he, beq_self_eq_true _⟩
  rw [ParseTable.actions_remapTerminalReferences _ _ hreferenced]
  rfl

@[simp] theorem remapTerminalReferences_states (f : Nat → Nat) :
    (table.remapTerminalReferences f).states = table.states := rfl

theorem length_remapTerminalReferences (f : Nat → Nat) :
    (table.remapTerminalReferences f).actionLists.length = table.actionLists.length := by
  rw [ParseTable.remapTerminalReferences, length_mapIdx]

/-! ### Dropping states -/

theorem getElem?_stateReplacements (usage : List Bool) : ∀ {stateId removed i : Nat},
    removed ≤ stateId → i < usage.length →
      (stateReplacements usage stateId removed)[i]? =
        some (stateId - removed + rank usage i) := by
  induction usage with
  | nil =>
    intro stateId removed i _ hi
    cases hi
  | cons used usage ih =>
    intro stateId removed i hle hi
    rw [stateReplacements]
    cases i with
    | zero => simp
    | succ i =>
      rw [length_cons, Nat.add_lt_add_iff_right] at hi
      rw [getElem?_cons_succ, rank_cons_succ]
      cases used with
      | true =>
        rw [if_pos rfl, ih (by omega) hi, if_pos rfl]
        congr 1
        omega
      | false =>
        rw [if_neg (by decide), ih (by omega) hi, if_neg (by decide)]
        congr 1
        omega

/-- **A replacement** is the number of states in front that are used. -/
theorem stateReplacement_eq {i : Nat} (hi : i < table.states.length) :
    table.stateReplacement i = rank table.stateUsageMap i := by
  have hlength : i < table.stateUsageMap.length := by
    rwa [ParseTable.stateUsageMap, length_map, length_range]
  rw [ParseTable.stateReplacement, getD_eq_getElem?_getD,
    getElem?_stateReplacements _ (Nat.le_refl 0) hlength, Option.getD_some, Nat.sub_zero,
    Nat.zero_add]

/-- **What is left** are the states that are used. -/
theorem removeUnused_eq (usage : List Bool) (f : Nat → Nat) (states : List ParseState) :
    ∀ k, removeUnused usage f k states = (keepFlagged (usage.drop k) states).map
      fun state => state.updateNonterminalReferences fun id _ => f id := by
  induction states with
  | nil =>
    intro k
    cases usage.drop k with
    | nil => rfl
    | cons used usage => cases used <;> rfl
  | cons state states ih =>
    intro k
    rw [removeUnused, ih]
    by_cases hk : k < usage.length
    · rw [getD_eq_getElem?_getD, List.getElem?_eq_getElem hk, Option.getD_some,
        drop_eq_getElem_cons hk]
      cases usage[k] <;> simp [keepFlagged]
    · rw [getD_eq_default _ _ (by omega), drop_eq_nil_of_le (by omega),
        drop_eq_nil_of_le (by omega)]
      simp [keepFlagged]

theorem mem_keptStates_iff {i : Nat} :
    i ∈ table.keptStates ↔ table.stateUsageMap[i]? = some true := by
  by_cases hi : i < table.states.length
  · simp [ParseTable.keptStates, ParseTable.stateUsageMap, ParseTable.isUsed, hi, or_assoc]
  · simp [ParseTable.keptStates, ParseTable.stateUsageMap, hi]

theorem lt_of_mem_keptStates : ∀ i ∈ table.keptStates, i < table.states.length :=
  fun _ hi => hi.1

theorem removeUnusedStates_states (table : ParseTable) : table.removeUnusedStates.states =
    (keepFlagged table.stateUsageMap table.states).map fun state =>
      state.updateNonterminalReferences fun id _ => table.stateReplacement id :=
  removeUnused_eq _ _ _ 0

theorem length_removeUnusedStates (table : ParseTable) :
    table.removeUnusedStates.states.length = table.stateUsageMap.count true := by
  rw [removeUnusedStates_states, length_map, length_keepFlagged]
  rw [ParseTable.stateUsageMap, length_map, length_range]

/-- **Dropping states** renames the others. -/
theorem isRenamed_removeUnusedStates (table : ParseTable) :
    table.IsRenamed table.removeUnusedStates table.keptStates table.stateReplacement := by
  constructor
  · rw [length_removeUnusedStates]
    have hkept : table.keptStates = {i | table.stateUsageMap[i]? = some true} :=
      Set.ext fun i => mem_keptStates_iff
    rw [hkept]
    refine (bijOn_rank table.stateUsageMap).congr fun i hi => ?_
    exact (stateReplacement_eq (lt_of_mem_keptStates i (mem_keptStates_iff.mpr hi))).symm
  · intro i hi state hstate
    have hnew : table.removeUnusedStates.states[table.stateReplacement i]? =
        some (state.updateNonterminalReferences fun id _ => table.stateReplacement id) := by
      rw [removeUnusedStates_states, List.getElem?_map, stateReplacement_eq hi.1,
        getElem?_keepFlagged_rank (mem_keptStates_iff.mp hi), hstate]
      rfl
    exact ⟨_, hnew, isRenamed_update (mem_of_getElem? hnew)⟩

theorem valid_removeUnusedStates (h : table.Valid) : table.removeUnusedStates.Valid := by
  have hrenamed := isRenamed_removeUnusedStates table
  constructor
  · have hone : 1 ∈ table.keptStates := ⟨h.two_le, .inr (.inl rfl)⟩
    have hzero : 0 ∈ table.keptStates := ⟨by have := h.two_le; omega, .inl rfl⟩
    have hne : table.stateReplacement 0 ≠ table.stateReplacement 1 :=
      fun heq => absurd (hrenamed.bijOn.injOn hzero hone heq) (by decide)
    have hlt := Set.mem_Iio.mp (hrenamed.bijOn.mapsTo hzero)
    have hlt' := Set.mem_Iio.mp (hrenamed.bijOn.mapsTo hone)
    omega
  · intro state' hmem
    obtain ⟨k, hk⟩ := mem_iff_getElem?.mp hmem
    rw [removeUnusedStates_states, List.getElem?_map, Option.map_eq_some_iff] at hk
    obtain ⟨state, hstate, rfl⟩ := hk
    rw [ParseTable.removeUnusedStates, length_remapTerminalReferences]
    exact h.lists state (mem_of_mem_keepFlagged (mem_of_getElem? hstate))
  · exact hrenamed.targets_lt lt_of_mem_keptStates fun state hmem target htarget =>
      ⟨h.targets state hmem target htarget, .inr (.inr ⟨state, hmem, htarget⟩)⟩

/-! ### Another order -/

section Order

variable {order : SizeOrder table}

theorem SizeOrder.perm_range (order : SizeOrder table) :
    (order.oldIdsByNewId.map Fin.val).Perm (List.range table.states.length) := by
  have hperm := order.perm.map Fin.val
  rwa [map_coe_finRange_eq_range] at hperm

theorem SizeOrder.newId_eq {k : Nat} {oldId : Fin table.states.length}
    (h : order.oldIdsByNewId[k]? = some oldId) : order.newId oldId = k :=
  positions_getD order.perm_range (by rw [List.getElem?_map, h]; rfl)

theorem SizeOrder.getElem?_newId (order : SizeOrder table) (oldId : Fin table.states.length) :
    order.oldIdsByNewId[order.newId oldId]? = some oldId := by
  have hsome := getElem?_positions order.perm_range oldId.isLt
  rw [List.getElem?_map, Option.map_eq_some_iff] at hsome
  obtain ⟨other, hother, heq⟩ := hsome
  rwa [Fin.val_inj.mp heq] at hother

theorem length_reorder (order : SizeOrder table) :
    (table.reorderStatesByDescendingSize order).states.length = table.states.length := by
  rw [ParseTable.reorderStatesByDescendingSize, remapTerminalReferences_states, length_map,
    order.perm.length_eq, length_finRange]

theorem getElem?_reorder {k : Nat} {oldId : Fin table.states.length}
    (h : order.oldIdsByNewId[k]? = some oldId) (hstate : table.states[oldId.val]? = some state) :
    (table.reorderStatesByDescendingSize order).states[k]? =
      some (state.updateNonterminalReferences fun id _ => order.newId id) := by
  obtain ⟨-, rfl⟩ := List.getElem?_eq_some_iff.mp hstate
  rw [ParseTable.reorderStatesByDescendingSize, remapTerminalReferences_states, List.getElem?_map,
    h]
  rfl

/-- **Another order** renames all states. -/
theorem isRenamed_reorder (order : SizeOrder table) :
    table.IsRenamed (table.reorderStatesByDescendingSize order)
      (Set.Iio table.states.length) order.newId := by
  constructor
  · rw [length_reorder]
    exact bijOn_positions order.perm_range
  · intro i hi state hstate
    have hnew := getElem?_reorder (order.getElem?_newId ⟨i, hi⟩) hstate
    exact ⟨_, hnew, isRenamed_update (mem_of_getElem? hnew)⟩

theorem valid_reorder (h : table.Valid) (order : SizeOrder table) :
    (table.reorderStatesByDescendingSize order).Valid := by
  have hrenamed := isRenamed_reorder order
  constructor
  · rw [length_reorder]
    exact h.two_le
  · intro state' hmem
    obtain ⟨oldId, -, rfl⟩ := mem_map.mp hmem
    rw [ParseTable.reorderStatesByDescendingSize, length_remapTerminalReferences]
    exact h.lists table.states[oldId] (getElem_mem oldId.isLt)
  · exact hrenamed.targets_lt (fun i hi => hi) h.targets

end Order

/-! ### The pool -/

theorem ActionListInterner.mem_intern {pool : ActionListInterner} {list list' : List ParseAction}
    (h : list' ∈ (pool.intern list).2.lists) : list' ∈ pool.lists ∨ list' = list := by
  rw [intern] at h
  split at h
  · exact .inl h
  · exact (mem_append.mp h).imp_right mem_singleton.mp

/-- The new pool, as far as it has been built: the empty list is in front, an index that is noted
is that of the list, and every list comes from the old pool. -/
structure Canonicalizer.Ok (oldLists : List (List ParseAction)) (p : List ParseAction → Prop)
    (canon : Canonicalizer) : Prop where
  pool : canon.pool.Ok
  empty : canon.pool.lists[0]? = some []
  oldToNew : ∀ old new, canon.oldToNew.getD old none = some new →
    canon.pool.lists[new]? = some (oldLists.getD old [])
  live : ∀ list ∈ canon.pool.lists, list = [] ∨ p list

variable {oldLists lists : List (List ParseAction)} {p : List ParseAction → Prop}
  {canon : Canonicalizer}

theorem Canonicalizer.ok_new (oldLists : List (List ParseAction)) (p : List ParseAction → Prop) :
    (Canonicalizer.new oldLists).Ok oldLists p := by
  have hempty : (⟨[], .empty⟩ : ActionListInterner).Ok := by
    intro list index hget
    cases hget
  refine ⟨(ActionListInterner.intern_spec hempty []).1, rfl, fun old new hnew => ?_,
    fun list hmem => .inl (mem_singleton.mp hmem)⟩
  rw [Canonicalizer.new, getD_eq_getElem?_getD, getElem?_replicate] at hnew
  split at hnew <;> cases hnew

/-- **One entry**: its new list is the old one. -/
theorem canonicalizeId_spec (h : canon.Ok oldLists p) {id : ActionListId}
    (hp : p (oldLists.getD id.index [])) :
    (canonicalizeId oldLists canon id).2.Ok oldLists p ∧
      canon.pool.lists <+: (canonicalizeId oldLists canon id).2.pool.lists ∧
      (canonicalizeId oldLists canon id).2.pool.lists[(canonicalizeId oldLists canon id).1.index]? =
        some (oldLists.getD id.index []) ∧
      (canonicalizeId oldLists canon id).1.reusable = id.reusable := by
  rw [canonicalizeId]
  split
  next newIndex hnew => exact ⟨h, prefix_rfl, h.oldToNew _ _ hnew, rfl⟩
  next =>
    obtain ⟨hok, hgrow, hindex⟩ :=
      ActionListInterner.intern_spec h.pool (oldLists.getD id.index [])
    refine ⟨⟨hok, getElem?_of_isPrefix hgrow h.empty, fun old new hnew => ?_, fun list hmem => ?_⟩,
      hgrow, hindex, rfl⟩
    · rw [getD_eq_getElem?_getD, getElem?_set] at hnew
      split at hnew
      next heq =>
        split at hnew
        next =>
          rw [← heq]
          cases hnew
          exact hindex
        next => cases hnew
      next =>
        exact getElem?_of_isPrefix hgrow
          (h.oldToNew old new (by rw [getD_eq_getElem?_getD, hnew]))
    · rcases ActionListInterner.mem_intern hmem with hold | rfl
      · exact h.live list hold
      · exact .inr hp

/-- **The entries of a state** lead to the lists they led to, in the new pool and in what becomes of
it. -/
theorem canonicalizeEntries_spec (entries : List (Symbol × ActionListId)) :
    ∀ {canon : Canonicalizer}, canon.Ok oldLists p →
      (∀ e ∈ entries, p (oldLists.getD e.2.index [])) →
        (canonicalizeEntries oldLists canon entries).2.Ok oldLists p ∧
        canon.pool.lists <+: (canonicalizeEntries oldLists canon entries).2.pool.lists ∧
        ∀ lists, (canonicalizeEntries oldLists canon entries).2.pool.lists <+: lists →
          (canonicalizeEntries oldLists canon entries).1.map
              (fun e => (e.1, lists[e.2.index]?, e.2.reusable)) =
            entries.map fun e => (e.1, some (oldLists.getD e.2.index []), e.2.reusable) := by
  induction entries with
  | nil => exact fun h _ => ⟨h, prefix_rfl, fun _ _ => rfl⟩
  | cons entry entries ih =>
    intro canon h hp
    obtain ⟨symbol, id⟩ := entry
    obtain ⟨hok, hgrow, hindex, hreusable⟩ := canonicalizeId_spec h (hp _ mem_cons_self)
    obtain ⟨hok', hgrow', hentries⟩ := ih hok fun e he => hp e (mem_cons_of_mem _ he)
    rw [canonicalizeEntries]
    refine ⟨hok', hgrow.trans hgrow', fun lists hlists => ?_⟩
    rw [map_cons, map_cons, hentries lists hlists, hreusable,
      getElem?_of_isPrefix (hgrow'.trans hlists) hindex]

/-- A state leads to the lists of the old pool, and is what it was otherwise. -/
structure ParseState.IsCanonical (oldLists lists : List (List ParseAction))
    (state state' : ParseState) : Prop where
  terminals : state'.terminalEntries.entries.map
      (fun e => (e.1, lists[e.2.index]?, e.2.reusable)) =
    state.terminalEntries.entries.map
      fun e => (e.1, some (oldLists.getD e.2.index []), e.2.reusable)
  rest : { state' with terminalEntries := state.terminalEntries } = state

theorem canonicalizeStates_spec (states : List ParseState) :
    ∀ {canon : Canonicalizer}, canon.Ok oldLists p →
      (∀ state ∈ states, ∀ e ∈ state.terminalEntries.entries, p (oldLists.getD e.2.index [])) →
        (canonicalizeStates oldLists canon states).2.Ok oldLists p ∧
        canon.pool.lists <+: (canonicalizeStates oldLists canon states).2.pool.lists ∧
        ∀ lists, (canonicalizeStates oldLists canon states).2.pool.lists <+: lists →
          List.Forall₂ (ParseState.IsCanonical oldLists lists) states
            (canonicalizeStates oldLists canon states).1 := by
  induction states with
  | nil => exact fun h _ => ⟨h, prefix_rfl, fun _ _ => .nil⟩
  | cons state states ih =>
    intro canon h hp
    obtain ⟨hok, hgrow, hentries⟩ :=
      canonicalizeEntries_spec state.terminalEntries.entries h (hp _ mem_cons_self)
    obtain ⟨hok', hgrow', hstates⟩ := ih hok fun s hs => hp s (mem_cons_of_mem _ hs)
    exact ⟨hok', hgrow.trans hgrow', fun lists hlists =>
      .cons ⟨hentries lists (hgrow'.trans hlists), rfl⟩ (hstates lists hlists)⟩

/-- Whether all targets of a list are states. -/
def TargetsLt (bound : Nat) (actions : List ParseAction) : Prop :=
  ∀ action ∈ actions, ∀ target ∈ action.shiftTarget, target < bound

theorem targetsLt_of_valid (h : table.Valid) :
    ∀ state ∈ table.states, ∀ e ∈ state.terminalEntries.entries,
      TargetsLt table.states.length (table.actionLists.getD e.2.index []) := by
  intro state hstate e he action haction target htarget
  refine h.targets state hstate target (mem_append_left _ ?_)
  exact mem_flatMap.mpr ⟨e, he, mem_filterMap.mpr ⟨action, haction, htarget⟩⟩

theorem ParseAction.rename_id (action : ParseAction) : action.rename id = action := by
  cases action <;> rfl

theorem GotoAction.rename_id (action : GotoAction) : action.rename id = action := by
  cases action <;> rfl

theorem canonicalize_states (h : table.Valid) :
    List.Forall₂ (ParseState.IsCanonical table.actionLists table.canonicalize.actionLists)
      table.states table.canonicalize.states :=
  (canonicalizeStates_spec table.states
    (Canonicalizer.ok_new table.actionLists (TargetsLt table.states.length))
    (targetsLt_of_valid h)).2.2 _ prefix_rfl

theorem canonicalize_ok (h : table.Valid) :
    (canonicalizeStates table.actionLists (.new table.actionLists) table.states).2.Ok
      table.actionLists (TargetsLt table.states.length) :=
  (canonicalizeStates_spec table.states (Canonicalizer.ok_new table.actionLists _)
    (targetsLt_of_valid h)).1

theorem isRenamed_of_isCanonical {table' : ParseTable}
    (h : state.IsCanonical table.actionLists table'.actionLists state') :
    state.IsRenamed id table table' state' := by
  have hgotos := congrArg ParseState.nonterminalEntries h.rest
  dsimp only at hgotos
  refine ⟨?_, ?_, ?_⟩
  · have hmap := congrArg (List.map fun e => (e.1, e.2.1.getD [], e.2.2)) h.terminals
    rw [map_map, map_map] at hmap
    have hactions (actions : List ParseAction) : actions.map (ParseAction.rename id) = actions := by
      rw [funext ParseAction.rename_id, map_id']
    simp only [hactions, ParseState.terminalActions, map_map, ParseTable.actions,
      getD_eq_getElem?_getD] at hmap ⊢
    exact hmap
  · rw [hgotos]
    simp only [IndexMap.mapValues, GotoAction.rename_id, map_id']
  · exact hgotos ▸ h.rest

/-- **The new pool** renames nothing. -/
theorem isRenamed_canonicalize (h : table.Valid) :
    table.IsRenamed table.canonicalize (Set.Iio table.states.length) id := by
  have hstates := canonicalize_states h
  constructor
  · rw [← hstates.length_eq]
    exact Set.bijOn_id _
  · intro i hi state hstate
    have hi' : i < table.canonicalize.states.length := hstates.length_eq ▸ hi
    have hcanonical := hstates.get hi hi'
    obtain ⟨-, rfl⟩ := List.getElem?_eq_some_iff.mp hstate
    exact ⟨_, List.getElem?_eq_getElem hi', isRenamed_of_isCanonical hcanonical⟩

theorem valid_canonicalize (h : table.Valid) : table.canonicalize.Valid := by
  have hrenamed := isRenamed_canonicalize h
  have hstates := canonicalize_states h
  constructor
  · rw [← hstates.length_eq]
    exact h.two_le
  · intro state' hmem e he
    obtain ⟨i, hi, rfl⟩ := getElem_of_mem hmem
    have hcanonical := hstates.get (hstates.length_eq ▸ hi) hi
    have hentry := mem_map_of_mem
      (f := fun e => (e.1, table.canonicalize.actionLists[e.2.index]?, e.2.reusable)) he
    have hterminals := hcanonical.terminals
    simp only [get_eq_getElem] at hterminals
    rw [hterminals, mem_map] at hentry
    obtain ⟨old, -, heq⟩ := hentry
    rw [Prod.mk.injEq, Prod.mk.injEq] at heq
    exact (List.getElem?_eq_some_iff.mp heq.2.1.symm).1
  · exact hrenamed.targets_lt (fun i hi => hi) h.targets

/-! ### The states in front -/

section Front

variable {order : SizeOrder table}

theorem SizeOrder.sizeKey_le {i j : Nat} {old old' : Fin table.states.length}
    (h : order.oldIdsByNewId[i]? = some old) (h' : order.oldIdsByNewId[j]? = some old')
    (hij : i ≤ j) : table.sizeKey old ≤ table.sizeKey old' := by
  obtain ⟨hi, rfl⟩ := List.getElem?_eq_some_iff.mp h
  obtain ⟨hj, rfl⟩ := List.getElem?_eq_some_iff.mp h'
  rcases hij.lt_or_eq with hlt | rfl
  · exact pairwise_iff_getElem.mp order.sorted i j hi hj hlt
  · exact le_rfl

theorem SizeOrder.newId_lt {i j : Fin table.states.length}
    (h : table.sizeKey i < table.sizeKey j) : order.newId i < order.newId j := by
  by_contra hle
  have hkey := SizeOrder.sizeKey_le (order.getElem?_newId j) (order.getElem?_newId i)
    (not_lt.mp hle)
  omega

theorem SizeOrder.exists_newId_eq (order : SizeOrder table) {k : Nat}
    (hk : k < table.states.length) : ∃ old : Fin table.states.length, order.newId old = k := by
  have hk' : k < order.oldIdsByNewId.length := by
    rwa [order.perm.length_eq, length_finRange]
  exact ⟨_, order.newId_eq (List.getElem?_eq_getElem hk')⟩

/-- **The states 0 and 1 stay in front** if all others have a greater key. -/
theorem SizeOrder.newId_of_le_one (order : SizeOrder table) (htwo : 2 ≤ table.states.length)
    (hkey : ∀ i : Fin table.states.length, 2 ≤ i.val → -999999 < table.sizeKey i) :
    order.newId 0 = 0 ∧ order.newId 1 = 1 := by
  have hone : order.newId 0 < order.newId 1 :=
    SizeOrder.newId_lt (i := ⟨0, by omega⟩) (j := ⟨1, by omega⟩)
      (by simp [ParseTable.sizeKey])
  have hothers (i : Fin table.states.length) (hi : 2 ≤ i.val) : order.newId 1 < order.newId i :=
    SizeOrder.newId_lt (i := ⟨1, by omega⟩) (hkey i hi)
  obtain ⟨first, hfirst⟩ := order.exists_newId_eq (k := 0) (by omega)
  obtain ⟨second, hsecond⟩ := order.exists_newId_eq (k := 1) (by omega)
  rcases Nat.lt_or_ge first.val 2 with hlt | hge
  · have hzero : order.newId 0 = 0 := by
      interval_cases first.val
      · exact hfirst
      · omega
    refine ⟨hzero, ?_⟩
    rcases Nat.lt_or_ge second.val 2 with hlt' | hge'
    · interval_cases second.val
      · omega
      · exact hsecond
    · have := hothers second hge'
      omega
  · have := hothers first hge
    omega

theorem exists_lateOrder (table : ParseTable) : ∃ order : SizeOrder table,
    ∀ i j : Fin table.states.length, order.newId i < order.newId j →
      table.sizeKey i < table.sizeKey j ∨ table.sizeKey i = table.sizeKey j ∧ j < i := by
  let key (i : Fin table.states.length) : Int ×ₗ (Fin table.states.length)ᵒᵈ :=
    toLex (table.sizeKey i, OrderDual.toDual i)
  let ids := (List.finRange table.states.length).mergeSort fun i j => decide (key i ≤ key j)
  have hsorted : ids.Pairwise fun i j => key i ≤ key j := by
    have hpairwise := pairwise_mergeSort
      (fun i j k (h : decide (key i ≤ key j)) (h' : decide (key j ≤ key k)) =>
        decide_eq_true ((of_decide_eq_true h).trans (of_decide_eq_true h')))
      (fun i j => by simp [le_total]) (List.finRange table.states.length)
    exact hpairwise.imp of_decide_eq_true
  let order : SizeOrder table :=
    { oldIdsByNewId := ids
      perm := mergeSort_perm _ _
      sorted := hsorted.imp fun h => by
        rcases Prod.Lex.toLex_le_toLex.mp h with hlt | heq
        · exact hlt.le
        · exact heq.1.le }
  refine ⟨order, fun i j hlt => ?_⟩
  obtain ⟨hi, heq⟩ := List.getElem?_eq_some_iff.mp (order.getElem?_newId i)
  obtain ⟨hj, heq'⟩ := List.getElem?_eq_some_iff.mp (order.getElem?_newId j)
  have hle : key i ≤ key j := by
    have hpair := pairwise_iff_getElem.mp hsorted _ _ hi hj hlt
    rwa [heq, heq'] at hpair
  rcases Prod.Lex.toLex_le_toLex.mp hle with hkey | ⟨hkey, hdual⟩
  · exact .inl hkey
  · refine .inr ⟨hkey, lt_of_le_of_ne hdual ?_⟩
    rintro rfl
    exact hlt.ne rfl

end Front

/-! ### All passes -/

theorem getElem?_stateUsageMap {i : Nat} (hi : i < table.states.length) :
    table.stateUsageMap[i]? = some (table.isUsed i) := by
  rw [ParseTable.stateUsageMap, List.getElem?_map, getElem?_range hi, Option.map_some]

theorem stateReplacement_of_le_one (h : table.Valid) :
    table.stateReplacement 0 = 0 ∧ table.stateReplacement 1 = 1 := by
  have htwo := h.two_le
  refine ⟨by rw [stateReplacement_eq (by omega), rank_zero], ?_⟩
  have hzero := @getElem?_stateUsageMap table 0 (by omega)
  rw [stateReplacement_eq (by omega), rank, take_one, head?_eq_getElem?, hzero]
  rfl

theorem two_le_stateReplacement (h : table.Valid) {i : Nat} (hi : i ∈ table.keptStates)
    (htwo : 2 ≤ i) : 2 ≤ table.stateReplacement i := by
  have hinj := (isRenamed_removeUnusedStates table).bijOn.injOn
  obtain ⟨hzero, hone⟩ := stateReplacement_of_le_one h
  have hne : table.stateReplacement i ≠ table.stateReplacement 0 := fun heq => by
    have := hinj hi ⟨by have := h.two_le; omega, .inl rfl⟩ heq
    omega
  have hne' : table.stateReplacement i ≠ table.stateReplacement 1 := fun heq => by
    have := hinj hi ⟨h.two_le, .inr (.inl rfl)⟩ heq
    omega
  omega

theorem sizeKey_stateReplacement (h : table.Valid) {i : Nat} (hi : i ∈ table.keptStates)
    (htwo : 2 ≤ i) (hstate : table.states[i]? = some state) :
    ∃ new : Fin table.removeUnusedStates.states.length, 2 ≤ new.val ∧
      new.val = table.stateReplacement i ∧
        table.removeUnusedStates.sizeKey new = -(state.symbolCount : Int) := by
  have hrenamed := isRenamed_removeUnusedStates table
  have hge := two_le_stateReplacement h hi htwo
  obtain ⟨state', hstate', hstates⟩ := hrenamed.states i hi state hstate
  refine ⟨⟨table.stateReplacement i, hrenamed.bijOn.mapsTo hi⟩, hge, rfl, ?_⟩
  obtain ⟨_, rfl⟩ := List.getElem?_eq_some_iff.mp hstate'
  rw [ParseTable.sizeKey, if_neg (show ¬ table.stateReplacement i ≤ 1 by omega),
    ← hstates.symbolCount]
  rfl

variable {order : SizeOrder table.removeUnusedStates}

/-- **All passes together** rename the states that are kept. -/
theorem isRenamed_renumberStates (h : table.Valid) (order : SizeOrder table.removeUnusedStates) :
    table.IsRenamed (table.renumberStates order) table.keptStates (table.finalId order) :=
  ((isRenamed_removeUnusedStates table).trans (isRenamed_reorder order)).trans
    (isRenamed_canonicalize (valid_reorder (valid_removeUnusedStates h) order))

/-- What stands at a new number has the entries of what the order puts there. -/
theorem exists_symbolCount_eq (h : table.Valid) {k : Nat}
    (hk : (table.renumberStates order).states[k]? = some state) :
    ∃ old : Fin table.removeUnusedStates.states.length,
      order.oldIdsByNewId[k]? = some old ∧
        state.symbolCount = table.removeUnusedStates.states[old].symbolCount := by
  have hvalid := valid_removeUnusedStates h
  have hrenamed := (isRenamed_reorder order).trans
    (isRenamed_canonicalize (valid_reorder hvalid order))
  obtain ⟨i, hi, old, rfl, hold, hstate⟩ := hrenamed.exists_old (fun i hi => hi) hk
  obtain ⟨_, rfl⟩ := List.getElem?_eq_some_iff.mp hold
  exact ⟨⟨i, hi⟩, order.getElem?_newId ⟨i, hi⟩, hstate.symbolCount⟩

/-- **A final renumbering**, if the states 0 and 1 stay in front. -/
theorem isFinalRenumbering_of_front (h : table.Valid) (hzero : order.newId 0 = 0)
    (hone : order.newId 1 = 1) :
    IsFinalRenumbering table (table.renumberStates order) (table.finalId order) := by
  have hvalid := valid_reorder (valid_removeUnusedStates h) order
  have hreplacement := stateReplacement_of_le_one h
  have hok := canonicalize_ok hvalid
  have hlength := (canonicalize_states hvalid).length_eq
  refine ⟨isRenamed_renumberStates h order, ?_, ?_, valid_canonicalize hvalid, ?_, hok.empty, ?_⟩
  · rw [ParseTable.finalId, hreplacement.1, hzero]
  · rw [ParseTable.finalId, hreplacement.2, hone]
  · intro actions hmem action haction target htarget
    rw [ParseTable.renumberStates, ← hlength]
    rcases hok.live actions hmem with rfl | hlt
    · cases haction
    · exact hlt action haction target htarget
  · intro i j state state' htwo hij hi hj
    obtain ⟨old, hold, hcount⟩ := exists_symbolCount_eq h hi
    obtain ⟨old', hold', hcount'⟩ := exists_symbolCount_eq h hj
    have hge {k : Nat} {x : Fin table.removeUnusedStates.states.length} (hk : 2 ≤ k)
        (hx : order.oldIdsByNewId[k]? = some x) : ¬ x.val ≤ 1 := by
      intro hle
      have hnew := order.newId_eq hx
      interval_cases x.val
      · omega
      · omega
    have hkey := order.sizeKey_le hold hold' hij
    rw [ParseTable.sizeKey, ParseTable.sizeKey, if_neg (hge htwo hold),
      if_neg (hge (htwo.trans hij) hold')] at hkey
    omega

/-- **When the passes are a final renumbering**, whatever the unstable sort does with equal keys: no
state behind the states 0 and 1 that is kept has 999999 entries. -/
theorem isFinalRenumbering_iff (table : ParseTable) (h : table.Valid) :
    (∀ order : SizeOrder table.removeUnusedStates,
        IsFinalRenumbering table (table.renumberStates order) (table.finalId order)) ↔
      ∀ i ∈ table.keptStates, 2 ≤ i → ∀ state, table.states[i]? = some state →
        state.symbolCount < 999999 := by
  have hvalid := valid_removeUnusedStates h
  have hreplacement := stateReplacement_of_le_one h
  constructor
  · intro hfinal i hi htwo state hstate
    obtain ⟨order, hlate⟩ := exists_lateOrder table.removeUnusedStates
    obtain ⟨new, hnew, -, hkey⟩ := sizeKey_stateReplacement h hi htwo hstate
    have hone : order.newId 1 = 1 := by
      have hone := (hfinal order).one
      rwa [ParseTable.finalId, hreplacement.2] at hone
    have hzero : order.newId 0 = 0 := by
      have hzero := (hfinal order).zero
      rwa [ParseTable.finalId, hreplacement.1] at hzero
    have hinj := (isRenamed_reorder order).bijOn.injOn
    have htwo' := hvalid.two_le
    have hbehind : order.newId 1 < order.newId new := by
      by_contra hle
      have hne : order.newId new ≠ order.newId 0 := fun heq => by
        have := hinj new.isLt (Set.mem_Iio.mpr (by omega)) heq
        omega
      have hne' : order.newId new ≠ order.newId 1 := fun heq => by
        have := hinj new.isLt (Set.mem_Iio.mpr (by omega)) heq
        omega
      omega
    have hone' : table.removeUnusedStates.sizeKey ⟨1, by omega⟩ = -999999 := by
      simp [ParseTable.sizeKey]
    rcases hlate ⟨1, by omega⟩ new hbehind with hlt | ⟨-, hlt⟩
    · omega
    · have : new.val < 1 := hlt
      omega
  · intro hsmall order
    have hfront := order.newId_of_le_one hvalid.two_le fun new hnew => by
      have hstate := List.getElem?_eq_getElem new.isLt
      obtain ⟨i, hi, state, hreplace, hold, hrenamed⟩ :=
        (isRenamed_removeUnusedStates table).exists_old lt_of_mem_keptStates hstate
      have htwo : 2 ≤ i := by
        by_contra hlt
        interval_cases i
        · omega
        · omega
      obtain ⟨new', -, hnew', hkey⟩ := sizeKey_stateReplacement h hi htwo hold
      have hcount := hsmall i hi htwo state hold
      rw [Fin.ext (hreplace.symm.trans hnew'.symm), hkey]
      omega
    exact isFinalRenumbering_of_front h hfront.1 hfront.2

/-! ### Two tables -/

/-- A state with one entry at most of each kind. -/
def smallState (terminal : Option (Symbol × ActionListId))
    (nonterminal : Option (Symbol × GotoAction)) : ParseState where
  id := 0
  terminalEntries := ⟨terminal.toList, by cases terminal <;> simp⟩
  nonterminalEntries := ⟨nonterminal.toList, by cases nonterminal <;> simp⟩

/-- The last state is not used, and the first list is dead and leads nowhere. -/
def smallTable : ParseTable where
  states := [smallState none none,
    smallState (some (.terminal 0, ⟨1, true⟩)) none,
    smallState none (some (.nonTerminal 0, .goto 1)),
    smallState none (some (.nonTerminal 0, .goto 2))]
  actionLists := [[.shift 9 false], [.shift 2 false]]

theorem valid_smallTable : smallTable.Valid := ⟨by decide, by decide, by decide⟩

theorem isFinalRenumbering_smallTable :
    smallTable.Valid ∧ ((∀ order : SizeOrder smallTable.removeUnusedStates,
        IsFinalRenumbering smallTable (smallTable.renumberStates order)
          (smallTable.finalId order)) ↔
      ∀ i ∈ smallTable.keptStates, 2 ≤ i → ∀ state, smallTable.states[i]? = some state →
        state.symbolCount < 999999) :=
  ⟨valid_smallTable, isFinalRenumbering_iff smallTable valid_smallTable⟩

/-- A state with many gotos. -/
def crowdedState (count : Nat) : ParseState where
  id := 0
  terminalEntries := .empty
  nonterminalEntries := ⟨(List.range count).map fun k => (.nonTerminal k, .goto 2), by
    rw [map_map]
    refine nodup_range.map fun k k' heq => ?_
    exact congrArg Symbol.index heq⟩

/-- The start state leads to a state with many gotos. -/
def crowdedTable (count : Nat) : ParseTable where
  states := [smallState none none, smallState none (some (.nonTerminal 0, .goto 2)),
    crowdedState count]
  actionLists := []

theorem valid_crowdedTable (count : Nat) : (crowdedTable count).Valid := by
  refine ⟨by simp [crowdedTable], fun state hmem e he => ?_, fun state hmem target htarget => ?_⟩
  · simp only [crowdedTable, mem_cons, not_mem_nil, or_false] at hmem
    rcases hmem with rfl | rfl | rfl <;> cases he
  · simp only [crowdedTable, mem_cons, not_mem_nil, or_false] at hmem
    show target < 3
    rcases hmem with rfl | rfl | rfl
    · cases htarget
    · rw [show target = 2 from mem_singleton.mp htarget]
      decide
    · have hgoto : (crowdedState count).referencedStates (crowdedTable count) =
          (List.range count).map fun _ => 2 := by
        simp [ParseState.referencedStates, crowdedState, IndexMap.empty, filterMap_map,
          GotoAction.target]
      rw [hgoto, mem_map] at htarget
      obtain ⟨-, -, rfl⟩ := htarget
      decide

/-- **A state with too many entries** takes the place of the error state. -/
theorem not_isFinalRenumbering_crowdedTable {count : Nat} (hcount : 1000000 < count)
    (order : SizeOrder (crowdedTable count).removeUnusedStates) (rename : Nat → Nat) :
    ¬ IsFinalRenumbering (crowdedTable count) ((crowdedTable count).renumberStates order)
      rename := by
  intro h
  have hvalid := valid_crowdedTable count
  obtain ⟨first, hfirst, hrenamed⟩ :=
    h.renamed.states 0 ⟨by simp [crowdedTable], .inl rfl⟩ (smallState none none) rfl
  rw [h.zero] at hfirst
  have hempty : first.symbolCount = 0 := hrenamed.symbolCount
  obtain ⟨old, hold, hsame⟩ := exists_symbolCount_eq hvalid hfirst
  obtain ⟨new, -, -, hnew⟩ := sizeKey_stateReplacement hvalid (i := 2)
    ⟨by simp [crowdedTable], .inr (.inr ⟨_, mem_cons_of_mem _ mem_cons_self, mem_cons_self⟩)⟩
    le_rfl rfl
  have hkey := order.sizeKey_le hold (order.getElem?_newId new) (Nat.zero_le _)
  have hlarge : (crowdedState count).symbolCount = count := by
    simp [ParseState.symbolCount, crowdedState, IndexMap.empty]
  rw [hnew, hlarge, ParseTable.sizeKey] at hkey
  split at hkey
  · omega
  · omega

/-- A table whose third state has a million entries and one more is not renumbered so. -/
theorem exists_not_isFinalRenumbering :
    ¬ ∀ (table : ParseTable) (order : SizeOrder table.removeUnusedStates), table.Valid →
      ∃ rename, IsFinalRenumbering table (table.renumberStates order) rename := by
  intro h
  obtain ⟨order, -⟩ := exists_lateOrder (crowdedTable 1000001).removeUnusedStates
  obtain ⟨rename, hfinal⟩ := h _ order (valid_crowdedTable 1000001)
  exact not_isFinalRenumbering_crowdedTable (by omega) order rename hfinal

end TreeSitter.Generate
