import TreeSitter.Generate.BuildTables.RemoveUnitReductions
import TreeSitter.Library.Worklist

/-!
# TreeSitter.Generate.BuildTables.RemoveUnitReductionsSound

When `remove_unit_reductions` **ends**, and what is left then. Skipping a unit reduction takes a
reference from one goto of the state to another. If the gotos of a state go round in a circle of
unit reductions, every round leaves them in one, and the loop at that state does not end. If they
do not, each skipped reduction brings a reference nearer to a state that does something else, and
in the end no reference to a unit-reduction state is left (`removeUnitReductions_ends_iff`).
-/

namespace TreeSitter.Generate

open List Library

/-! ### Growing pools -/

theorem getD_of_isPrefix {α : Type*} {xs ys : List α} (h : xs <+: ys) {i : Nat}
    (hi : i < xs.length) (d : α) : ys.getD i d = xs.getD i d := by
  obtain ⟨zs, rfl⟩ := h
  rw [getD_append _ _ _ _ hi]

/-- The ids that have been given out are those of the lists. -/
def ActionListInterner.Ok (pool : ActionListInterner) : Prop :=
  ∀ list index, pool.ids.get? list = some index → pool.lists[index]? = some list

theorem ActionListInterner.intern_spec {pool : ActionListInterner} (h : pool.Ok)
    (list : List ParseAction) :
    (pool.intern list).2.Ok ∧ pool.lists <+: (pool.intern list).2.lists ∧
      (pool.intern list).2.lists[(pool.intern list).1]? = some list := by
  rw [intern]
  split
  next index hget => exact ⟨h, prefix_rfl, h list index hget⟩
  next hget =>
    refine ⟨?_, prefix_append _ _, by simp⟩
    intro list' index' hget'
    rw [IndexMap.get?_insert] at hget'
    split at hget'
    next heq =>
      cases hget'
      simp [← heq]
    next hne => exact getElem?_of_isPrefix (prefix_append _ _) (h list' index' hget')

/-- The ids of a state are those of lists. -/
def ParseState.InRange (state : ParseState) (lists : List (List ParseAction)) : Prop :=
  ∀ e ∈ state.terminalEntries.entries, e.2.index < lists.length

def ParseState.allActions (state : ParseState) (lists : List (List ParseAction)) :
    List ParseAction :=
  state.terminalEntries.entries.flatMap fun e => lists.getD e.2.index []

variable {lists lists' : List (List ParseAction)}

theorem ParseState.InRange.mono {state : ParseState}
    (h : state.InRange lists) (hgrow : lists <+: lists') : state.InRange lists' :=
  fun e he => lt_of_lt_of_le (h e he) hgrow.length_le

theorem ParseState.InRange.allActions_eq {state : ParseState} (h : state.InRange lists)
    (hgrow : lists <+: lists') : state.allActions lists' = state.allActions lists := by
  rw [allActions, allActions, flatMap_def, flatMap_def]
  refine congrArg List.flatten (map_congr_left fun e he => ?_)
  exact getD_of_isPrefix hgrow (h e he) []

section Rounds

variable {unitSymbol : Nat → Option Symbol}

/-! ### One round -/

theorem map_eq_self_iff {α : Type*} {f : α → α} {xs : List α} :
    xs.map f = xs ↔ ∀ x ∈ xs, f x = x := by
  induction xs with
  | nil => simp
  | cons x xs ih => simp [ih]

variable (unitSymbol) in
theorem relinkEntries_spec (state : ParseState) {entries : List (Symbol × ActionListId)}
    {pool : ActionListInterner} (hpool : pool.Ok)
    (hrange : ∀ e ∈ entries, e.2.index < pool.lists.length) :
    let rename := ParseAction.rename fun target => skipUnitReduction unitSymbol target state
    let result := relinkEntries unitSymbol state entries pool
    result.2.2.Ok ∧ pool.lists <+: result.2.2.lists ∧
      (∀ e ∈ result.2.1, e.2.index < result.2.2.lists.length) ∧
      (result.2.1.flatMap fun e => result.2.2.lists.getD e.2.index []) =
        (entries.flatMap fun e => pool.lists.getD e.2.index []).map rename ∧
      (result.1 = true ↔ ∃ action ∈ entries.flatMap fun e => pool.lists.getD e.2.index [],
          rename action ≠ action) := by
  intro rename
  induction entries generalizing pool with
  | nil => exact ⟨hpool, prefix_rfl, by simp [relinkEntries], rfl, by simp [relinkEntries]⟩
  | cons entry entries ih =>
    obtain ⟨symbol, oldId⟩ := entry
    rw [forall_mem_cons] at hrange
    simp only [relinkEntries, flatMap_cons, map_append]
    split
    next hsame =>
      obtain ⟨hok, hgrow, hin, hactions, hchanged⟩ := ih hpool hrange.2
      refine ⟨hok, hgrow, ?_, ?_, ?_⟩
      · rw [forall_mem_cons]
        exact ⟨lt_of_lt_of_le hrange.1 hgrow.length_le, hin⟩
      · rw [flatMap_cons, hactions, getD_of_isPrefix hgrow hrange.1, hsame]
      · rw [hchanged]
        have hsame := map_eq_self_iff.mp hsame
        constructor
        · rintro ⟨a, ha, hne⟩
          exact ⟨a, mem_append_right _ ha, hne⟩
        · rintro ⟨a, ha, hne⟩
          exact ⟨a, (mem_append.mp ha).resolve_left fun ha => hne (hsame a ha), hne⟩
    next hne =>
      obtain ⟨hok', hgrow', hindex⟩ := ActionListInterner.intern_spec hpool
        ((pool.lists.getD oldId.index []).map rename)
      generalize pool.intern ((pool.lists.getD oldId.index []).map rename) = interned
        at hok' hgrow' hindex
      obtain ⟨hlt, hget⟩ := List.getElem?_eq_some_iff.mp hindex
      obtain ⟨hok, hgrow, hin, hactions, -⟩ := ih hok'
        fun e he => lt_of_lt_of_le (hrange.2 e he) hgrow'.length_le
      refine ⟨hok, hgrow'.trans hgrow, ?_, ?_, ?_⟩
      · rw [forall_mem_cons]
        exact ⟨lt_of_lt_of_le hlt hgrow.length_le, hin⟩
      · rw [flatMap_cons, hactions, getD_of_isPrefix hgrow hlt,
          getD_eq_getElem _ _ hlt, hget, flatMap_def, flatMap_def]
        congr 3
        refine map_congr_left fun e he => ?_
        exact getD_of_isPrefix hgrow' (hrange.2 e he) []
      · rw [map_eq_self_iff] at hne
        push Not at hne
        obtain ⟨a, ha, hne⟩ := hne
        exact iff_of_true rfl ⟨a, mem_append_left _ ha, hne⟩

def ParseState.gotoTargets (state : ParseState) : List Nat :=
  state.nonterminalEntries.entries.filterMap fun e => e.2.target

def ParseState.shiftTargets (state : ParseState) (lists : List (List ParseAction)) : List Nat :=
  (state.allActions lists).filterMap ParseAction.shiftTarget

/-- What one round does to a state and the lists. -/
structure Relinked (unitSymbol : Nat → Option Symbol) (state : ParseState)
    (pool : ActionListInterner) (done : Bool) (state' : ParseState) (pool' : ActionListInterner) :
    Prop where
  ok : pool'.Ok
  isPrefix : pool.lists <+: pool'.lists
  inRange : state'.InRange pool'.lists
  eofGated : state'.hasEofGatedReduce = state.hasEofGatedReduce
  gotos : state'.nonterminalEntries =
    state.nonterminalEntries.mapValues (·.rename fun target =>
      skipUnitReduction unitSymbol target state)
  actions : state'.allActions pool'.lists =
    (state.allActions pool.lists).map (.rename fun target =>
      skipUnitReduction unitSymbol target state')
  done : done = true ↔ (∀ target ∈ state.gotoTargets, unitSymbol target = none) ∧
    ∀ target ∈ state.shiftTargets pool.lists, skipUnitReduction unitSymbol target state' = target

theorem rename_ne_iff {f : Nat → Nat} {actions : List ParseAction} :
    (∃ action ∈ actions, action.rename f ≠ action) ↔
      ¬ ∀ target ∈ actions.filterMap ParseAction.shiftTarget, f target = target := by
  constructor
  · intro ⟨action, haction, hne⟩ hsame
    cases action with
    | shift target isRepetition =>
      have htarget := hsame target (mem_filterMap.mpr ⟨_, haction, rfl⟩)
      exact hne (by rw [ParseAction.rename, htarget])
    | _ => exact hne rfl
  · intro hsame
    push Not at hsame
    obtain ⟨target, htarget, hne⟩ := hsame
    obtain ⟨action, haction, heq⟩ := mem_filterMap.mp htarget
    cases action with
    | shift target' isRepetition =>
      cases heq
      exact ⟨_, haction, by simpa [ParseAction.rename] using hne⟩
    | _ => cases heq

variable (unitSymbol) in
theorem relinkRound_spec {state : ParseState} {pool : ActionListInterner} (hpool : pool.Ok)
    (hrange : state.InRange pool.lists) :
    Relinked unitSymbol state pool (relinkRound unitSymbol state pool).1
      (relinkRound unitSymbol state pool).2.1 (relinkRound unitSymbol state pool).2.2 := by
  obtain ⟨hok, hgrow, hin, hactions, hchanged⟩ := relinkEntries_spec unitSymbol
    (state.updateNonterminalReferences (skipUnitReduction unitSymbol)) hpool hrange
  refine ⟨hok, hgrow, hin, rfl, rfl, hactions, ?_⟩
  have hskipped : (state.nonterminalEntries.entries.any fun e =>
      (e.2.target.bind unitSymbol).isSome) = false ↔
      ∀ target ∈ state.gotoTargets, unitSymbol target = none := by
    simp only [any_eq_false, ParseState.gotoTargets, mem_filterMap]
    constructor
    · intro h target ⟨e, he, htarget⟩
      simpa [htarget] using h e he
    · intro h e he
      cases htarget : e.2.target with
      | none => simp
      | some target => simp [h target ⟨e, he, htarget⟩]
  have hshifts : (relinkEntries unitSymbol
      (state.updateNonterminalReferences (skipUnitReduction unitSymbol))
      state.terminalEntries.entries pool).1 = false ↔
      ∀ target ∈ state.shiftTargets pool.lists, skipUnitReduction unitSymbol target
        (state.updateNonterminalReferences (skipUnitReduction unitSymbol)) = target := by
    rw [← Bool.not_eq_true, hchanged, rename_ne_iff, not_not]
    rfl
  rw [← hskipped]
  refine Iff.trans ?_ (and_congr_right fun _ => hshifts)
  simp only [relinkRound, relinkTerminals, Bool.and_eq_true, Bool.not_eq_true']
  rfl

namespace Relinked

variable {state state' : ParseState} {pool pool' : ActionListInterner} {done : Bool}

section

variable (h : Relinked unitSymbol state pool done state' pool')

include h

theorem gotoTargets_eq : state'.gotoTargets =
      state.gotoTargets.map fun target => skipUnitReduction unitSymbol target state := by
  rw [ParseState.gotoTargets, h.gotos, ParseState.gotoTargets, map_filterMap,
    IndexMap.mapValues, filterMap_map]
  congr 1
  funext e
  cases heq : e.2 <;> simp [heq, GotoAction.rename, GotoAction.target]

theorem gotoTarget_eq (symbol : Symbol) : state'.gotoTarget symbol =
      (state.gotoTarget symbol).map fun target => skipUnitReduction unitSymbol target state := by
  rw [ParseState.gotoTarget, ParseState.gotoTarget, h.gotos, IndexMap.get?_mapValues]
  cases state.nonterminalEntries.get? symbol with
  | none => rfl
  | some action => cases action <;> rfl

theorem shiftTargets_eq : state'.shiftTargets pool'.lists =
      (state.shiftTargets pool.lists).map fun target =>
        skipUnitReduction unitSymbol target state' := by
  rw [ParseState.shiftTargets, h.actions, ParseState.shiftTargets, map_filterMap, filterMap_map]
  congr 1
  funext action
  cases action <;> rfl

end

end Relinked

/-! ### Ranks -/

/-- A state with a reference to a unit-reduction state has a goto on its symbol. -/
def ParseState.GotoComplete (unitSymbol : Nat → Option Symbol) (state : ParseState)
    (targets : List Nat) : Prop :=
  ∀ target ∈ targets, ∀ symbol, unitSymbol target = some symbol →
    (state.gotoTarget symbol).isSome

/-- The unit reduction at the end of a goto is of a symbol of lower rank. -/
def ParseState.Ranked (unitSymbol : Nat → Option Symbol) (rank : Symbol → Nat)
    (state : ParseState) : Prop :=
  ∀ symbol target next, state.gotoTarget symbol = some target →
    unitSymbol target = some next → rank next < rank symbol

/-- How far a reference is from one that is left alone. -/
def unitWeight (unitSymbol : Nat → Option Symbol) (rank : Symbol → Nat) (target : Nat) : Nat :=
  match unitSymbol target with
  | none => 0
  | some symbol => rank symbol + 1

theorem skipUnitReduction_of_eq_none {state : ParseState} {target : Nat}
    (h : unitSymbol target = none) : skipUnitReduction unitSymbol target state = target := by
  rw [skipUnitReduction, h]

theorem mem_gotoTargets {state : ParseState} {symbol : Symbol} {target : Nat}
    (h : state.gotoTarget symbol = some target) : target ∈ state.gotoTargets := by
  rw [ParseState.gotoTarget] at h
  split at h
  next hget =>
    cases h
    exact mem_filterMap.mpr ⟨_, IndexMap.mem_entries_iff.mpr hget, rfl⟩
  next => cases h

section Rank

variable {rank : Symbol → Nat} {state : ParseState} {targets : List Nat} {target : Nat}

theorem skip_weight_lt (hcomplete : state.GotoComplete unitSymbol targets)
    (hranked : state.Ranked unitSymbol rank) (hmem : target ∈ targets)
    (hunit : unitSymbol target ≠ none) :
    unitWeight unitSymbol rank (skipUnitReduction unitSymbol target state) <
      unitWeight unitSymbol rank target := by
  obtain ⟨symbol, hsymbol⟩ := Option.ne_none_iff_exists'.mp hunit
  obtain ⟨next, hnext⟩ := Option.isSome_iff_exists.mp (hcomplete target hmem symbol hsymbol)
  rw [skipUnitReduction, hsymbol]
  dsimp only
  rw [hnext, Option.getD_some, unitWeight, unitWeight, hsymbol]
  cases hunit' : unitSymbol next with
  | none => exact Nat.succ_pos _
  | some symbol' => exact Nat.succ_lt_succ (hranked symbol next symbol' hnext hunit')

theorem skip_weight_le (hcomplete : state.GotoComplete unitSymbol targets)
    (hranked : state.Ranked unitSymbol rank) (hmem : target ∈ targets) :
    unitWeight unitSymbol rank (skipUnitReduction unitSymbol target state) ≤
      unitWeight unitSymbol rank target := by
  by_cases hunit : unitSymbol target = none
  · rw [skipUnitReduction_of_eq_none hunit]
  · exact (skip_weight_lt hcomplete hranked hmem hunit).le

def totalWeight (unitSymbol : Nat → Option Symbol) (rank : Symbol → Nat) (targets : List Nat) :
    Nat :=
  (targets.map (unitWeight unitSymbol rank)).sum

theorem totalWeight_skip_le (hcomplete : state.GotoComplete unitSymbol targets)
    (hranked : state.Ranked unitSymbol rank) :
    totalWeight unitSymbol rank
        (targets.map fun target => skipUnitReduction unitSymbol target state) ≤
      totalWeight unitSymbol rank targets := by
  rw [totalWeight, map_map]
  exact sum_le_sum fun target hmem => skip_weight_le hcomplete hranked hmem

theorem totalWeight_skip_lt (hcomplete : state.GotoComplete unitSymbol targets)
    (hranked : state.Ranked unitSymbol rank)
    (hunit : ∃ target ∈ targets, unitSymbol target ≠ none) :
    totalWeight unitSymbol rank
        (targets.map fun target => skipUnitReduction unitSymbol target state) <
      totalWeight unitSymbol rank targets := by
  obtain ⟨target, hmem, hunit⟩ := hunit
  rw [totalWeight, map_map]
  exact sum_lt_sum _ _ (fun target hmem => skip_weight_le hcomplete hranked hmem)
    ⟨target, hmem, skip_weight_lt hcomplete hranked hmem hunit⟩

end Rank

/-! ### The loop at one state -/

/-- The state has the gotos that the pass needs, and they do not go round in a circle. -/
structure Skippable (unitSymbol : Nat → Option Symbol) (rank : Symbol → Nat) (state : ParseState)
    (lists : List (List ParseAction)) : Prop where
  gotos : state.GotoComplete unitSymbol state.gotoTargets
  shifts : state.GotoComplete unitSymbol (state.shiftTargets lists)
  ranked : state.Ranked unitSymbol rank

/-- The weight of all references of a state. -/
def relinkCost (unitSymbol : Nat → Option Symbol) (rank : Symbol → Nat) (state : ParseState)
    (lists : List (List ParseAction)) : Nat :=
  totalWeight unitSymbol rank state.gotoTargets +
    totalWeight unitSymbol rank (state.shiftTargets lists)

namespace Relinked

variable {rank : Symbol → Nat} {state state' : ParseState} {pool pool' : ActionListInterner}
  {done : Bool}

section

variable (h : Relinked unitSymbol state pool done state' pool')

include h

theorem gotoComplete {targets : List Nat} (hcomplete : state.GotoComplete unitSymbol targets) :
    state'.GotoComplete unitSymbol targets := by
  intro target hmem symbol hsymbol
  rw [h.gotoTarget_eq, Option.isSome_map]
  exact hcomplete target hmem symbol hsymbol

omit h in
theorem skip_mem {targets : List Nat} {target : Nat} {symbol : Symbol}
    (hcomplete : state.GotoComplete unitSymbol targets) (hmem : target ∈ targets)
    (hsymbol : unitSymbol target = some symbol) :
    state.gotoTarget symbol = some (skipUnitReduction unitSymbol target state) := by
  obtain ⟨next, hnext⟩ := Option.isSome_iff_exists.mp (hcomplete target hmem symbol hsymbol)
  rw [skipUnitReduction, hsymbol]
  simp [hnext]

theorem ranked (hcomplete : state.GotoComplete unitSymbol state.gotoTargets)
    (hranked : state.Ranked unitSymbol rank) : state'.Ranked unitSymbol rank := by
  intro symbol target next htarget hnext
  rw [h.gotoTarget_eq] at htarget
  obtain ⟨target, hsource, rfl⟩ := Option.map_eq_some_iff.mp htarget
  cases hunit : unitSymbol target with
  | none =>
    rw [skipUnitReduction_of_eq_none hunit, hunit] at hnext
    cases hnext
  | some middle =>
    have hskip := skip_mem hcomplete (mem_gotoTargets hsource) hunit
    calc rank next < rank middle := hranked middle _ next hskip hnext
      _ < rank symbol := hranked symbol target middle hsource hunit

theorem gotoComplete_gotoTargets (hcomplete : state.GotoComplete unitSymbol state.gotoTargets) :
    state'.GotoComplete unitSymbol state'.gotoTargets := by
  intro target' hmem symbol hsymbol
  rw [h.gotoTargets_eq] at hmem
  obtain ⟨target, hsource, rfl⟩ := mem_map.mp hmem
  cases hunit : unitSymbol target with
  | none =>
    rw [skipUnitReduction_of_eq_none hunit, hunit] at hsymbol
    cases hsymbol
  | some middle =>
    have hskip := skip_mem hcomplete hsource hunit
    exact h.gotoComplete hcomplete _ (mem_gotoTargets hskip) symbol hsymbol

theorem gotoComplete_shiftTargets (hgotos : state.GotoComplete unitSymbol state.gotoTargets)
    (hshifts : state.GotoComplete unitSymbol (state.shiftTargets pool.lists)) :
    state'.GotoComplete unitSymbol (state'.shiftTargets pool'.lists) := by
  intro target' hmem symbol hsymbol
  rw [h.shiftTargets_eq] at hmem
  obtain ⟨target, hsource, rfl⟩ := mem_map.mp hmem
  cases hunit : unitSymbol target with
  | none =>
    rw [skipUnitReduction_of_eq_none hunit, hunit] at hsymbol
    cases hsymbol
  | some middle =>
    have hskip := skip_mem (h.gotoComplete hshifts) hsource hunit
    exact h.gotoComplete_gotoTargets hgotos _ (mem_gotoTargets hskip) symbol hsymbol

theorem skippable (hskippable : Skippable unitSymbol rank state pool.lists) :
    Skippable unitSymbol rank state' pool'.lists where
  gotos := h.gotoComplete_gotoTargets hskippable.gotos
  shifts := h.gotoComplete_shiftTargets hskippable.gotos hskippable.shifts
  ranked := h.ranked hskippable.gotos hskippable.ranked

end

/-- A round after which the loop goes on has brought references nearer to their end. -/
theorem cost_lt (h : Relinked unitSymbol state pool false state' pool')
    (hskippable : Skippable unitSymbol rank state pool.lists) :
    relinkCost unitSymbol rank state' pool'.lists < relinkCost unitSymbol rank state pool.lists := by
  have hshifts := h.gotoComplete hskippable.shifts
  have hranked := h.ranked hskippable.gotos hskippable.ranked
  rw [relinkCost, relinkCost, h.gotoTargets_eq, h.shiftTargets_eq]
  have hnot : ¬ _ := fun hboth => Bool.false_ne_true (h.done.mpr hboth)
  by_cases hgoto : ∀ target ∈ state.gotoTargets, unitSymbol target = none
  · have hshift : ∃ target ∈ state.shiftTargets pool.lists, unitSymbol target ≠ none := by
      by_contra hshift
      push Not at hshift
      exact hnot ⟨hgoto, fun target hmem => skipUnitReduction_of_eq_none (hshift target hmem)⟩
    exact Nat.add_lt_add_of_le_of_lt (totalWeight_skip_le hskippable.gotos hskippable.ranked)
      (totalWeight_skip_lt hshifts hranked hshift)
  · push Not at hgoto
    exact Nat.add_lt_add_of_lt_of_le
      (totalWeight_skip_lt hskippable.gotos hskippable.ranked hgoto)
      (totalWeight_skip_le hshifts hranked)

/-- A round after which the loop ends has found no reference to a unit-reduction state. -/
theorem settled (h : Relinked unitSymbol state pool true state' pool')
    (hshifts : state.GotoComplete unitSymbol (state.shiftTargets pool.lists)) :
    (∀ target ∈ state'.gotoTargets, unitSymbol target = none) ∧
      ∀ target ∈ state'.shiftTargets pool'.lists, unitSymbol target = none := by
  obtain ⟨hgoto, hshift⟩ := h.done.mp rfl
  have hgoto' : ∀ target ∈ state'.gotoTargets, unitSymbol target = none := by
    intro target' hmem
    rw [h.gotoTargets_eq] at hmem
    obtain ⟨target, hsource, rfl⟩ := mem_map.mp hmem
    rw [skipUnitReduction_of_eq_none (hgoto target hsource)]
    exact hgoto target hsource
  refine ⟨hgoto', fun target' hmem => ?_⟩
  rw [h.shiftTargets_eq] at hmem
  obtain ⟨target, hsource, rfl⟩ := mem_map.mp hmem
  cases hunit : unitSymbol target with
  | none => rw [hshift target hsource, hunit]
  | some symbol =>
    exact hgoto' _ (mem_gotoTargets (skip_mem (h.gotoComplete hshifts) hsource hunit))

end Relinked

/-- What the loop leaves of a state. -/
structure Settled (unitSymbol : Nat → Option Symbol) (state : ParseState)
    (lists : List (List ParseAction)) (state' : ParseState) (lists' : List (List ParseAction)) :
    Prop where
  inRange : state'.InRange lists'
  eofGated : state'.hasEofGatedReduce = state.hasEofGatedReduce
  actions : (state'.allActions lists').map (ParseAction.rename fun _ => 0) =
    (state.allActions lists).map (ParseAction.rename fun _ => 0)
  gotos : ∀ target ∈ state'.gotoTargets, unitSymbol target = none
  shifts : ∀ target ∈ state'.shiftTargets lists', unitSymbol target = none

variable {pool' : ActionListInterner} {state' : ParseState}
variable {state : ParseState} {pool : ActionListInterner} {lists : List (List ParseAction)}

theorem Relinked.actions_erased {done : Bool}
    (h : Relinked unitSymbol state pool done state' pool') :
    (state'.allActions pool'.lists).map (ParseAction.rename fun _ => 0) =
      (state.allActions pool.lists).map (ParseAction.rename fun _ => 0) := by
  rw [h.actions, map_map]
  refine map_congr_left fun action _ => ?_
  cases action <;> rfl

variable {rounds : Nat}

theorem relinkState_isSome {rank : Symbol → Nat}
    (hpool : pool.Ok) (hrange : state.InRange pool.lists)
    (hskippable : Skippable unitSymbol rank state pool.lists)
    (hrounds : relinkCost unitSymbol rank state pool.lists < rounds) :
    (relinkState unitSymbol rounds state pool).isSome := by
  induction rounds generalizing state pool with
  | zero => exact absurd hrounds (Nat.not_lt_zero _)
  | succ rounds ih =>
    have hround := relinkRound_spec unitSymbol hpool hrange
    rw [relinkState]
    generalize relinkRound unitSymbol state pool = result at hround
    obtain ⟨done, state', pool'⟩ := result
    cases done with
    | true => rfl
    | false =>
      have hlt := hround.cost_lt hskippable
      exact ih hround.ok hround.inRange (hround.skippable hskippable)
        (lt_of_lt_of_le hlt (Nat.le_of_lt_succ hrounds))

theorem relinkState_spec (hpool : pool.Ok)
    (hrange : state.InRange pool.lists) (hgotos : state.GotoComplete unitSymbol state.gotoTargets)
    (hshifts : state.GotoComplete unitSymbol (state.shiftTargets pool.lists))
    (h : relinkState unitSymbol rounds state pool = some (state', pool')) :
    pool'.Ok ∧ pool.lists <+: pool'.lists ∧
      Settled unitSymbol state pool.lists state' pool'.lists := by
  induction rounds generalizing state pool with
  | zero => cases h
  | succ rounds ih =>
    have hround := relinkRound_spec unitSymbol hpool hrange
    rw [relinkState] at h
    generalize relinkRound unitSymbol state pool = result at hround h
    obtain ⟨done, state₁, pool₁⟩ := result
    cases done with
    | true =>
      cases h
      obtain ⟨hgoto, hshift⟩ := hround.settled hshifts
      exact ⟨hround.ok, hround.isPrefix, hround.inRange, hround.eofGated,
        hround.actions_erased, hgoto, hshift⟩
    | false =>
      obtain ⟨hok, hgrow, hsettled⟩ := ih hround.ok hround.inRange
        (hround.gotoComplete_gotoTargets hgotos)
        (hround.gotoComplete_shiftTargets hgotos hshifts) h
      exact ⟨hok, hround.isPrefix.trans hgrow, hsettled.inRange,
        hsettled.eofGated.trans hround.eofGated,
        hsettled.actions.trans hround.actions_erased, hsettled.gotos, hsettled.shifts⟩

/-! ### Circles -/

/-- The goto on one symbol leads to a state that only reduces to another one. -/
def UnitStep (unitSymbol : Nat → Option Symbol) (state : ParseState) (symbol next : Symbol) :
    Prop :=
  ∃ target, state.gotoTarget symbol = some target ∧ unitSymbol target = some next

/-- Unit reductions do not end at these symbols. -/
def Trapped (unitSymbol : Nat → Option Symbol) (state : ParseState) (symbols : Set Symbol) : Prop :=
  ∀ symbol ∈ symbols, ∃ next ∈ symbols, UnitStep unitSymbol state symbol next

variable {symbols : Set Symbol}

theorem Relinked.trapped {done : Bool} (h : Relinked unitSymbol state pool done state' pool')
    (htrapped : Trapped unitSymbol state symbols) : Trapped unitSymbol state' symbols := by
  intro symbol hsymbol
  obtain ⟨middle, hmiddle, target, htarget, hunit⟩ := htrapped symbol hsymbol
  obtain ⟨next, hnext, target', htarget', hunit'⟩ := htrapped middle hmiddle
  have hskip : skipUnitReduction unitSymbol target state = target' := by
    rw [skipUnitReduction, hunit]
    simp [htarget']
  exact ⟨next, hnext, target', by rw [h.gotoTarget_eq, htarget, Option.map_some, hskip], hunit'⟩

theorem relinkState_of_trapped (hpool : pool.Ok)
    (hrange : state.InRange pool.lists) (htrapped : Trapped unitSymbol state symbols)
    (hne : symbols.Nonempty) :
    relinkState unitSymbol rounds state pool = none := by
  induction rounds generalizing state pool with
  | zero => rfl
  | succ rounds ih =>
    have hround := relinkRound_spec unitSymbol hpool hrange
    rw [relinkState]
    generalize relinkRound unitSymbol state pool = result at hround
    obtain ⟨done, state', pool'⟩ := result
    cases done with
    | true =>
      obtain ⟨symbol, hsymbol⟩ := hne
      obtain ⟨next, -, target, htarget, hunit⟩ := htrapped symbol hsymbol
      have hnone := (hround.done.mp rfl).1 target (mem_gotoTargets htarget)
      rw [hunit] at hnone
      cases hnone
    | false => exact ih hround.ok hround.inRange (hround.trapped htrapped)

theorem trapped_of_circle {symbol : Symbol}
    (h : Relation.TransGen (UnitStep unitSymbol state) symbol symbol) :
    Trapped unitSymbol state
      {next | Relation.TransGen (UnitStep unitSymbol state) next symbol} := by
  intro next hnext
  obtain ⟨middle, hstep, hrest⟩ := Relation.TransGen.head'_iff.mp hnext
  rcases Relation.reflTransGen_iff_eq_or_transGen.mp hrest with rfl | hrest
  · exact ⟨_, h, hstep⟩
  · exact ⟨middle, hrest, hstep⟩

theorem exists_ranked (hcomplete : state.GotoComplete unitSymbol state.gotoTargets)
    (h : ∀ symbol, ¬ Relation.TransGen (UnitStep unitSymbol state) symbol symbol) :
    ∃ rank, state.Ranked unitSymbol rank := by
  classical
  -- The rank of a symbol is the number of keys that unit reductions lead to.
  let reached (symbol : Symbol) : Finset Symbol :=
    state.nonterminalEntries.keys.toFinset.filter fun next =>
      Relation.TransGen (UnitStep unitSymbol state) symbol next
  refine ⟨fun symbol => (reached symbol).card, fun symbol target next htarget hnext => ?_⟩
  have hstep : UnitStep unitSymbol state symbol next := ⟨target, htarget, hnext⟩
  have hkey : next ∈ state.nonterminalEntries.keys := by
    have hsome := hcomplete target (mem_gotoTargets htarget) next hnext
    rw [ParseState.gotoTarget] at hsome
    split at hsome
    next hget => exact mem_map.mpr ⟨_, IndexMap.mem_entries_iff.mpr hget, rfl⟩
    next => cases hsome
  refine Finset.card_lt_card (Finset.ssubset_iff_subset_ne.mpr ⟨fun other hother => ?_, fun heq => ?_⟩)
  · rw [Finset.mem_filter] at hother ⊢
    exact ⟨hother.1, .head hstep hother.2⟩
  · have hmem : next ∈ reached symbol :=
      Finset.mem_filter.mpr ⟨mem_toFinset.mpr hkey, .single hstep⟩
    rw [← heq] at hmem
    exact h next (Finset.mem_filter.mp hmem).2

/-! ### All states -/

variable {lists' : List (List ParseAction)}

theorem Settled.mono {lists lists'' : List (List ParseAction)}
    (h : Settled unitSymbol state lists state' lists') (hgrow : lists' <+: lists'') :
    Settled unitSymbol state lists state' lists'' where
  inRange := h.inRange.mono hgrow
  eofGated := h.eofGated
  actions := by rw [h.inRange.allActions_eq hgrow, h.actions]
  gotos := h.gotos
  shifts := by
    rw [ParseState.shiftTargets, h.inRange.allActions_eq hgrow]
    exact h.shifts

theorem ParseState.InRange.shiftTargets_eq (h : state.InRange lists) (hgrow : lists <+: lists') :
    state.shiftTargets lists' = state.shiftTargets lists := by
  rw [shiftTargets, shiftTargets, h.allActions_eq hgrow]

/-- A state of the table, as the loop needs it. -/
structure Relinkable (unitSymbol : Nat → Option Symbol) (lists : List (List ParseAction))
    (state : ParseState) : Prop where
  inRange : state.InRange lists
  gotos : state.GotoComplete unitSymbol state.gotoTargets
  shifts : state.GotoComplete unitSymbol (state.shiftTargets lists)

theorem Relinkable.mono (h : Relinkable unitSymbol lists state) (hgrow : lists <+: lists') :
    Relinkable unitSymbol lists' state where
  inRange := h.inRange.mono hgrow
  gotos := h.gotos
  shifts := by
    rw [h.inRange.shiftTargets_eq hgrow]
    exact h.shifts

variable {states : List ParseState}

/-- With enough rounds, the loop ends at each of some states without circles. -/
theorem relinkStates_isSome
    (h : ∀ state ∈ states, Relinkable unitSymbol lists state) (hacyclic : ∀ state ∈ states, ∀
      symbol, ¬ Relation.TransGen (UnitStep unitSymbol state) symbol symbol) :
    ∃ enough, ∀ rounds ≥ enough, ∀ pool : ActionListInterner, pool.Ok → lists <+: pool.lists →
      (relinkStates unitSymbol rounds states pool).isSome := by
  induction states with
  | nil => exact ⟨0, fun _ _ _ _ _ => rfl⟩
  | cons state states ih =>
    rw [forall_mem_cons] at h hacyclic
    obtain ⟨enough, henough⟩ := ih h.2 hacyclic.2
    obtain ⟨rank, hranked⟩ := exists_ranked h.1.gotos hacyclic.1
    refine ⟨max enough (relinkCost unitSymbol rank state lists + 1), ?_⟩
    intro rounds hrounds pool hpool hgrow
    have hrelinkable := h.1.mono hgrow
    have hcost : relinkCost unitSymbol rank state pool.lists < rounds := by
      rw [relinkCost, h.1.inRange.shiftTargets_eq hgrow]
      exact le_trans (le_max_right _ _) hrounds
    obtain ⟨⟨state', pool'⟩, hstate⟩ := Option.isSome_iff_exists.mp
      (relinkState_isSome hpool hrelinkable.inRange
        ⟨hrelinkable.gotos, hrelinkable.shifts, hranked⟩ hcost)
    obtain ⟨hok, hgrow', -⟩ := relinkState_spec hpool hrelinkable.inRange hrelinkable.gotos
      hrelinkable.shifts hstate
    obtain ⟨⟨states', pool''⟩, hstates⟩ := Option.isSome_iff_exists.mp
      (henough rounds (le_trans (le_max_left _ _) hrounds) pool' hok (hgrow.trans hgrow'))
    simp [relinkStates, hstate, hstates]

theorem relinkStates_spec {states' : List ParseState}
    (h : ∀ state ∈ states, Relinkable unitSymbol lists state)
    (hpool : pool.Ok) (hgrow : lists <+: pool.lists)
    (hstates : relinkStates unitSymbol rounds states pool = some (states', pool')) :
    pool.lists <+: pool'.lists ∧
      List.Forall₂ (fun state state' => Settled unitSymbol state lists state' pool'.lists)
        states states' := by
  induction states generalizing states' pool with
  | nil =>
    cases hstates
    exact ⟨prefix_rfl, .nil⟩
  | cons state states ih =>
    rw [forall_mem_cons] at h
    simp only [relinkStates, Option.bind_eq_bind, Option.bind_eq_some_iff] at hstates
    obtain ⟨⟨state₁, pool₁⟩, hstate, ⟨states₁, pool₂⟩, hstates, heq⟩ := hstates
    cases heq
    have hrelinkable := h.1.mono hgrow
    obtain ⟨hok, hgrow₁, hsettled⟩ := relinkState_spec hpool hrelinkable.inRange
      hrelinkable.gotos hrelinkable.shifts hstate
    obtain ⟨hgrow₂, hrest⟩ := ih h.2 hok (hgrow.trans hgrow₁) hstates
    refine ⟨hgrow₁.trans hgrow₂, .cons ?_ hrest⟩
    have hactions := h.1.inRange.allActions_eq hgrow
    exact { hsettled.mono hgrow₂ with
      actions := (hsettled.mono hgrow₂).actions.trans (by rw [hactions]) }

theorem relinkStates_of_trapped
    (h : ∀ state ∈ states, Relinkable unitSymbol lists state) (hpool : pool.Ok)
    (hgrow : lists <+: pool.lists) (hmem : state ∈ states)
    (htrapped : Trapped unitSymbol state symbols) (hne : symbols.Nonempty) :
    relinkStates unitSymbol rounds states pool = none := by
  induction states generalizing pool with
  | nil => cases hmem
  | cons head states ih =>
    rw [forall_mem_cons] at h
    have hrelinkable := h.1.mono hgrow
    rw [relinkStates]
    cases hhead : relinkState unitSymbol rounds head pool with
    | none => rfl
    | some result =>
      obtain ⟨head', pool'⟩ := result
      rcases mem_cons.mp hmem with rfl | hmem
      · rw [relinkState_of_trapped hpool hrelinkable.inRange htrapped hne] at hhead
        cases hhead
      · obtain ⟨hok, hgrow', -⟩ := relinkState_spec hpool hrelinkable.inRange
          hrelinkable.gotos hrelinkable.shifts hhead
        simp [ih h.2 hok (hgrow.trans hgrow') hmem]

end Rounds

/-! ### The pass -/

variable (ctx : UnitReductionContext) (table : ParseTable)

/-- Every entry of a state has a list of actions, and every state with an edge into a
unit-reduction state has a goto on its symbol. -/
structure GotosComplete : Prop where
  inRange : ∀ state ∈ table.states, state.InRange table.actionLists
  gotos : ∀ state ∈ table.states, ∀ target ∈ state.referencedStates table, ∀ symbol,
    ctx.unitReductionSymbolAt table target = some symbol → (state.gotoTarget symbol).isSome

/-- The pass ends, and leaves no reference to a unit-reduction state. -/
def EndsWithoutUnitReductions : Prop :=
  ∃ rounds table', removeUnitReductions ctx rounds table = some table' ∧
    ∀ state ∈ table'.states, ∀ target ∈ state.referencedStates table',
      ctx.unitReductionSymbolAt table' target = none

/-- In no state do gotos to unit-reduction states go round in a circle: the goto on one symbol
leads to a state that only reduces to the next one, and so on, back to the first. -/
def NoUnitCircle : Prop :=
  ∀ state ∈ table.states, ∀ symbol,
    ¬ Relation.TransGen (UnitStep (ctx.unitReductionSymbolAt table) state) symbol symbol

variable {ctx table}

theorem referencedStates_eq (state : ParseState) (table : ParseTable) :
    state.referencedStates table =
      state.shiftTargets table.actionLists ++ state.gotoTargets := by
  rw [ParseState.referencedStates, ParseState.shiftTargets, ParseState.allActions,
    filterMap_flatMap]
  rfl

theorem GotosComplete.relinkable (h : GotosComplete ctx table) {state : ParseState}
    (hstate : state ∈ table.states) :
    Relinkable (ctx.unitReductionSymbolAt table) table.actionLists state where
  inRange := h.inRange state hstate
  gotos target hmem := h.gotos state hstate target (by
    rw [referencedStates_eq]
    exact mem_append_right _ hmem)
  shifts target hmem := h.gotos state hstate target (by
    rw [referencedStates_eq]
    exact mem_append_left _ hmem)

theorem scanAction_rename (found : Option Symbol) (f : Nat → Nat) (action : ParseAction) :
    ctx.scanAction found (action.rename f) = ctx.scanAction found action := by
  cases action <;> rfl

variable {unitSymbol : Nat → Option Symbol}

theorem Settled.unitReductionSymbol_eq {table' : ParseTable} {state state' : ParseState}
    (h : Settled unitSymbol state table.actionLists state' table'.actionLists) :
    ctx.unitReductionSymbol table' state' = ctx.unitReductionSymbol table state := by
  have hscan (actions : List ParseAction) (found : Option Symbol) :
      (actions.map (ParseAction.rename fun _ => 0)).foldlM ctx.scanAction found =
        actions.foldlM ctx.scanAction found := by
    rw [foldlM_map]
    simp only [scanAction_rename]
  have hactions : (state'.allActions table'.actionLists).foldlM ctx.scanAction none =
      (state.allActions table.actionLists).foldlM ctx.scanAction none := by
    rw [← hscan, h.actions, hscan]
  simp only [UnitReductionContext.unitReductionSymbol, h.eofGated]
  split
  · rfl
  · exact congrArg Option.join hactions

theorem unitReductionSymbolAt_eq {table' : ParseTable}
    (h : List.Forall₂ (fun state state' =>
      Settled unitSymbol state table.actionLists state' table'.actionLists)
      table.states table'.states) :
    ctx.unitReductionSymbolAt table' = ctx.unitReductionSymbolAt table := by
  have hsymbols : table'.states.map (ctx.unitReductionSymbol table') =
      table.states.map (ctx.unitReductionSymbol table) := by
    refine forall₂_eq_eq_eq ▸ ?_
    rw [forall₂_map_left_iff, forall₂_map_right_iff]
    exact h.flip.imp fun _ _ hsettled => hsettled.unitReductionSymbol_eq
  funext stateId
  have hget := congrArg (fun symbols => symbols[stateId]?.join) hsymbols
  have hjoin (f : ParseState → Option Symbol) (state : Option ParseState) :
      (state.map f).join = state.bind f := by
    cases state <;> rfl
  simpa [UnitReductionContext.unitReductionSymbolAt, hjoin] using hget

theorem unitReductionSymbolAt_eq_none
    (h : ((List.range table.states.length).all fun i =>
      (ctx.unitReductionSymbolAt table i).isNone) = true) (stateId : Nat) :
    ctx.unitReductionSymbolAt table stateId = none := by
  by_cases hlt : stateId < table.states.length
  · simpa using all_eq_true.mp h stateId (mem_range.mpr hlt)
  · rw [UnitReductionContext.unitReductionSymbolAt, getElem?_eq_none (Nat.le_of_not_lt hlt)]
    rfl

/-- **Unit reductions.** The pass ends, with no reference to a unit-reduction state left, exactly
if the gotos of no state go round in a circle of unit reductions. -/
theorem removeUnitReductions_ends_iff (h : GotosComplete ctx table) :
    EndsWithoutUnitReductions ctx table ↔ NoUnitCircle ctx table := by
  have hempty : ActionListInterner.Ok ⟨table.actionLists, .empty⟩ := fun _ _ hget => by cases hget
  constructor
  · intro ⟨rounds, table', hremove, _⟩ state hstate symbol hcircle
    rw [removeUnitReductions] at hremove
    split at hremove
    next hnone =>
      obtain ⟨next, -, target, -, hunit⟩ := trapped_of_circle hcircle symbol hcircle
      rw [unitReductionSymbolAt_eq_none hnone] at hunit
      cases hunit
    next =>
      rw [relinkStates_of_trapped (fun _ => h.relinkable) hempty prefix_rfl hstate
        (trapped_of_circle hcircle) ⟨symbol, hcircle⟩] at hremove
      cases hremove
  · intro hacyclic
    obtain ⟨rounds, hrounds⟩ := relinkStates_isSome (fun _ => h.relinkable) hacyclic
    obtain ⟨⟨states', pool'⟩, hstates⟩ := Option.isSome_iff_exists.mp
      (hrounds rounds le_rfl ⟨table.actionLists, .empty⟩ hempty prefix_rfl)
    by_cases hnone : ((List.range table.states.length).all fun i =>
        (ctx.unitReductionSymbolAt table i).isNone) = true
    · exact ⟨rounds, table, by rw [removeUnitReductions, if_pos hnone],
        fun _ _ target _ => unitReductionSymbolAt_eq_none hnone target⟩
    · obtain ⟨-, hsettled⟩ := relinkStates_spec (fun _ => h.relinkable) hempty prefix_rfl
        hstates
      refine ⟨rounds, { table with states := states', actionLists := pool'.lists }, ?_, ?_⟩
      · rw [removeUnitReductions, if_neg hnone, hstates]
        rfl
      · intro state' hstate' target htarget
        rw [unitReductionSymbolAt_eq hsettled]
        obtain ⟨state, -, hsettled⟩ := exists_of_forall₂ hsettled hstate'
        rw [referencedStates_eq, mem_append] at htarget
        exact htarget.elim (hsettled.shifts target) (hsettled.gotos target)

/-- A grammar in which no symbol is shown. -/
def hiddenContext : UnitReductionContext where
  steps := []
  variableKind _ := .hidden
  supertypeSymbols := []
  extraSymbols := []
  simpleAliases := .empty

/-- A state that only shifts or reduces on one token. -/
def oneActionState (id list : Nat) (nonterminals : IndexMap Symbol GotoAction) : ParseState where
  id := id
  terminalEntries := IndexMap.empty.insert (.terminal 0) ⟨list, true⟩
  nonterminalEntries := nonterminals

/-- The variables 0 and 1 stand for each other, and 0 for a token. The goto on 0 leads to the state
2, and that on 1 to the state 3, which reduces to 0; `list` says what the state 2 does. -/
def circleTable (list : Nat) : ParseTable where
  states := [oneActionState 0 0 .empty, oneActionState 1 1
      ((IndexMap.empty.insert (.nonTerminal 0) (.goto 2)).insert (.nonTerminal 1) (.goto 3)),
    oneActionState 2 list .empty, oneActionState 3 2 .empty]
  actionLists := [[.recover], [.shift 3 false], [.reduce (.nonTerminal 0) 1 0 0],
    [.reduce (.nonTerminal 1) 1 0 0], [.accept]]

theorem circleTable_gotosComplete {list : Nat} (hlist : list = 3 ∨ list = 4) :
    GotosComplete hiddenContext (circleTable list) := by
  have hgotos : ∀ state ∈ (circleTable list).states,
      ∀ target ∈ state.referencedStates (circleTable list),
        (hiddenContext.unitReductionSymbolAt (circleTable list) target).all
          fun symbol => (state.gotoTarget symbol).isSome := by
    rcases hlist with rfl | rfl <;> decide +kernel
  constructor
  · rcases hlist with rfl | rfl <;> unfold ParseState.InRange <;> decide
  · intro state hstate target htarget symbol hsymbol
    simpa [hsymbol] using hgotos state hstate target htarget

/-- If state 2 reduces to the variable 1, the pass does not end. -/
theorem exists_not_endsWithoutUnitReductions : ∃ ctx table, GotosComplete ctx table ∧
    ¬ EndsWithoutUnitReductions ctx table := by
  refine ⟨hiddenContext, circleTable 3, circleTable_gotosComplete (.inl rfl), ?_⟩
  intro ⟨rounds, table', hremove, _⟩
  have hstep (i j : Nat) (h : i = 0 ∧ j = 1 ∨ i = 1 ∧ j = 0) :
      UnitStep (hiddenContext.unitReductionSymbolAt (circleTable 3))
        (oneActionState 1 1 ((IndexMap.empty.insert (.nonTerminal 0) (.goto 2)).insert
          (.nonTerminal 1) (.goto 3))) (.nonTerminal i) (.nonTerminal j) := by
    rcases h with ⟨rfl, rfl⟩ | ⟨rfl, rfl⟩
    · exact ⟨2, rfl, rfl⟩
    · exact ⟨3, rfl, rfl⟩
  have hcircle := Relation.TransGen.tail (.single (hstep 0 1 (.inl ⟨rfl, rfl⟩)))
    (hstep 1 0 (.inr ⟨rfl, rfl⟩))
  rw [removeUnitReductions, if_neg (by decide +kernel), relinkStates_of_trapped
    (fun _ => (circleTable_gotosComplete (.inl rfl)).relinkable) (fun _ _ h => by cases h)
    prefix_rfl (mem_of_getElem? (i := 1) rfl) (trapped_of_circle hcircle) ⟨_, hcircle⟩] at hremove
  cases hremove

/-- If it accepts, the pass ends. -/
theorem endsWithoutUnitReductions_accepting :
    EndsWithoutUnitReductions hiddenContext (circleTable 4) := by
  refine (removeUnitReductions_ends_iff (circleTable_gotosComplete (.inr rfl))).mpr ?_
  intro state hstate symbol hcircle
  -- The only unit reduction at the end of a goto is that of the variable 0.
  have htargets : ∀ state ∈ (circleTable 4).states, ∀ e ∈ state.nonterminalEntries.entries,
      (e.2.target.bind (hiddenContext.unitReductionSymbolAt (circleTable 4))).all
        fun next => next.index < e.1.index := by
    decide +kernel
  have hless (symbol next : Symbol)
      (hstep : UnitStep (hiddenContext.unitReductionSymbolAt (circleTable 4)) state symbol next) :
      next.index < symbol.index := by
    obtain ⟨target, htarget, hunit⟩ := hstep
    rw [ParseState.gotoTarget] at htarget
    split at htarget
    next hget =>
      cases htarget
      have := htargets state hstate _ (IndexMap.mem_entries_iff.mpr hget)
      simpa [GotoAction.target, hunit] using this
    next => cases htarget
  have hall (symbol next : Symbol)
      (h : Relation.TransGen (UnitStep (hiddenContext.unitReductionSymbolAt (circleTable 4)) state)
        symbol next) : next.index < symbol.index := by
    induction h with
    | single hstep => exact hless _ _ hstep
    | tail _ hstep ih => exact (hless _ _ hstep).trans ih
  exact lt_irrefl _ (hall symbol symbol hcircle)

end TreeSitter.Generate
