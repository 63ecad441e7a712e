import TreeSitter.Generate.BuildTables.MinimizeParseTable
import TreeSitter.Library.Fallible

/-!
# TreeSitter.Generate.BuildTables.MinimizeParseTableSound

`merge_compatible_states` computes a **quotient** of the parse table: the final group of
a state is its new id, and under that renaming every entry of a state is an entry of its
new state, which has no others.

The argument has three parts. A pair of states that stayed together passed the conflict
test under *some* grouping, which fixes their common entries up to the targets of shifts
(`Compatible`). The successor test holds under the *final* grouping, which fixes the
targets (`SuccessorsAgree`). And a merged state's entry is some member's entry, so the
two together give the entry of every other member.
-/

namespace TreeSitter.Generate

open List Library

variable {ctx : MinimizerContext} {table : ParseTable} {groupOf : Nat → Nat}

/-! ### What the tests establish -/

/-- Equal, or shifts that differ in their target only. -/
inductive SameShape : ParseAction → ParseAction → Prop
  | refl (action : ParseAction) : SameShape action action
  | shift (s₁ s₂ : Nat) (isRepetition : Bool) :
      SameShape (.shift s₁ isRepetition) (.shift s₂ isRepetition)

theorem SameShape.symm {a b : ParseAction} (h : SameShape a b) : SameShape b a := by
  cases h with
  | refl => exact .refl a
  | shift s₁ s₂ isRepetition => exact .shift s₂ s₁ isRepetition

theorem sameShape_of_not_conflicts {a b : ParseAction}
    (h : actionConflicts groupOf a b = false) : SameShape a b := by
  cases a <;> cases b <;> simp_all [actionConflicts] <;> first | exact .refl _ | exact .shift _ _ _

/-- The common terminal entries of two states have lists of the same shape. -/
def Compatible (table : ParseTable) (state₁ state₂ : ParseState) : Prop :=
  ∀ symbol id₁ id₂, state₁.terminalEntries.get? symbol = some id₁ →
    state₂.terminalEntries.get? symbol = some id₂ →
    List.Forall₂ SameShape (table.actions id₁) (table.actions id₂)

variable {state₂ state₁ : ParseState}

theorem Compatible.symm (h : Compatible table state₁ state₂) :
    Compatible table state₂ state₁ :=
  fun symbol id₂ id₁ h₂ h₁ => (h symbol id₁ id₂ h₁ h₂).flip.imp fun _ _ hab => hab.symm

theorem sameShape_of_entries_compatible {id₁ id₂ : ActionListId}
    (h : entriesConflict table groupOf id₁ id₂ = false) :
    List.Forall₂ SameShape (table.actions id₁) (table.actions id₂) := by
  rw [entriesConflict] at h
  split at h
  · rename_i hindex
    have heq : table.actions id₁ = table.actions id₂ := by
      rw [ParseTable.actions, ParseTable.actions, hindex]
    rw [heq]
    exact forall₂_same.mpr fun a _ => .refl a
  · split at h
    · cases h
    · rename_i hlen
      rw [any_eq_false] at h
      refine forall₂_iff_zip.mpr ⟨not_not.mp hlen, fun {a b} hab => ?_⟩
      exact sameShape_of_not_conflicts (Bool.eq_false_iff.mpr (h (a, b) hab))

variable {ν : Type}

theorem sortedEntries_sorted {κ : Type} [LinearOrder κ] {key : Symbol → κ} {m : IndexMap Symbol ν}
    (hkey : (m.keys.map key).Nodup) :
    SortedBy (fun e : Symbol × ν => key e.1) (sortedEntries key m) := by
  refine sortedBy_insertionSort (fun e : Symbol × ν => key e.1) ?_
  rw [IndexMap.keys, map_map] at hkey
  exact hkey

variable {symbol : Symbol}

theorem mem_sortedEntries {κ : Type} [LinearOrder κ] {key : Symbol → κ} {m : IndexMap Symbol ν}
    {v : ν} :
    (symbol, v) ∈ sortedEntries key m ↔ m.get? symbol = some v := by
  rw [sortedEntries, mem_insertionSort, IndexMap.mem_entries_iff]

theorem nodup_symbolKeys (m : IndexMap Symbol ν) :
    (m.keys.map symbolKey).Nodup :=
  m.nodup.map symbolKey_injective

/-- State ids are indices. -/
def IdsAreIndices (table : ParseTable) : Prop :=
  ∀ (i : Nat) (state : ParseState), table.states[i]? = some state → state.id = i

variable {state : ParseState} {i : Nat}

theorem entryMap_eq (hids : IdsAreIndices table) (h : table.states[i]? = some state) :
    entryMap table state.id = sortedEntries symbolKey state.terminalEntries := by
  rw [entryMap, hids i state h, h]

variable {j : Nat}

theorem compatible_of_not_conflict (hids : IdsAreIndices table)
    (h₁ : table.states[i]? = some state₁) (h₂ : table.states[j]? = some state₂)
    (h : statesConflict ctx table state₁ state₂ groupOf = false) :
    Compatible table state₁ state₂ := by
  intro symbol id₁ id₂ hid₁ hid₂
  rw [statesConflict, entryMap_eq hids h₁, entryMap_eq hids h₂] at h
  exact sameShape_of_entries_compatible
    (mergeAny_eq_false (sortedEntries_sorted (nodup_symbolKeys _))
      (sortedEntries_sorted (nodup_symbolKeys _)) h
      (symbol, id₁) (mem_sortedEntries.mpr hid₁) (symbol, id₂) (mem_sortedEntries.mpr hid₂) rfl)

/-- The successors of two states under common symbols are in the same groups. -/
structure SuccessorsAgree (table : ParseTable) (groupOf : Nat → Nat)
    (state₁ state₂ : ParseState) : Prop where
  shifts : ∀ symbol id₁ id₂ s₁ s₂, state₁.terminalEntries.get? symbol = some id₁ →
    state₂.terminalEntries.get? symbol = some id₂ →
    lastShift (table.actions id₁) = some s₁ → lastShift (table.actions id₂) = some s₂ →
    groupOf s₁ = groupOf s₂
  gotos : ∀ symbol a₁ a₂, state₁.nonterminalEntries.get? symbol = some a₁ →
    state₂.nonterminalEntries.get? symbol = some a₂ →
    a₁.rename groupOf = a₂.rename groupOf

theorem SuccessorsAgree.refl (table : ParseTable) (groupOf : Nat → Nat) (state : ParseState) :
    SuccessorsAgree table groupOf state state where
  shifts _ id₁ id₂ s₁ s₂ h₁ h₂ hs₁ hs₂ := by
    rw [h₁, Option.some_inj] at h₂
    subst h₂
    rw [hs₁, Option.some_inj] at hs₂
    rw [hs₂]
  gotos _ a₁ a₂ h₁ h₂ := by
    rw [h₁, Option.some_inj] at h₂
    rw [h₂]

theorem SuccessorsAgree.symm (h : SuccessorsAgree table groupOf state₁ state₂) :
    SuccessorsAgree table groupOf state₂ state₁ where
  shifts symbol id₂ id₁ s₂ s₁ h₂ h₁ hs₂ hs₁ := (h.shifts symbol id₁ id₂ s₁ s₂ h₁ h₂ hs₁ hs₂).symm
  gotos symbol a₂ a₁ h₂ h₁ := (h.gotos symbol a₁ a₂ h₁ h₂).symm

theorem rename_eq_of_not_differ {a₁ a₂ : GotoAction} (h : gotosDiffer groupOf a₁ a₂ = false) :
    a₁.rename groupOf = a₂.rename groupOf := by
  cases a₁ <;> cases a₂ <;> simp_all [gotosDiffer, GotoAction.rename]

/-- The keys of the goto entries are nonterminals. -/
def GotosAreNonterminals (table : ParseTable) : Prop :=
  ∀ state ∈ table.states, ∀ symbol ∈ state.nonterminalEntries.keys, symbol.isNonTerminal = true

theorem nodup_gotoIndices {m : IndexMap Symbol GotoAction}
    (h : ∀ symbol ∈ m.keys, symbol.isNonTerminal = true) : (m.keys.map Symbol.index).Nodup := by
  refine List.Nodup.map_on ?_ m.nodup
  rintro ⟨k₁, i₁⟩ h₁ ⟨k₂, i₂⟩ h₂ heq
  have hk₁ := h _ h₁
  have hk₂ := h _ h₂
  simp only [Symbol.isNonTerminal, beq_iff_eq] at hk₁ hk₂
  rw [Symbol.mk.injEq]
  exact ⟨hk₁.trans hk₂.symm, heq⟩

theorem shiftMap_sorted (table : ParseTable) (stateId : Nat) :
    SortedBy (fun e : Symbol × Nat => symbolKey e.1) (shiftMap table stateId) := by
  rw [shiftMap]
  split
  · exact List.Pairwise.nil
  · rename_i state _
    refine sortedBy_insertionSort (fun e : Symbol × Nat => symbolKey e.1) ?_
    have hsub : List.Sublist ((state.terminalEntries.entries.filterMap fun e =>
        (lastShift (table.actions e.2)).map fun s => (e.1, s)).map Prod.fst)
          (state.terminalEntries.entries.map Prod.fst) := by
      generalize state.terminalEntries.entries = es
      induction es with
      | nil => exact List.Sublist.refl _
      | cons e es ih =>
        cases hlast : lastShift (table.actions e.2) with
        | none => simpa [hlast] using ih.cons e.1
        | some s => simpa [hlast] using ih.cons_cons e.1
    have hnodup := (state.terminalEntries.nodup.sublist hsub).map symbolKey_injective
    rw [map_map] at hnodup
    exact hnodup

theorem mem_shiftMap (hids : IdsAreIndices table) (h : table.states[i]? = some state)
    {id : ActionListId} {s : Nat} (hid : state.terminalEntries.get? symbol = some id)
    (hs : lastShift (table.actions id) = some s) : (symbol, s) ∈ shiftMap table state.id := by
  rw [shiftMap, hids i state h, h]
  dsimp only
  rw [mem_insertionSort, mem_filterMap]
  exact ⟨(symbol, id), IndexMap.mem_entries_iff.mpr hid, by simp [hs]⟩

theorem nonterminalMap_eq (hids : IdsAreIndices table) (h : table.states[i]? = some state) :
    nonterminalMap table state.id = sortedEntries Symbol.index state.nonterminalEntries := by
  rw [nonterminalMap, hids i state h, h]

theorem successorsAgree_of_not_differ (hids : IdsAreIndices table)
    (hgotos : GotosAreNonterminals table) (h₁ : table.states[i]? = some state₁)
    (h₂ : table.states[j]? = some state₂)
    (h : stateSuccessorsDiffer table state₁ state₂ groupOf = false) :
    SuccessorsAgree table groupOf state₁ state₂ := by
  obtain ⟨hshifts, hgoto⟩ := Bool.or_eq_false_iff.mp h
  constructor
  · intro symbol id₁ id₂ s₁ s₂ hid₁ hid₂ hs₁ hs₂
    have := mergeAny_eq_false (shiftMap_sorted table _) (shiftMap_sorted table _) hshifts
      (symbol, s₁) (mem_shiftMap hids h₁ hid₁ hs₁) (symbol, s₂) (mem_shiftMap hids h₂ hid₂ hs₂) rfl
    simpa using this
  · intro symbol a₁ a₂ ha₁ ha₂
    rw [nonterminalMap_eq hids h₁, nonterminalMap_eq hids h₂] at hgoto
    have hn₁ := nodup_gotoIndices (hgotos state₁ (mem_of_getElem? h₁))
    have hn₂ := nodup_gotoIndices (hgotos state₂ (mem_of_getElem? h₂))
    exact rename_eq_of_not_differ (mergeAny_eq_false (sortedEntries_sorted hn₁)
      (sortedEntries_sorted hn₂) hgoto (symbol, a₁) (mem_sortedEntries.mpr ha₁)
      (symbol, a₂) (mem_sortedEntries.mpr ha₂) rfl)

/-! ### The groups -/

/-- The parse tables the pass is given: ids are indices, references stay in range, the
core ids have no gaps and those of the states 0 and 1 are 0 and 1, and a shift stands
only at the end of its list. -/
structure MergeInput (table : ParseTable) : Prop where
  ids : IdsAreIndices table
  gotos : GotosAreNonterminals table
  core_zero : table.states[0]?.map ParseState.coreId = some 0
  core_one : table.states[1]?.map ParseState.coreId = some 1
  cores : ∀ state ∈ table.states, ∀ c < state.coreId, ∃ other ∈ table.states, other.coreId = c
  shift_last : ∀ actions ∈ table.actionLists, ∀ action ∈ actions.dropLast,
    ∀ s isRepetition, action ≠ .shift s isRepetition
  in_pool : ∀ state ∈ table.states, ∀ e ∈ state.terminalEntries.entries,
    e.2.index < table.actionLists.length
  shift_lt : ∀ state ∈ table.states, ∀ e ∈ state.terminalEntries.entries,
    ∀ s isRepetition, .shift s isRepetition ∈ table.actions e.2 → s < table.states.length
  goto_lt : ∀ state ∈ table.states, ∀ e ∈ state.nonterminalEntries.entries,
    ∀ s, e.2 = .goto s → s < table.states.length

variable {k : Nat}

theorem getElem?_coreGroups {coreCount : Nat} {ids : List Nat} :
    (coreGroups table coreCount).members[k]? = some ids ↔ k < coreCount ∧
      (List.range table.states.length).filter (fun i =>
        (table.states[i]?.map ParseState.coreId) == some k) = ids := by
  simp only [coreGroups, getElem?_map]
  rcases Nat.lt_or_ge k coreCount with hk | hk
  · rw [getElem?_range hk]
    simp [hk]
  · rw [getElem?_eq_none (by simpa using hk)]
    simp [Nat.not_lt.mpr hk]

theorem mem_coreGroup :
    i ∈ (List.range table.states.length).filter (fun i =>
        (table.states[i]?.map ParseState.coreId) == some k) ↔
      ∃ state, table.states[i]? = some state ∧ state.coreId = k := by
  rw [mem_filter, mem_range, beq_iff_eq, Option.map_eq_some_iff]
  constructor
  · exact fun h => h.2
  · rintro ⟨state, hstate, hk⟩
    exact ⟨(List.getElem?_eq_some_iff.mp hstate).1, state, hstate, hk⟩

variable {maxCore : Nat}

theorem coreGroups_partition (hinput : MergeInput table)
    (hmax : (table.states.map ParseState.coreId).max? = some maxCore) :
    Partition table.states.length (coreGroups table (maxCore + 1)) := by
  obtain ⟨hmem, hle⟩ := max?_eq_some_iff.mp hmax
  constructor
  · intro k ids i hk hi
    obtain ⟨-, rfl⟩ := getElem?_coreGroups.mp hk
    obtain ⟨state, hstate, hcore⟩ := mem_coreGroup.mp hi
    exact ⟨(List.getElem?_eq_some_iff.mp hstate).1, by simp [coreGroups, hstate, hcore]⟩
  · intro i hi
    have hstate : table.states[i]? = some table.states[i] := List.getElem?_eq_getElem hi
    have hgroup : (coreGroups table (maxCore + 1)).groupOf i = table.states[i].coreId := by
      simp [coreGroups, hi]
    refine ⟨_, getElem?_coreGroups.mpr ⟨?_, rfl⟩, mem_coreGroup.mpr ⟨_, hstate, hgroup.symm⟩⟩
    rw [hgroup]
    exact Nat.lt_succ_of_le
      (hle _ (mem_map_of_mem (f := ParseState.coreId) (getElem_mem hi)))
  · intro k ids hk
    obtain ⟨hlt, rfl⟩ := getElem?_coreGroups.mp hk
    -- the core ids below the largest one are all in use
    obtain ⟨top, htop, rfl⟩ := mem_map.mp hmem
    obtain ⟨other, hother, hcore⟩ : ∃ other ∈ table.states, other.coreId = k := by
      rcases Nat.lt_or_eq_of_le (Nat.le_of_lt_succ hlt) with hlt | rfl
      · exact hinput.cores top htop k hlt
      · exact ⟨top, htop, rfl⟩
    obtain ⟨i, hi⟩ := mem_iff_getElem?.mp hother
    exact ne_nil_of_mem (mem_coreGroup.mpr ⟨other, hi, hcore⟩)
  · intro k ids hk
    obtain ⟨-, rfl⟩ := getElem?_coreGroups.mp hk
    exact nodup_range.filter _

theorem coreGroups_leader (hle : i ≤ maxCore)
    (hcore : table.states[i]?.map ParseState.coreId = some i)
    (hbefore : ∀ j < i, table.states[j]?.map ParseState.coreId ≠ some i) :
    ∃ rest, (coreGroups table (maxCore + 1)).members[i]? = some (i :: rest) := by
  have hi : i < table.states.length := by
    obtain ⟨state, hstate, -⟩ := Option.map_eq_some_iff.mp hcore
    exact (List.getElem?_eq_some_iff.mp hstate).1
  have hrange : List.range table.states.length =
      List.range i ++ i :: (List.range (table.states.length - i - 1)).map (i + 1 + ·) := by
    have hsum : table.states.length = i + 1 + (table.states.length - i - 1) := by omega
    conv_lhs => rw [hsum, range_add, range_succ, append_assoc]
    rfl
  have hnil : (List.range i).filter (fun j =>
      (table.states[j]?.map ParseState.coreId) == some i) = [] := by
    rw [filter_eq_nil_iff]
    intro j hj
    simpa using hbefore j (mem_range.mp hj)
  have hfilter := congrArg (List.filter fun j =>
    (table.states[j]?.map ParseState.coreId) == some i) hrange
  rw [filter_append, hnil, nil_append, filter_cons_of_pos (by simp [hcore])] at hfilter
  exact ⟨_, getElem?_coreGroups.mpr ⟨by omega, hfilter⟩⟩

/-- What the groups the refinements end in guarantee. -/
structure MergedGroups (table : ParseTable) (groups : Groups) : Prop where
  partition : Partition table.states.length groups
  leader_zero : ∃ rest, groups.members[0]? = some (0 :: rest)
  leader_one : ∃ rest, groups.members[1]? = some (1 :: rest)
  agree : ∀ (i j : Nat) (state₁ state₂ : ParseState), table.states[i]? = some state₁ →
    table.states[j]? = some state₂ → groups.groupOf i = groups.groupOf j →
    Compatible table state₁ state₂ ∧ SuccessorsAgree table groups.groupOf state₁ state₂ ∧
      state₁.coreId = state₂.coreId

theorem differIn_of_getElem? {S : Type*} {states : List S}
    {shouldSplit : S → S → (Nat → Nat) → Bool} {l r : S} (hi : states[i]? = some l)
    (hj : states[j]? = some r) :
    differIn states shouldSplit groupOf i j = shouldSplit l r groupOf := by
  rw [differIn, hi, hj]

theorem mergeGroups_spec (ctx : MinimizerContext) (hinput : MergeInput table)
    (hmax : (table.states.map ParseState.coreId).max? = some maxCore) :
    MergedGroups table (mergeGroups ctx table (maxCore + 1)) := by
  have hcores := coreGroups_partition hinput hmax
  have hpass := splitStateIdGroups_spec (differIn table.states (statesConflict ctx table)) 0 hcores
  have hstable := splitUntilStable_spec (differIn table.states (stateSuccessorsDiffer table)) 0
    (table.states.length + 1) hpass.partition (by omega)
  have hone : 1 ≤ maxCore := by
    obtain ⟨state, hstate, hcore⟩ := Option.map_eq_some_iff.mp hinput.core_one
    have := (max?_eq_some_iff.mp hmax).2 _
      (mem_map_of_mem (f := ParseState.coreId) (mem_of_getElem? hstate))
    omega
  obtain ⟨rest₀, hlead₀⟩ := coreGroups_leader (Nat.zero_le maxCore) hinput.core_zero (by simp)
  obtain ⟨rest₁, hlead₁⟩ := coreGroups_leader hone hinput.core_one (by
    intro j hj
    obtain rfl : j = 0 := by omega
    simp [hinput.core_zero])
  have hleaders := hpass.leaders.trans hstable.leaders
  refine ⟨hstable.partition, hleaders _ _ _ hlead₀, hleaders _ _ _ hlead₁, ?_⟩
  intro i j state₁ state₂ h₁ h₂ hij
  have hi : i < table.states.length := (List.getElem?_eq_some_iff.mp h₁).1
  have hj : j < table.states.length := (List.getElem?_eq_some_iff.mp h₂).1
  refine ⟨?_, ?_, ?_⟩
  · -- the pair passed the conflict test in the first pass
    rcases hpass.partition.pair_of_groupOf_eq hpass.tested hi hj
        (hstable.refines i j hi hj hij) with rfl | ⟨groupOf, h⟩ | ⟨groupOf, h⟩
    · rw [h₁, Option.some_inj] at h₂
      subst h₂
      intro symbol id₁ id₂ hid₁ hid₂
      rw [hid₁, Option.some_inj] at hid₂
      rw [hid₂]
      exact forall₂_same.mpr fun a _ => .refl a
    · rw [differIn_of_getElem? h₁ h₂] at h
      exact compatible_of_not_conflict hinput.ids h₁ h₂ h
    · rw [differIn_of_getElem? h₂ h₁] at h
      exact (compatible_of_not_conflict hinput.ids h₂ h₁ h).symm
  · -- and the successor test under the final grouping
    rcases hstable.partition.pair_of_groupOf_eq hstable.stable hi hj hij with rfl | h | h
    · rw [h₁, Option.some_inj] at h₂
      exact h₂ ▸ SuccessorsAgree.refl table _ state₁
    · rw [differIn_of_getElem? h₁ h₂] at h
      exact successorsAgree_of_not_differ hinput.ids hinput.gotos h₁ h₂ h
    · rw [differIn_of_getElem? h₂ h₁] at h
      exact (successorsAgree_of_not_differ hinput.ids hinput.gotos h₂ h₁ h).symm
  · have := (hpass.refines.trans hstable.refines) i j hi hj hij
    simpa [coreGroups, h₁, h₂] using this

/-! ### The merged states -/

/-- Lists of one shape, with shifts only at the end, are equal once the targets of those
shifts are renamed alike. -/
theorem map_rename_eq {l₁ l₂ : List ParseAction} (h : List.Forall₂ SameShape l₁ l₂)
    (hlast : ∀ action ∈ l₁.dropLast, ∀ s isRepetition, action ≠ .shift s isRepetition)
    (hshift : ∀ s₁ s₂, lastShift l₁ = some s₁ → lastShift l₂ = some s₂ → groupOf s₁ = groupOf s₂) :
    l₁.map (ParseAction.rename groupOf) = l₂.map (ParseAction.rename groupOf) := by
  induction h with
  | nil => rfl
  | @cons a b l₁ l₂ hab hrest ih =>
    cases hrest with
    | nil =>
      cases hab with
      | refl => rfl
      | shift s₁ s₂ isRepetition =>
        simp [ParseAction.rename, hshift s₁ s₂ rfl rfl]
    | @cons c d l₁ l₂ hcd hrest =>
      rw [dropLast_cons_cons] at hlast
      have hhead : a = b := by
        cases hab with
        | refl => rfl
        | shift s₁ s₂ isRepetition => exact absurd rfl (hlast _ mem_cons_self s₁ _)
      exact congrArg₂ List.cons (by rw [hhead])
        (ih (fun action ha => hlast action (mem_cons_of_mem _ ha)) hshift)

theorem get?_foldl_extendState {proj : ParseState → IndexMap Symbol ν}
    (hproj : ∀ a b, proj (extendState a b) = (proj a).extend (proj b)) (symbol : Symbol) :
    ∀ (others : List ParseState) (first : ParseState),
      (∀ v, (proj (others.foldl extendState first)).get? symbol = some v →
        ∃ state ∈ first :: others, (proj state).get? symbol = some v) ∧
      ∀ state ∈ first :: others, ∀ v, (proj state).get? symbol = some v →
        ∃ v', (proj (others.foldl extendState first)).get? symbol = some v'
  | [], first => by
    simp only [foldl_nil, mem_singleton, exists_eq_left, forall_eq]
    exact ⟨fun v hv => hv, fun v hv => ⟨v, hv⟩⟩
  | other :: others, first => by
    obtain ⟨hfrom, hto⟩ := get?_foldl_extendState hproj symbol others (extendState first other)
    have hget : (proj (extendState first other)).get? symbol =
        ((proj other).get? symbol).or ((proj first).get? symbol) := by
      rw [hproj, IndexMap.get?_extend]
    rw [foldl_cons]
    constructor
    · intro v hv
      obtain ⟨state, hstate, hv⟩ := hfrom v hv
      rcases mem_cons.mp hstate with rfl | hstate
      · rw [hget, Option.or_eq_some_iff] at hv
        rcases hv with hv | ⟨-, hv⟩
        · exact ⟨other, by simp, hv⟩
        · exact ⟨first, by simp, hv⟩
      · exact ⟨state, by simp [hstate], hv⟩
    · intro state hstate v hv
      have hmerged : ∀ w, ((proj other).get? symbol).or ((proj first).get? symbol) = some w →
          ∃ v', (proj (others.foldl extendState (extendState first other))).get? symbol =
            some v' :=
        fun w hw => hto (extendState first other) (by simp) w (hget.trans hw)
      rw [mem_cons, mem_cons] at hstate
      rcases hstate with rfl | rfl | hstate
      · cases hother : (proj other).get? symbol with
        | none => exact hmerged v (by rw [hother, Option.none_or, hv])
        | some w => exact hmerged w (by rw [hother, Option.some_or])
      · exact hmerged v (by rw [hv, Option.some_or])
      · exact hto state (by simp [hstate]) v hv

theorem mergeGroup_spec {ids : List Nat} (hne : ids ≠ [])
    (hlt : ∀ i ∈ ids, i < table.states.length) :
    ∃ merged, mergeGroup table ids = some merged ∧
      ∀ {ν : Type} {proj : ParseState → IndexMap Symbol ν},
        (∀ a b, proj (extendState a b) = (proj a).extend (proj b)) → ∀ symbol,
        (∀ v, (proj merged).get? symbol = some v → ∃ i ∈ ids, ∃ state,
          table.states[i]? = some state ∧ (proj state).get? symbol = some v) ∧
        ∀ i ∈ ids, ∀ state v, table.states[i]? = some state →
          (proj state).get? symbol = some v → ∃ v', (proj merged).get? symbol = some v' := by
  obtain ⟨states, hstates⟩ := exists_mapM (f := fun i : Nat => table.states[i]?)
    fun i (hi : i ∈ ids) => ⟨_, List.getElem?_eq_getElem (hlt i hi)⟩
  have hget := getElem?_of_mapM hstates
  obtain ⟨i, ids, rfl⟩ := exists_cons_of_ne_nil hne
  obtain ⟨first, others, rfl⟩ : ∃ first others, states = first :: others := by
    have := (mapM_eq_some.mp hstates).length_eq
    exact exists_cons_of_length_eq_add_one this.symm
  refine ⟨others.foldl extendState first,
    by simp only [mergeGroup, hstates, Option.bind_eq_bind, Option.bind_some], ?_⟩
  intro ν proj hproj symbol
  obtain ⟨hfrom, hto⟩ := get?_foldl_extendState hproj symbol others first
  constructor
  · intro v hv
    obtain ⟨state, hstate, hv⟩ := hfrom v hv
    obtain ⟨k, hk⟩ := mem_iff_getElem?.mp hstate
    rw [hget, Option.bind_eq_some_iff] at hk
    obtain ⟨j, hj, hstate⟩ := hk
    exact ⟨j, mem_of_getElem? hj, state, hstate, hv⟩
  · intro j hj state v hstate hv
    obtain ⟨k, hk⟩ := mem_iff_getElem?.mp hj
    refine hto state (mem_iff_getElem?.mpr ⟨k, ?_⟩) v hv
    rw [hget, hk, Option.bind_some, hstate]

variable {groups : Groups}

theorem swapGroups_eq (h : MergedGroups table groups) :
    swapGroups groups.members = some groups.members := by
  obtain ⟨rest₀, h₀⟩ := h.leader_zero
  obtain ⟨rest₁, h₁⟩ := h.leader_one
  have hself : ∀ {i : Nat} {ids : List Nat}, groups.members[i]? = some ids →
      swapAt groups.members i i = some groups.members := by
    intro i ids hi
    obtain ⟨hlt, rfl⟩ := List.getElem?_eq_some_iff.mp hi
    simp [swapAt, hi]
  have hzero : groups.members.findIdx? (·.contains 0) = some 0 := by
    rw [findIdx?_eq_some_iff_getElem]
    obtain ⟨hlt, hget⟩ := List.getElem?_eq_some_iff.mp h₀
    exact ⟨hlt, by rw [hget]; simp, fun j hj => absurd hj (Nat.not_lt_zero j)⟩
  have hone : groups.members.findIdx? (·.contains 1) = some 1 := by
    rw [findIdx?_eq_some_iff_getElem]
    obtain ⟨hlt, hget⟩ := List.getElem?_eq_some_iff.mp h₁
    refine ⟨hlt, by rw [hget]; simp, fun j hj hcontains => ?_⟩
    obtain rfl : j = 0 := by omega
    have hgroup := (h.partition.of_mem h₁ mem_cons_self).2
    have hmem : 1 ∈ groups.members[0] := by simpa using hcontains
    have := (h.partition.of_mem (List.getElem?_eq_getElem (by omega)) hmem).2
    omega
  simp only [swapGroups, hzero, hone, Option.bind_eq_bind, Option.bind_some, hself h₀, hself h₁]

/-! ### The quotient -/

/-- `table'` is the quotient of `table` under the renaming `g`: every entry of a state is
an entry of its new state, with the targets renamed, and a new state has no others. -/
structure IsQuotient (table table' : ParseTable) (g : Nat → Nat) : Prop where
  surjective : ∀ k < table'.states.length, ∃ i < table.states.length, g i = k
  terminal : ∀ (i : Nat) (state : ParseState) (symbol : Symbol) (id : ActionListId),
    table.states[i]? = some state → state.terminalEntries.get? symbol = some id →
    ∃ state' id', table'.states[g i]? = some state' ∧
      state'.terminalEntries.get? symbol = some id' ∧ id'.reusable = id.reusable ∧
      table'.actions id' = (table.actions id).map (ParseAction.rename g)
  goto : ∀ (i : Nat) (state : ParseState) (symbol : Symbol) (action : GotoAction),
    table.states[i]? = some state → state.nonterminalEntries.get? symbol = some action →
    ∃ state', table'.states[g i]? = some state' ∧
      state'.nonterminalEntries.get? symbol = some (action.rename g)
  terminal_from : ∀ (k : Nat) (state' : ParseState) (symbol : Symbol) (id' : ActionListId),
    table'.states[k]? = some state' → state'.terminalEntries.get? symbol = some id' →
    ∃ i state id, table.states[i]? = some state ∧ g i = k ∧
      state.terminalEntries.get? symbol = some id
  goto_from : ∀ (k : Nat) (state' : ParseState) (symbol : Symbol) (action' : GotoAction),
    table'.states[k]? = some state' → state'.nonterminalEntries.get? symbol = some action' →
    ∃ i state action, table.states[i]? = some state ∧ g i = k ∧
      state.nonterminalEntries.get? symbol = some action

/-- States of one core have the same flag on a common symbol. -/
def FlagsAgree (table : ParseTable) : Prop :=
  ∀ state₁ ∈ table.states, ∀ state₂ ∈ table.states, state₁.coreId = state₂.coreId →
    ∀ symbol id₁ id₂, state₁.terminalEntries.get? symbol = some id₁ →
      state₂.terminalEntries.get? symbol = some id₂ → id₁.reusable = id₂.reusable

/-- The new states: one for each group, made from its members. -/
structure MergedStates (table : ParseTable) (groups : Groups) (newStates : List ParseState) :
    Prop where
  length_eq : newStates.length = groups.members.length
  merged : ∀ (k : Nat) (ids : List Nat), groups.members[k]? = some ids →
    ∃ state', newStates[k]? = some state' ∧
      (∀ symbol id, state'.terminalEntries.get? symbol = some id → ∃ i ∈ ids, ∃ state,
        table.states[i]? = some state ∧ state.terminalEntries.get? symbol = some id) ∧
      (∀ i ∈ ids, ∀ state symbol id, table.states[i]? = some state →
        state.terminalEntries.get? symbol = some id →
        ∃ id', state'.terminalEntries.get? symbol = some id') ∧
      (∀ symbol action', state'.nonterminalEntries.get? symbol = some action' →
        ∃ i ∈ ids, ∃ state action, table.states[i]? = some state ∧
          state.nonterminalEntries.get? symbol = some action ∧
          action' = action.rename groups.groupOf) ∧
      ∀ i ∈ ids, ∀ state symbol action, table.states[i]? = some state →
        state.nonterminalEntries.get? symbol = some action →
        ∃ action', state'.nonterminalEntries.get? symbol = some action'

theorem exists_mergedStates (h : Partition table.states.length groups) :
    ∃ newStates, (groups.members.mapM fun ids => (mergeGroup table ids).map
        (·.updateNonterminalReferences fun s _ => groups.groupOf s)) = some newStates ∧
      MergedStates table groups newStates := by
  have hgroup : ∀ {k : Nat} {ids : List Nat}, groups.members[k]? = some ids →
      ∀ i ∈ ids, i < table.states.length := fun hk i hi => (h.of_mem hk hi).1
  obtain ⟨newStates, hnew⟩ := exists_mapM
    (f := fun ids => (mergeGroup table ids).map
      (·.updateNonterminalReferences fun s _ => groups.groupOf s))
    (fun ids (hids : ids ∈ groups.members) => by
      obtain ⟨k, hk⟩ := mem_iff_getElem?.mp hids
      obtain ⟨merged, hmerged, -⟩ := mergeGroup_spec (h.nonempty hk) (hgroup hk)
      exact ⟨_, by rw [hmerged]; rfl⟩)
  refine ⟨newStates, hnew, (mapM_eq_some.mp hnew).length_eq.symm, fun k ids hk => ?_⟩
  obtain ⟨merged, hmerged, hspec⟩ := mergeGroup_spec (h.nonempty hk) (hgroup hk)
  refine ⟨merged.updateNonterminalReferences fun s _ => groups.groupOf s, ?_, ?_⟩
  · rw [getElem?_of_mapM hnew, hk, Option.bind_some, hmerged, Option.map_some]
  · have hterm := @hspec _ ParseState.terminalEntries fun _ _ => rfl
    have hnon := @hspec _ ParseState.nonterminalEntries fun _ _ => rfl
    refine ⟨fun symbol => (hterm symbol).1, fun i hi state symbol id => (hterm symbol).2 i hi state id,
      fun symbol action' ha => ?_, fun i hi state symbol action hstate ha => ?_⟩
    · simp only [ParseState.updateNonterminalReferences, IndexMap.get?_mapValues,
        Option.map_eq_some_iff] at ha
      obtain ⟨action, ha, rfl⟩ := ha
      obtain ⟨i, hi, state, hstate, ha⟩ := (hnon symbol).1 action ha
      exact ⟨i, hi, state, action, hstate, ha, rfl⟩
    · obtain ⟨action', ha'⟩ := (hnon symbol).2 i hi state action hstate ha
      exact ⟨action'.rename groups.groupOf, by
        simp [ParseState.updateNonterminalReferences, IndexMap.get?_mapValues, ha']⟩

theorem ParseTable.isReferenced_of_get? {table : ParseTable} {id : ActionListId}
    (hstate : table.states[k]? = some state) (hid : state.terminalEntries.get? symbol = some id) :
    table.isReferenced id.index = true := by
  rw [ParseTable.isReferenced, any_eq_true]
  refine ⟨state, mem_of_getElem? hstate, any_eq_true.mpr ⟨(symbol, id), ?_, by simp⟩⟩
  exact IndexMap.mem_entries_iff.mpr hid

theorem ParseTable.dropLast_actions {table : ParseTable} (hinput : MergeInput table)
    (id : ActionListId) :
    ∀ action ∈ (table.actions id).dropLast, ∀ s isRepetition, action ≠ .shift s isRepetition := by
  rw [ParseTable.actions, getD_eq_getElem?_getD]
  cases h : table.actionLists[id.index]? with
  | none => simp
  | some actions => exact hinput.shift_last actions (mem_of_getElem? h)

theorem MergedStates.isQuotient (hinput : MergeInput table) (hflags : FlagsAgree table)
    (hgroups : MergedGroups table groups) {newStates : List ParseState}
    (h : MergedStates table groups newStates) :
    IsQuotient table ({ table with states := newStates }.remapTerminalReferences groups.groupOf)
      groups.groupOf := by
  have hp := hgroups.partition
  constructor
  · intro k hk
    have hk' : k < groups.members.length := h.length_eq ▸ hk
    have hget : groups.members[k]? = some groups.members[k] := List.getElem?_eq_getElem hk'
    obtain ⟨i, hi⟩ := exists_mem_of_ne_nil _ (hp.nonempty hget)
    exact ⟨i, hp.of_mem hget hi⟩
  · intro i state symbol id hstate hid
    obtain ⟨ids, hids, hmem⟩ := hp.exists_mem (List.getElem?_eq_some_iff.mp hstate).1
    obtain ⟨state', hstate', hfrom, hto, -, -⟩ := h.merged _ ids hids
    obtain ⟨id', hid'⟩ := hto i hmem state symbol id hstate hid
    -- the merged entry belongs to some member of the same group
    obtain ⟨j, hj, other, hother, hid''⟩ := hfrom symbol id' hid'
    obtain ⟨hcompat, hsucc, hcore⟩ := hgroups.agree j i other state hother hstate
      (hp.of_mem hids hj).2
    refine ⟨state', id', hstate', hid', ?_, ?_⟩
    · exact hflags other (mem_of_getElem? hother) state (mem_of_getElem? hstate) hcore
        symbol id' id hid'' hid
    · rw [ParseTable.actions_remapTerminalReferences _ _
        (ParseTable.isReferenced_of_get? hstate' hid')]
      exact map_rename_eq (hcompat symbol id' id hid'' hid)
        (ParseTable.dropLast_actions hinput id')
        (fun s₁ s₂ hs₁ hs₂ => hsucc.shifts symbol id' id s₁ s₂ hid'' hid hs₁ hs₂)
  · intro i state symbol action hstate haction
    obtain ⟨ids, hids, hmem⟩ := hp.exists_mem (List.getElem?_eq_some_iff.mp hstate).1
    obtain ⟨state', hstate', -, -, hfrom, hto⟩ := h.merged _ ids hids
    obtain ⟨action', haction'⟩ := hto i hmem state symbol action hstate haction
    obtain ⟨j, hj, other, otherAction, hother, hother', rfl⟩ := hfrom symbol action' haction'
    obtain ⟨-, hsucc, -⟩ := hgroups.agree j i other state hother hstate (hp.of_mem hids hj).2
    exact ⟨state', hstate', by
      rw [haction', hsucc.gotos symbol otherAction action hother' haction]⟩
  · intro k state' symbol id' hstate' hid'
    have hk : k < groups.members.length := by
      rw [← h.length_eq]
      exact (List.getElem?_eq_some_iff.mp hstate').1
    have hids : groups.members[k]? = some groups.members[k] := List.getElem?_eq_getElem hk
    obtain ⟨state'', hstate'', hfrom, -⟩ := h.merged k _ hids
    obtain rfl : state'' = state' := Option.some_inj.mp (hstate''.symm.trans hstate')
    obtain ⟨i, hi, state, hstate, hid⟩ := hfrom symbol id' hid'
    exact ⟨i, state, id', hstate, (hp.of_mem hids hi).2, hid⟩
  · intro k state' symbol action' hstate' haction'
    have hk : k < groups.members.length := by
      rw [← h.length_eq]
      exact (List.getElem?_eq_some_iff.mp hstate').1
    have hids : groups.members[k]? = some groups.members[k] := List.getElem?_eq_getElem hk
    obtain ⟨state'', hstate'', -, -, hfrom, -⟩ := h.merged k _ hids
    obtain rfl : state'' = state' := Option.some_inj.mp (hstate''.symm.trans hstate')
    obtain ⟨i, hi, state, action, hstate, haction, -⟩ := hfrom symbol action' haction'
    exact ⟨i, state, action, hstate, (hp.of_mem hids hi).2, haction⟩

/-- **The merge is a quotient.** On the tables it is given, provided that states of one
core agree in their `reusable` flags, `merge_compatible_states` returns the quotient of
the table under a renaming that fixes the states 0 and 1. -/
theorem mergeCompatibleStates_quotient (ctx : MinimizerContext) (table : ParseTable)
    (hinput : MergeInput table) (hflags : FlagsAgree table) :
    ∃ table' g, mergeCompatibleStates ctx table = some table' ∧ IsQuotient table table' g ∧
      g 0 = 0 ∧ g 1 = 1 := by
  obtain ⟨state₀, hstate₀, -⟩ := Option.map_eq_some_iff.mp hinput.core_zero
  obtain ⟨maxCore, hmax⟩ : ∃ m, (table.states.map ParseState.coreId).max? = some m := by
    rw [← Option.isSome_iff_exists, isSome_max?_iff]
    simpa using ne_nil_of_mem (mem_of_getElem? hstate₀)
  have hgroups := mergeGroups_spec ctx hinput hmax
  obtain ⟨newStates, hnew, hmerged⟩ := exists_mergedStates hgroups.partition
  obtain ⟨rest₀, h₀⟩ := hgroups.leader_zero
  obtain ⟨rest₁, h₁⟩ := hgroups.leader_one
  refine ⟨_, _, ?_, hmerged.isQuotient hinput hflags hgroups,
    (hgroups.partition.of_mem h₀ mem_cons_self).2, (hgroups.partition.of_mem h₁ mem_cons_self).2⟩
  simp only [mergeCompatibleStates, hmax, Option.bind_eq_bind, Option.bind_some,
    swapGroups_eq hgroups, hnew]

/-- No lexical conflicts, no keywords and no external tokens. -/
def plainContext : MinimizerContext where
  nTerminals := 1
  doesConflict _ _ := false
  keywords := ∅
  wordToken := none
  internalExternal := []

/-- The error state, the start state, and two states of one core that have the same
action list for the same token, with the given flags. -/
def twinTable (reusable₁ reusable₂ : Bool) : ParseTable where
  states := [⟨0, ⟨[], by simp⟩, ⟨[], by simp⟩, ∅, 0, 0, 0, false⟩,
    ⟨1, ⟨[], by simp⟩, ⟨[(.nonTerminal 0, .goto 2)], by simp⟩, ∅, 0, 0, 1, false⟩,
    ⟨2, ⟨[(.terminal 0, ⟨0, reusable₁⟩)], by simp⟩, ⟨[], by simp⟩, ∅, 0, 0, 2, false⟩,
    ⟨3, ⟨[(.terminal 0, ⟨0, reusable₂⟩)], by simp⟩, ⟨[], by simp⟩, ∅, 0, 0, 2, false⟩]
  actionLists := [[.shift 3 false]]

theorem twinTable_input (reusable₁ reusable₂ : Bool) :
    MergeInput (twinTable reusable₁ reusable₂) where
  ids i state h := by
    match i with
    | 0 | 1 | 2 | 3 => cases h; rfl
    | i + 4 => simp [twinTable] at h
  gotos := by
    simp [GotosAreNonterminals, twinTable, IndexMap.keys, Symbol.isNonTerminal, Symbol.nonTerminal]
  core_zero := rfl
  core_one := rfl
  cores := by cases reusable₁ <;> cases reusable₂ <;> decide
  shift_last := by simp [twinTable]
  in_pool := by simp [twinTable]
  shift_lt := by simp [twinTable, ParseTable.actions]
  goto_lt := by simp [twinTable]

/-- With equal flags the two states become one, and the table its quotient. -/
theorem mergeCompatibleStates_twins :
    MergeInput (twinTable true true) ∧ FlagsAgree (twinTable true true) ∧
      ∃ table' g, mergeCompatibleStates plainContext (twinTable true true) = some table' ∧
        IsQuotient (twinTable true true) table' g ∧ g 0 = 0 ∧ g 1 = 1 := by
  have hflags : FlagsAgree (twinTable true true) := by
    have htrue : ∀ state ∈ (twinTable true true).states, ∀ symbol id,
        state.terminalEntries.get? symbol = some id → id.reusable = true := by
      intro state hstate symbol id hid
      have hmem := IndexMap.mem_entries_iff.mpr hid
      simp only [twinTable, mem_cons, not_mem_nil, or_false] at hstate
      rcases hstate with rfl | rfl | rfl | rfl <;> simp_all
    intro state₁ h₁ state₂ h₂ _ symbol id₁ id₂ hid₁ hid₂
    rw [htrue state₁ h₁ symbol id₁ hid₁, htrue state₂ h₂ symbol id₂ hid₂]
  exact ⟨twinTable_input true true, hflags,
    mergeCompatibleStates_quotient plainContext _ (twinTable_input true true) hflags⟩

/-- With different flags the two states still become one, and the flag of the second
one wins: no renaming makes the new table a quotient that keeps the flags. -/
theorem mergeCompatibleStates_flags_lost :
    MergeInput (twinTable true false) ∧
      ¬ ∃ table' g, mergeCompatibleStates plainContext (twinTable true false) = some table' ∧
        IsQuotient (twinTable true false) table' g := by
  refine ⟨twinTable_input true false, ?_⟩
  rintro ⟨table', g, hmerge, hquot⟩
  have hentries : (mergeCompatibleStates plainContext (twinTable true false)).map
      (fun t => t.states.map fun s => s.terminalEntries.entries) =
        some [[], [], [(.terminal 0, ⟨0, false⟩)]] := rfl
  rw [hmerge, Option.map_some, Option.some_inj] at hentries
  obtain ⟨state', id', hstate', hid', hflag, -⟩ :=
    hquot.terminal 2 _ (.terminal 0) ⟨0, true⟩ rfl rfl
  have hmem : state'.terminalEntries.entries ∈
      table'.states.map fun s => s.terminalEntries.entries :=
    mem_map.mpr ⟨state', mem_of_getElem? hstate', rfl⟩
  have hmem' := IndexMap.mem_entries_iff.mpr hid'
  rw [hentries] at hmem
  simp only [mem_cons, not_mem_nil, or_false, or_self_left] at hmem
  rcases hmem with h | h
  · simp [h] at hmem'
  · simp_all

end TreeSitter.Generate
