import Mathlib

/-!
# TreeSitter.Generate.Dedup

`split_state_id_groups` of `dedup.rs`: one pass of **partition refinement**, shared by
the minimisation of parse tables and of lex tables. A partition of the states
`0 .. n - 1` is kept twice, as the list of groups and as the group of each state, and
`Partition` says that the two agree. A pass takes every group apart by pair tests
against the states that stay, and moves all the states that failed one to a single
new group, which the same pass visits later.

The states compared are behind `differ`, which reads two state ids under the current
grouping; `differIn` is the source's `should_split` on the states of a list.
-/

namespace TreeSitter.Generate

open List

/-! ### The pass -/

/-- `state_ids_by_group_id` and `group_ids_by_state_id`. -/
structure Groups where
  members : List (List Nat)
  groupOf : Nat → Nat

/-- `should_split` on state ids. -/
def differIn {S : Type*} (states : List S) (shouldSplit : S → S → (Nat → Nat) → Bool)
    (groupOf : Nat → Nat) (left right : Nat) : Bool :=
  match states[left]?, states[right]? with
  | some l, some r => shouldSplit l r groupOf
  | _, _ => false

/-- The two inner loops over one group, which collect `split_state_ids`. A state is
marked in `is_split` exactly when it has been collected. -/
def splitStateIds (differ : Nat → Nat → Bool) : List Nat → List Nat → List Nat
  | split, [] => split
  | split, left :: rest =>
    if left ∈ split then splitStateIds differ split rest
    else
      splitStateIds differ
        (split ++ rest.filter fun right => right ∉ split ∧ differ left right = true) rest

def Groups.moveToNewGroup (g : Groups) (groupId : Nat) (ids split : List Nat) : Groups where
  members := g.members.set groupId (ids.filter (· ∉ split)) ++ [split]
  groupOf s := if s ∈ split then g.members.length else g.groupOf s

/-- One turn of the outer loop: whether the group was split, and the new partition. -/
def splitGroup (differ : (Nat → Nat) → Nat → Nat → Bool) (g : Groups) (groupId : Nat)
    (ids : List Nat) : Bool × Groups :=
  match splitStateIds (differ g.groupOf) [] ids with
  | [] => (false, g)
  | s :: split => (true, g.moveToNewGroup groupId ids (s :: split))

/-- The outer loop `while group_id < state_ids_by_group_id.len()`. -/
def splitGroupsFrom (differ : (Nat → Nat) → Nat → Nat → Bool) :
    Nat → Nat → Bool → Groups → Bool × Groups
  | 0, _, result, g => (result, g)
  | fuel + 1, groupId, result, g =>
    match g.members[groupId]? with
    | none => (result, g)
    | some ids =>
      splitGroupsFrom differ fuel (groupId + 1) (result || (splitGroup differ g groupId ids).1)
        (splitGroup differ g groupId ids).2

/-- What is left to do from a group on. Splitting a group of `n` states leaves at
least one of them behind, so this decreases. -/
def workFrom (g : Groups) (groupId : Nat) : Nat :=
  ((g.members.drop groupId).map (·.length + 1)).sum

/-- `split_state_id_groups`. -/
def splitStateIdGroups (differ : (Nat → Nat) → Nat → Nat → Bool) (startGroupId : Nat)
    (g : Groups) : Bool × Groups :=
  splitGroupsFrom differ (workFrom g startGroupId + 1) startGroupId false g

/-- The callers' `while split_state_id_groups(..) {}`. -/
def splitUntilStable (differ : (Nat → Nat) → Nat → Nat → Bool) (startGroupId : Nat) :
    Nat → Groups → Groups
  | 0, g => g
  | fuel + 1, g =>
    if (splitStateIdGroups differ startGroupId g).1 then
      splitUntilStable differ startGroupId fuel (splitStateIdGroups differ startGroupId g).2
    else (splitStateIdGroups differ startGroupId g).2

/-- `Vec::swap`; an index out of range is a panic. -/
def swapAt {α : Type*} (xs : List α) (i j : Nat) : Option (List α) := do
  let x ← xs[i]?
  let y ← xs[j]?
  some ((xs.set i y).set j x)

/-! ### Partitions -/

/-- The two views of a partition of the states below `n` agree, and no group is
empty. -/
structure Partition (n : Nat) (g : Groups) : Prop where
  of_mem : ∀ {k : Nat} {ids : List Nat} {s : Nat}, g.members[k]? = some ids → s ∈ ids → s < n ∧ g.groupOf s = k
  exists_mem : ∀ {s}, s < n → ∃ ids, g.members[g.groupOf s]? = some ids ∧ s ∈ ids
  nonempty : ∀ {k : Nat} {ids : List Nat}, g.members[k]? = some ids → ids ≠ []
  nodup : ∀ {k : Nat} {ids : List Nat}, g.members[k]? = some ids → ids.Nodup

/-- No two states of a group fail `R`, the earlier one on the left. -/
def GroupsAll (R : Nat → Nat → Prop) (start : Nat) (g : Groups) : Prop :=
  ∀ (k : Nat) (ids : List Nat), start ≤ k → g.members[k]? = some ids → ids.Pairwise R

/-- Each group of `g'` lies in one group of `g`. -/
def Refines (n : Nat) (g g' : Groups) : Prop :=
  ∀ s t, s < n → t < n → g'.groupOf s = g'.groupOf t → g.groupOf s = g.groupOf t

/-- The groups of `g` keep their first states. -/
def KeepsLeaders (g g' : Groups) : Prop :=
  ∀ (k s : Nat) (rest : List Nat), g.members[k]? = some (s :: rest) →
    ∃ rest', g'.members[k]? = some (s :: rest')

theorem Refines.refl (n : Nat) (g : Groups) : Refines n g g := fun _ _ _ _ h => h

variable {g g' : Groups} {n : Nat}

theorem Refines.trans {g'' : Groups} (h : Refines n g g') (h' : Refines n g' g'') :
    Refines n g g'' :=
  fun s t hs ht heq => h s t hs ht (h' s t hs ht heq)

theorem KeepsLeaders.refl (g : Groups) : KeepsLeaders g g := fun _ _ rest h => ⟨rest, h⟩

theorem KeepsLeaders.trans {g'' : Groups} (h : KeepsLeaders g g') (h' : KeepsLeaders g' g'') :
    KeepsLeaders g g'' := by
  intro k s rest hk
  obtain ⟨rest', hk'⟩ := h k s rest hk
  exact h' k s rest' hk'

theorem Partition.length_le (h : Partition n g) :
    g.members.length ≤ n := by
  have hsub : Finset.range g.members.length ⊆ (Finset.range n).image g.groupOf := by
    intro k hk
    rw [Finset.mem_range] at hk
    have hget : g.members[k]? = some g.members[k] := getElem?_eq_getElem hk
    obtain ⟨s, hs⟩ := exists_mem_of_ne_nil _ (h.nonempty hget)
    obtain ⟨hlt, hgroup⟩ := h.of_mem hget hs
    exact Finset.mem_image.mpr ⟨s, Finset.mem_range.mpr hlt, hgroup⟩
  simpa using (Finset.card_le_card hsub).trans Finset.card_image_le

theorem Partition.pair_of_groupOf_eq (h : Partition n g) {R : Nat → Nat → Prop}
    (hR : GroupsAll R 0 g) {s t : Nat} (hs : s < n) (ht : t < n) (hst : g.groupOf s = g.groupOf t) :
    s = t ∨ R s t ∨ R t s := by
  obtain ⟨ids, hids, hmem⟩ := h.exists_mem hs
  obtain ⟨ids', hids', hmem'⟩ := h.exists_mem ht
  rw [← hst, hids, Option.some_inj] at hids'
  subst hids'
  by_cases heq : s = t
  · exact Or.inl heq
  · refine Or.inr ?_
    have hpair := hR _ ids (Nat.zero_le _) hids
    obtain ⟨i, hi, rfl⟩ := mem_iff_getElem.mp hmem
    obtain ⟨j, hj, rfl⟩ := mem_iff_getElem.mp hmem'
    rcases Nat.lt_trichotomy i j with hij | rfl | hij
    · exact Or.inl (pairwise_iff_getElem.mp hpair i j hi hj hij)
    · exact absurd rfl heq
    · exact Or.inr (pairwise_iff_getElem.mp hpair j i hj hi hij)

/-! ### One group -/

section SplitStateIds

variable {differ : Nat → Nat → Bool}

variable {split : List Nat}
variable {ids : List Nat}

theorem subset_splitStateIds : split ⊆ splitStateIds differ split ids := by
  induction ids generalizing split with
  | nil => exact List.Subset.refl _
  | cons left rest ih =>
    rw [splitStateIds]
    split
    · exact ih
    · exact List.Subset.trans (subset_append_left _ _) ih

theorem mem_of_mem_splitStateIds {s : Nat}
    (h : s ∈ splitStateIds differ split ids) : s ∈ split ∨ s ∈ ids.tail := by
  induction ids generalizing split with
  | nil => exact Or.inl h
  | cons left rest ih =>
    rw [splitStateIds] at h
    split at h
    · exact (ih h).imp_right mem_of_mem_tail
    · rcases ih h with hmem | hmem
      · rw [mem_append, mem_filter] at hmem
        exact hmem.imp_right And.left
      · exact Or.inr (mem_of_mem_tail hmem)

theorem nodup_splitStateIds (hsplit : split.Nodup) (hids : ids.Nodup) :
    (splitStateIds differ split ids).Nodup := by
  induction ids generalizing split with
  | nil => exact hsplit
  | cons left rest ih =>
    obtain ⟨-, hrest⟩ := nodup_cons.mp hids
    rw [splitStateIds]
    split
    · exact ih hsplit hrest
    · refine ih (hsplit.append (hrest.filter _) ?_) hrest
      intro s hs hs'
      simp only [mem_filter, decide_eq_true_eq] at hs'
      exact hs'.2.1 hs

/-- The states that stay are pairwise equal under the test, the earlier on the left. -/
theorem pairwise_kept (hids : ids.Nodup) :
    (ids.filter (· ∉ splitStateIds differ split ids)).Pairwise
      fun x y => differ x y = false := by
  induction ids generalizing split with
  | nil => exact List.Pairwise.nil
  | cons left rest ih =>
    obtain ⟨hleft, hrest⟩ := nodup_cons.mp hids
    rw [splitStateIds]
    split
    · rename_i hmem
      rw [filter_cons_of_neg (by simpa using subset_splitStateIds hmem)]
      exact ih hrest
    · rename_i hmem
      generalize hsplit' : (split ++ rest.filter fun right =>
        right ∉ split ∧ differ left right = true) = split'
      by_cases hkeep : left ∈ splitStateIds differ split' rest
      · rw [filter_cons_of_neg (by simpa using hkeep)]
        exact ih hrest
      · rw [filter_cons_of_pos (by simpa using hkeep)]
        refine List.Pairwise.cons (fun y hy => ?_) (ih hrest)
        simp only [mem_filter, decide_eq_true_eq] at hy
        have hy' : y ∉ split' := fun h => hy.2 (subset_splitStateIds h)
        rw [← hsplit', mem_append, mem_filter, decide_eq_true_eq, not_or] at hy'
        by_contra hd
        exact hy'.2 ⟨hy.1, hy'.1, by simpa using hd⟩

end SplitStateIds

variable {k : Nat}

theorem getElem?_moveToNewGroup (g : Groups) (hk : k < g.members.length) (ids split : List Nat)
    (j : Nat) :
    (g.moveToNewGroup k ids split).members[j]? =
      if j = k then some (ids.filter (· ∉ split))
      else if j = g.members.length then some split
      else g.members[j]? := by
  simp only [Groups.moveToNewGroup]
  by_cases hjk : j = k
  · subst hjk
    rw [if_pos rfl, getElem?_append_left (by simpa using hk), getElem?_set_self hk]
  · rw [if_neg hjk]
    by_cases hj : j = g.members.length
    · subst hj
      rw [if_pos rfl, getElem?_append_right (by simp)]
      simp
    · rw [if_neg hj]
      rcases Nat.lt_or_gt_of_ne hj with hlt | hgt
      · rw [getElem?_append_left (by simpa using hlt), getElem?_set_ne (Ne.symm hjk)]
      · rw [getElem?_append_right (by rw [length_set]; omega), length_set,
          getElem?_eq_none (by simp only [length_singleton]; omega), getElem?_eq_none (by omega)]

/-- What one turn of the outer loop does to a partition. -/
structure SplitSpec (differ : (Nat → Nat) → Nat → Nat → Bool) (n : Nat) (g : Groups) (k : Nat)
    (ids : List Nat) (changed : Bool) (g' : Groups) : Prop where
  partition : Partition n g'
  refines : Refines n g g'
  leaders : KeepsLeaders g g'
  kept : ∃ ids', g'.members[k]? = some ids' ∧
    ids'.Pairwise fun x y => differ g.groupOf x y = false
  below : ∀ j < k, g'.members[j]? = g.members[j]?
  work : workFrom g' (k + 1) < workFrom g k
  same : changed = false → g' = g
  grows : changed = true → g'.members.length = g.members.length + 1

variable {ids : List Nat}

theorem workFrom_of_getElem? (hk : g.members[k]? = some ids) :
    workFrom g k = ids.length + 1 + workFrom g (k + 1) := by
  obtain ⟨hlt, rfl⟩ := List.getElem?_eq_some_iff.mp hk
  rw [workFrom, workFrom, List.drop_eq_getElem_cons hlt, List.map_cons, List.sum_cons]

section MoveToNewGroup

variable {n k head : Nat} {g : Groups} {rest split : List Nat}

theorem Partition.groupOf_lt (hp : Partition n g) {s : Nat} (hs : s < n) :
    g.groupOf s < g.members.length := by
  obtain ⟨ids, hids, -⟩ := hp.exists_mem hs
  exact (List.getElem?_eq_some_iff.mp hids).1

theorem filter_kept (hp : Partition n g) (hk : g.members[k]? = some (head :: rest))
    (hsub : split ⊆ rest) :
    (head :: rest).filter (· ∉ split) = head :: rest.filter (· ∉ split) :=
  filter_cons_of_pos
    (by simpa using fun h => (nodup_cons.mp (hp.nodup hk)).1 (hsub h))

theorem Partition.moveToNewGroup (hp : Partition n g)
    (hk : g.members[k]? = some (head :: rest)) (hsub : split ⊆ rest) (hne : split ≠ [])
    (hnodup : split.Nodup) : Partition n (g.moveToNewGroup k (head :: rest) split) := by
  have hlt : k < g.members.length := (List.getElem?_eq_some_iff.mp hk).1
  have hget := getElem?_moveToNewGroup g hlt (head :: rest) split
  have hmem : ∀ s ∈ split, s ∈ head :: rest := fun s hs => mem_cons_of_mem _ (hsub hs)
  constructor
  · intro j ids' s hj hs
    rw [hget] at hj
    simp only [Groups.moveToNewGroup]
    split at hj
    · rename_i hjk
      cases hj
      rw [mem_filter, decide_eq_true_eq] at hs
      rw [if_neg hs.2, hjk]
      exact hp.of_mem hk hs.1
    · rename_i hjk
      split at hj
      · rename_i hjlen
        cases hj
        rw [if_pos hs]
        exact ⟨(hp.of_mem hk (hmem s hs)).1, hjlen.symm⟩
      · obtain ⟨hlt', hgr⟩ := hp.of_mem hj hs
        have hnot : s ∉ split := fun h => hjk (hgr ▸ (hp.of_mem hk (hmem s h)).2)
        rw [if_neg hnot]
        exact ⟨hlt', hgr⟩
  · intro s hs
    simp only [hget]
    by_cases hin : s ∈ split
    · refine ⟨split, ?_, hin⟩
      have hgr : (g.moveToNewGroup k (head :: rest) split).groupOf s = g.members.length :=
        if_pos hin
      rw [hgr, if_neg (by omega), if_pos rfl]
    · have hgr : (g.moveToNewGroup k (head :: rest) split).groupOf s = g.groupOf s :=
        if_neg hin
      obtain ⟨ids', hids', hmem'⟩ := hp.exists_mem hs
      rw [hgr]
      by_cases hsk : g.groupOf s = k
      · rw [hsk, hk, Option.some_inj] at hids'
        subst hids'
        exact ⟨_, if_pos hsk, mem_filter.mpr ⟨hmem', by simpa using hin⟩⟩
      · exact ⟨ids', by rw [if_neg hsk, if_neg (hp.groupOf_lt hs).ne, hids'], hmem'⟩
  · intro j ids' hj
    rw [hget, filter_kept hp hk hsub] at hj
    split at hj
    · cases hj
      exact cons_ne_nil _ _
    · split at hj
      · cases hj
        exact hne
      · exact hp.nonempty hj
  · intro j ids' hj
    rw [hget] at hj
    split at hj
    · cases hj
      exact (hp.nodup hk).filter _
    · split at hj
      · cases hj
        exact hnodup
      · exact hp.nodup hj

theorem moveToNewGroup_refines (hp : Partition n g)
    (hk : g.members[k]? = some (head :: rest)) (hsub : split ⊆ rest) :
    Refines n g (g.moveToNewGroup k (head :: rest) split) := by
  intro s t hs ht hst
  have hgroup : ∀ s ∈ split, g.groupOf s = k :=
    fun s hs => (hp.of_mem hk (mem_cons_of_mem _ (hsub hs))).2
  have hs' := hp.groupOf_lt hs
  have ht' := hp.groupOf_lt ht
  simp only [Groups.moveToNewGroup] at hst
  split at hst <;> split at hst
  · rename_i h₁ h₂
    rw [hgroup s h₁, hgroup t h₂]
  · omega
  · omega
  · exact hst

theorem moveToNewGroup_leaders (hp : Partition n g)
    (hk : g.members[k]? = some (head :: rest)) (hsub : split ⊆ rest) :
    KeepsLeaders g (g.moveToNewGroup k (head :: rest) split) := by
  intro j s rest' hj
  have hlt : k < g.members.length := (List.getElem?_eq_some_iff.mp hk).1
  rw [getElem?_moveToNewGroup g hlt]
  by_cases hjk : j = k
  · rw [hjk, hk, Option.some_inj, List.cons.injEq] at hj
    exact ⟨_, by rw [if_pos hjk, filter_kept hp hk hsub, hj.1]⟩
  · have hjlt : j < g.members.length := (List.getElem?_eq_some_iff.mp hj).1
    exact ⟨rest', by rw [if_neg hjk, if_neg hjlt.ne, hj]⟩

theorem moveToNewGroup_work (hk : g.members[k]? = some (head :: rest)) (hsub : split ⊆ rest)
    (hnodup : split.Nodup) :
    workFrom (g.moveToNewGroup k (head :: rest) split) (k + 1) < workFrom g k := by
  have hlt : k < g.members.length := (List.getElem?_eq_some_iff.mp hk).1
  have hlen : split.length ≤ rest.length := (hnodup.subperm hsub).length_le
  have hdrop : workFrom (g.moveToNewGroup k (head :: rest) split) (k + 1) =
      workFrom g (k + 1) + (split.length + 1) := by
    simp only [workFrom, Groups.moveToNewGroup]
    rw [drop_append_of_le_length (by rw [length_set]; omega),
      drop_set_of_lt (by omega), map_append, sum_append]
    simp
  rw [hdrop, workFrom_of_getElem? hk, length_cons]
  omega

end MoveToNewGroup

theorem splitGroup_spec (differ : (Nat → Nat) → Nat → Nat → Bool) (hp : Partition n g)
    (hk : g.members[k]? = some ids) :
    SplitSpec differ n g k ids (splitGroup differ g k ids).1 (splitGroup differ g k ids).2 := by
  have hnodup := hp.nodup hk
  have hlt : k < g.members.length := (List.getElem?_eq_some_iff.mp hk).1
  obtain ⟨head, rest, rfl⟩ := List.exists_cons_of_ne_nil (hp.nonempty hk)
  have hpair : ((head :: rest).filter
      (· ∉ splitStateIds (differ g.groupOf) [] (head :: rest))).Pairwise
        fun x y => differ g.groupOf x y = false := pairwise_kept hnodup
  have hsub : splitStateIds (differ g.groupOf) [] (head :: rest) ⊆ rest :=
    fun s hs => (mem_of_mem_splitStateIds hs).resolve_left not_mem_nil
  have hsplit : (splitStateIds (differ g.groupOf) [] (head :: rest)).Nodup :=
    nodup_splitStateIds nodup_nil hnodup
  rw [splitGroup]
  generalize splitStateIds (differ g.groupOf) [] (head :: rest) = split at *
  cases split with
  | nil =>
    refine ⟨hp, .refl n g, .refl g, ⟨_, hk, by simpa using hpair⟩, fun _ _ => rfl, ?_,
      fun _ => rfl, fun h => by cases h⟩
    dsimp only
    rw [workFrom_of_getElem? hk]
    omega
  | cons s split =>
    refine ⟨hp.moveToNewGroup hk hsub (cons_ne_nil _ _) hsplit,
      moveToNewGroup_refines hp hk hsub, moveToNewGroup_leaders hp hk hsub,
      ⟨_, by rw [getElem?_moveToNewGroup g hlt, if_pos rfl], hpair⟩, fun j hj => ?_,
      moveToNewGroup_work hk hsub hsplit, fun h => (by cases h),
      fun _ => by simp [Groups.moveToNewGroup]⟩
    rw [getElem?_moveToNewGroup g hlt, if_neg (by omega), if_neg (by omega)]

/-! ### A whole pass -/

/-- What the outer loop does from a group on. -/
structure PassSpec (differ : (Nat → Nat) → Nat → Nat → Bool) (n start : Nat) (g : Groups)
    (before result : Bool) (g' : Groups) : Prop where
  partition : Partition n g'
  refines : Refines n g g'
  leaders : KeepsLeaders g g'
  below : ∀ j < start, g'.members[j]? = g.members[j]?
  length_le : g.members.length ≤ g'.members.length
  tested : GroupsAll (fun x y => ∃ groupOf, differ groupOf x y = false) start g'
  same : result = false → before = false ∧ g' = g ∧
    GroupsAll (fun x y => differ g.groupOf x y = false) start g
  grows : result = true → before = true ∨ g.members.length < g'.members.length

variable {differ : (Nat → Nat) → Nat → Nat → Bool}

theorem PassSpec.done {start : Nat} (hp : Partition n g)
    (hend : g.members[start]? = none) (result : Bool) :
    PassSpec differ n start g result result g := by
  have hnone : ∀ (R : Nat → Nat → Prop), GroupsAll R start g := by
    intro R k ids hk hids
    rw [getElem?_eq_none_iff] at hend
    rw [getElem?_eq_none (hend.trans hk)] at hids
    cases hids
  exact ⟨hp, .refl n g, .refl g, fun _ _ => rfl, le_rfl, hnone _,
    fun h => ⟨h, rfl, hnone _⟩, fun h => Or.inl h⟩

theorem SplitSpec.andThen {g₁ : Groups}
    {changed before result : Bool} (h : SplitSpec differ n g k ids changed g₁)
    (h' : PassSpec differ n (k + 1) g₁ (before || changed) result g') :
    PassSpec differ n k g before result g' := by
  obtain ⟨ids', hids', hpair⟩ := h.kept
  refine ⟨h'.partition, h.refines.trans h'.refines, h.leaders.trans h'.leaders,
    fun j hj => ?_, ?_, fun j ids hj hids => ?_, fun hres => ?_, fun hres => ?_⟩
  · rw [h'.below j (by omega), h.below j hj]
  · refine le_trans ?_ h'.length_le
    cases changed with
    | false => rw [h.same rfl]
    | true => rw [h.grows rfl]; omega
  · by_cases hjk : j = k
    · rw [hjk, h'.below k (by omega), hids', Option.some_inj] at hids
      subst hids
      exact hpair.imp fun hxy => ⟨_, hxy⟩
    · exact h'.tested j ids (by omega) hids
  · obtain ⟨hbefore, hsame, hall⟩ := h'.same hres
    obtain ⟨hbefore, hchanged⟩ := Bool.or_eq_false_iff.mp hbefore
    obtain rfl := h.same hchanged
    refine ⟨hbefore, hsame, fun j ids hj hids => ?_⟩
    by_cases hjk : j = k
    · rw [hjk, hids', Option.some_inj] at hids
      exact hids ▸ hpair
    · exact hall j ids (by omega) hids
  · rcases h'.grows hres with hor | hlt
    · rcases Bool.or_eq_true_iff.mp hor with hbefore | hchanged
      · exact Or.inl hbefore
      · refine Or.inr (lt_of_lt_of_le ?_ h'.length_le)
        rw [h.grows hchanged]
        omega
    · refine Or.inr (lt_of_le_of_lt ?_ hlt)
      cases changed with
      | false => rw [h.same rfl]
      | true => rw [h.grows rfl]; omega

theorem splitGroupsFrom_spec (differ : (Nat → Nat) → Nat → Nat → Bool) (fuel : Nat) :
    ∀ {k : Nat} {before : Bool} {g : Groups}, Partition n g → workFrom g k < fuel →
      PassSpec differ n k g before (splitGroupsFrom differ fuel k before g).1
        (splitGroupsFrom differ fuel k before g).2 := by
  induction fuel with
  | zero => intro k before g _ hwork; omega
  | succ fuel ih =>
    intro k before g hp hwork
    rw [splitGroupsFrom]
    split
    · rename_i hend
      exact PassSpec.done hp hend before
    · rename_i ids hids
      have hstep := splitGroup_spec differ hp hids
      exact hstep.andThen (ih hstep.partition (by have := hstep.work; omega))

/-- **One pass of `split_state_id_groups`.** It refines the partition, every two states
it leaves in one group passed the test under some grouping, and if it reports no split
then nothing changed and all pairs pass the test under the grouping as it is. -/
theorem splitStateIdGroups_spec (differ : (Nat → Nat) → Nat → Nat → Bool) (start : Nat)
    (hp : Partition n g) :
    PassSpec differ n start g false (splitStateIdGroups differ start g).1
      (splitStateIdGroups differ start g).2 :=
  splitGroupsFrom_spec differ _ hp (Nat.lt_succ_self _)

/-! ### Until nothing splits -/

/-- What the repeated passes end in. -/
structure Stable (differ : (Nat → Nat) → Nat → Nat → Bool) (n start : Nat) (g g' : Groups) :
    Prop where
  partition : Partition n g'
  refines : Refines n g g'
  leaders : KeepsLeaders g g'
  below : ∀ j < start, g'.members[j]? = g.members[j]?
  stable : GroupsAll (fun x y => differ g'.groupOf x y = false) start g'

/-- Every pass that splits adds a group, and there are at most `n` of them. -/
theorem splitUntilStable_spec (differ : (Nat → Nat) → Nat → Nat → Bool) (start fuel : Nat) :
    ∀ {g : Groups}, Partition n g → n < g.members.length + fuel →
      Stable differ n start g (splitUntilStable differ start fuel g) := by
  induction fuel with
  | zero =>
    intro g hp hfuel
    have := hp.length_le
    omega
  | succ fuel ih =>
    intro g hp hfuel
    have hpass := splitStateIdGroups_spec differ start hp
    rw [splitUntilStable]
    split
    · rename_i hsplit
      have hlt := (hpass.grows hsplit).resolve_left (by simp)
      obtain ⟨hp', href, hlead, hbelow, hstable⟩ := ih hpass.partition (by omega)
      exact ⟨hp', hpass.refines.trans href, hpass.leaders.trans hlead,
        fun j hj => (hbelow j hj).trans (hpass.below j hj), hstable⟩
    · rename_i hsplit
      obtain ⟨-, hsame, hall⟩ := hpass.same (Bool.eq_false_iff.mpr hsplit)
      rw [hsame]
      exact ⟨hp, .refl n g, .refl g, fun _ _ => rfl, hall⟩

end TreeSitter.Generate
