import TreeSitter.Generate.Dedup

/-!
# TreeSitter.Generate.SplitGroups

What a caller of `split_state_id_groups` gets: the pass **ends**, it leaves a finer partition, and
what stays in a group keeps its order. If it reports no split the partition is stable, and repeated
passes come to that (`splitStateIdGroups_sound`). A new group lists its states as they failed a
test, which need not be their old order (`exists_not_keepsAllOrder`).
-/

namespace TreeSitter.Generate

variable {differ : (Nat → Nat) → Nat → Nat → Bool} {n start : Nat} {g g' : Groups}

/-- What stays in a group stays in order. -/
def KeepsOrder (g g' : Groups) : Prop :=
  ∀ (k : Nat) (ids : List Nat), g.members[k]? = some ids →
    ∃ ids', g'.members[k]? = some ids' ∧ ids'.Sublist ids

/-- What is together in a new group has the order that it had. -/
def KeepsAllOrder (g g' : Groups) : Prop :=
  ∀ ids' ∈ g'.members, ∃ ids ∈ g.members, ids'.Sublist ids

/-- What `split_state_id_groups` does to a partition, and what repeated passes come to. -/
structure SplitsSoundly (differ : (Nat → Nat) → Nat → Nat → Bool) (n start : Nat) (g : Groups) :
    Prop where
  ends : ∀ fuel > workFrom g start,
    splitGroupsFrom differ fuel start false g = splitStateIdGroups differ start g
  partition : Partition n (splitStateIdGroups differ start g).2
  refines : Refines n g (splitStateIdGroups differ start g).2
  below : ∀ j < start, (splitStateIdGroups differ start g).2.members[j]? = g.members[j]?
  order : KeepsOrder g (splitStateIdGroups differ start g).2
  splits : (splitStateIdGroups differ start g).1 = true ↔
    g.members.length < (splitStateIdGroups differ start g).2.members.length
  same : (splitStateIdGroups differ start g).1 = false → (splitStateIdGroups differ start g).2 = g
  tested : (splitStateIdGroups differ start g).1 = false →
    GroupsAll (fun x y => differ (splitStateIdGroups differ start g).2.groupOf x y = false) start
      (splitStateIdGroups differ start g).2
  repeated : ∃ stable, (∀ fuel > n, splitUntilStable differ start fuel g = stable) ∧
    Stable differ n start g stable

theorem splitGroup_keepsOrder {k : Nat} {ids : List Nat} (hk : g.members[k]? = some ids) :
    KeepsOrder g (splitGroup differ g k ids).2 := by
  intro j ids' hj
  rw [splitGroup]
  split
  next => exact ⟨ids', hj, List.Sublist.refl _⟩
  next s split _ =>
    rw [getElem?_moveToNewGroup g (List.getElem?_eq_some_iff.mp hk).1]
    by_cases hjk : j = k
    · rw [hjk, hk, Option.some_inj] at hj
      rw [if_pos hjk]
      exact ⟨_, rfl, hj ▸ List.filter_sublist⟩
    · rw [if_neg hjk, if_neg (List.getElem?_eq_some_iff.mp hj).1.ne]
      exact ⟨ids', hj, List.Sublist.refl _⟩

theorem splitGroupsFrom_keepsOrder (fuel : Nat) : ∀ {k : Nat} {before : Bool} {g : Groups},
    KeepsOrder g (splitGroupsFrom differ fuel k before g).2 := by
  induction fuel with
  | zero => exact fun _ ids hids => ⟨ids, hids, List.Sublist.refl _⟩
  | succ fuel ih =>
    intro k before g j ids hids
    rw [splitGroupsFrom]
    split
    next => exact ⟨ids, hids, List.Sublist.refl _⟩
    next hk =>
      obtain ⟨ids', hids', hsub⟩ := splitGroup_keepsOrder hk j ids hids
      obtain ⟨ids'', hids'', hsub'⟩ := ih j ids' hids'
      exact ⟨ids'', hids'', hsub'.trans hsub⟩

/-- More fuel changes nothing, if there is enough for the work that is left. -/
theorem splitGroupsFrom_succ (fuel : Nat) : ∀ {k : Nat} {before : Bool} {g : Groups},
    Partition n g → workFrom g k < fuel →
      splitGroupsFrom differ (fuel + 1) k before g = splitGroupsFrom differ fuel k before g := by
  induction fuel with
  | zero => exact fun _ hwork => absurd hwork (Nat.not_lt_zero _)
  | succ fuel ih =>
    intro k before g hp hwork
    rw [splitGroupsFrom, splitGroupsFrom]
    split
    next => rfl
    next ids hids =>
      have hstep := splitGroup_spec differ hp hids
      exact ih hstep.partition (by have := hstep.work; omega)

theorem splitUntilStable_succ (fuel : Nat) : ∀ {g : Groups}, Partition n g →
    n < g.members.length + fuel →
      splitUntilStable differ start (fuel + 1) g = splitUntilStable differ start fuel g := by
  induction fuel with
  | zero => exact fun hp hfuel => absurd hp.length_le (Nat.not_le.mpr hfuel)
  | succ fuel ih =>
    intro g hp hfuel
    have hpass := splitStateIdGroups_spec differ start hp
    by_cases hsplit : (splitStateIdGroups differ start g).1 = true
    · have hlt := (hpass.grows hsplit).resolve_left (by simp)
      exact (if_pos hsplit).trans ((ih hpass.partition (by omega)).trans (if_pos hsplit).symm)
    · exact (if_neg hsplit).trans (if_neg hsplit).symm

/-- **`split_state_id_groups` is sound**, for any test of two states under the current groups. -/
theorem splitStateIdGroups_sound {S : Type*} (states : List S)
    (shouldSplit : S → S → (Nat → Nat) → Bool) (start : Nat) (hp : Partition states.length g) :
    SplitsSoundly (differIn states shouldSplit) states.length start g := by
  generalize differIn states shouldSplit = differ
  generalize states.length = n at hp
  have hpass := splitStateIdGroups_spec differ start hp
  refine ⟨fun fuel hfuel => ?_, hpass.partition, hpass.refines, hpass.below,
    splitGroupsFrom_keepsOrder _, ⟨fun h => (hpass.grows h).resolve_left (by simp), fun h => ?_⟩,
    fun h => (hpass.same h).2.1, fun h => ?_, splitUntilStable differ start (n + 1) g,
    fun fuel hfuel => ?_, splitUntilStable_spec differ start (n + 1) hp (by omega)⟩
  · induction fuel, hfuel using Nat.le_induction with
    | base => rfl
    | succ fuel hfuel ih => rw [splitGroupsFrom_succ fuel hp hfuel, ih]
  · by_contra hsplit
    rw [(hpass.same (Bool.eq_false_iff.mpr hsplit)).2.1] at h
    exact lt_irrefl _ h
  · obtain ⟨-, hsame, hall⟩ := hpass.same h
    rwa [hsame]
  · induction fuel, hfuel using Nat.le_induction with
    | base => rfl
    | succ fuel hfuel ih =>
      have hfuel' : n < g.members.length + fuel := by omega
      rw [splitUntilStable_succ fuel hp hfuel', ih]

/-- One group of four states. -/
def oneGroup : Groups := ⟨[[0, 1, 2, 3]], fun _ => 0⟩

theorem getElem?_oneGroup {k : Nat} {ids : List Nat} (h : oneGroup.members[k]? = some ids) :
    k = 0 ∧ ids = [0, 1, 2, 3] := by
  obtain ⟨hlt, rfl⟩ := List.getElem?_eq_some_iff.mp h
  obtain rfl : k = 0 := Nat.lt_one_iff.mp hlt
  exact ⟨rfl, rfl⟩

theorem partition_oneGroup : Partition 4 oneGroup where
  of_mem hk hs := by
    obtain ⟨rfl, rfl⟩ := getElem?_oneGroup hk
    exact ⟨by simp at hs; omega, rfl⟩
  exists_mem hs := ⟨_, rfl, by simp; omega⟩
  nonempty hk := (getElem?_oneGroup hk).2 ▸ List.cons_ne_nil _ _
  nodup hk := (getElem?_oneGroup hk).2 ▸ by decide

/-- The first state is not with the last one, and the two in the middle are not together. -/
def differAcross (left right : Nat) (_ : Nat → Nat) : Bool := left + right = 3

theorem splitStateIdGroups_sound_oneGroup :
    SplitsSoundly (differIn [0, 1, 2, 3] differAcross) 4 0 oneGroup :=
  splitStateIdGroups_sound [0, 1, 2, 3] differAcross 0 partition_oneGroup

/-- The new group is `[3, 2]`. -/
theorem exists_not_keepsAllOrder : ∃ (states : List Nat)
    (shouldSplit : Nat → Nat → (Nat → Nat) → Bool) (g : Groups), Partition states.length g ∧
      ¬ KeepsAllOrder g (splitStateIdGroups (differIn states shouldSplit) 0 g).2 := by
  refine ⟨[0, 1, 2, 3], differAcross, oneGroup, partition_oneGroup, fun h => ?_⟩
  have hmembers : (splitStateIdGroups (differIn [0, 1, 2, 3] differAcross) 0 oneGroup).2.members =
      [[0, 1], [3, 2]] := by decide
  obtain ⟨ids, hids, hsub⟩ := h [3, 2] (by rw [hmembers]; simp)
  rw [oneGroup, List.mem_singleton] at hids
  subst hids
  revert hsub
  decide

end TreeSitter.Generate
