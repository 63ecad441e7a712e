import Mathlib

/-!
# Library.Renumbering

**New numbers for the entries of a list.** Entries are dropped, and an entry that is kept gets the
number of kept entries in front of it (`rank`); or the entries are put into another order, and an
entry gets its position in that order (`positions`). Both are bijections onto the new numbers, and
the entry at a new number is the one at the old number.
-/

namespace Library

open List

universe u

variable {α : Type u}

/-! ### Dropping entries -/

/-- The entries whose flag is set. -/
def keepFlagged : List Bool → List α → List α
  | true :: flags, x :: xs => x :: keepFlagged flags xs
  | false :: flags, _ :: xs => keepFlagged flags xs
  | _, _ => []

/-- How many entries in front of `i` are kept. -/
def rank (flags : List Bool) (i : Nat) : Nat := (flags.take i).count true

@[simp] theorem rank_zero (flags : List Bool) : rank flags 0 = 0 := by simp [rank]

@[simp] theorem rank_cons_succ (flag : Bool) (flags : List Bool) (i : Nat) :
    rank (flag :: flags) (i + 1) = rank flags i + if flag then 1 else 0 := by
  simp [rank, count_cons]

variable {flags : List Bool} {xs : List α}

theorem length_keepFlagged (h : flags.length = xs.length) :
    (keepFlagged flags xs).length = flags.count true := by
  induction flags generalizing xs with
  | nil => simp [keepFlagged]
  | cons flag flags ih =>
    cases xs with
    | nil => cases h
    | cons x xs =>
      rw [length_cons, length_cons, Nat.add_right_cancel_iff] at h
      cases flag with
      | false => rw [keepFlagged, ih h, count_cons_of_ne (by decide)]
      | true => rw [keepFlagged, length_cons, ih h, count_cons_self]

theorem mem_of_mem_keepFlagged {x : α} (h : x ∈ keepFlagged flags xs) : x ∈ xs := by
  induction flags generalizing xs with
  | nil => cases h
  | cons flag flags ih =>
    cases xs with
    | nil => cases flag <;> cases h
    | cons y ys =>
      cases flag with
      | false => exact mem_cons_of_mem _ (ih h)
      | true =>
        rcases mem_cons.mp h with rfl | hmem
        · exact mem_cons_self
        · exact mem_cons_of_mem _ (ih hmem)

variable {i : Nat}

/-- **The entry at the rank** of a kept entry is this entry. -/
theorem getElem?_keepFlagged_rank (h : flags[i]? = some true) :
    (keepFlagged flags xs)[rank flags i]? = xs[i]? := by
  induction flags generalizing xs i with
  | nil => cases h
  | cons flag flags ih =>
    cases xs with
    | nil => cases flag <;> simp [keepFlagged]
    | cons x xs =>
      cases i with
      | zero =>
        rw [getElem?_cons_zero] at h
        cases h
        simp [keepFlagged]
      | succ i =>
        rw [getElem?_cons_succ] at h
        cases flag <;> simp [keepFlagged, ih h]

theorem rank_lt (h : flags[i]? = some true) :
    rank flags i < flags.count true := by
  obtain ⟨hi, hflag⟩ := List.getElem?_eq_some_iff.mp h
  calc rank flags i < (flags.take i).count true + (flags.drop i).count true := by
        rw [rank, drop_eq_getElem_cons hi, hflag, count_cons_self]
        omega
    _ = flags.count true := by rw [← count_append, take_append_drop]

theorem rank_lt_rank {j : Nat} (h : flags[i]? = some true) (hij : i < j) :
    rank flags i < rank flags j := by
  have htake : (flags.take j)[i]? = some true := by
    rw [getElem?_take_of_lt hij, h]
  have hlt := rank_lt htake
  rwa [rank, take_take, min_eq_left hij.le] at hlt

theorem exists_rank_eq {k : Nat} (h : k < flags.count true) :
    ∃ i, flags[i]? = some true ∧ rank flags i = k := by
  induction flags generalizing k with
  | nil => simp at h
  | cons flag flags ih =>
    cases flag with
    | false =>
      rw [count_cons_of_ne (by decide)] at h
      obtain ⟨i, hflag, hrank⟩ := ih h
      exact ⟨i + 1, hflag, by simp [hrank]⟩
    | true =>
      rw [count_cons_self] at h
      cases k with
      | zero => exact ⟨0, rfl, rank_zero _⟩
      | succ k =>
        obtain ⟨i, hflag, hrank⟩ := ih (Nat.lt_of_succ_lt_succ h)
        exact ⟨i + 1, hflag, by simp [hrank]⟩

/-- **Ranks** are a bijection from the kept entries onto the new numbers. -/
theorem bijOn_rank (flags : List Bool) :
    Set.BijOn (rank flags) {i | flags[i]? = some true} (Set.Iio (flags.count true)) := by
  refine ⟨fun i hi => rank_lt hi, fun i hi j hj hrank => ?_, fun k hk => exists_rank_eq hk⟩
  rcases Nat.lt_trichotomy i j with hlt | heq | hgt
  · exact absurd hrank (rank_lt_rank hi hlt).ne
  · exact heq
  · exact absurd hrank (rank_lt_rank hj hgt).ne'

/-! ### Another order -/

/-- The numbers of the entries of `order`, written down entry by entry from the number `start` on. -/
def positionsFrom (start : Nat) : List Nat → List Nat → List Nat
  | [], ids => ids
  | old :: order, ids => positionsFrom (start + 1) order (ids.set old start)

/-- Where each number stands in `order`. -/
def positions (order : List Nat) : List Nat :=
  positionsFrom 0 order (List.replicate order.length 0)

theorem getElem?_positionsFrom_of_notMem {order : List Nat} {start old : Nat} {ids : List Nat}
    (h : old ∉ order) : (positionsFrom start order ids)[old]? = ids[old]? := by
  induction order generalizing start ids with
  | nil => rfl
  | cons first order ih =>
    rw [positionsFrom, ih fun hmem => h (mem_cons_of_mem _ hmem),
      getElem?_set_ne (ne_of_not_mem_cons h).symm]

theorem getElem?_positionsFrom {order : List Nat} {start k old : Nat} {ids : List Nat}
    (hnodup : order.Nodup) (hk : order[k]? = some old) (hlt : old < ids.length) :
    (positionsFrom start order ids)[old]? = some (start + k) := by
  induction order generalizing start k ids with
  | nil => cases hk
  | cons first order ih =>
    rw [nodup_cons] at hnodup
    rw [positionsFrom]
    cases k with
    | zero =>
      rw [getElem?_cons_zero, Option.some_inj] at hk
      rw [← hk] at hlt ⊢
      rw [getElem?_positionsFrom_of_notMem hnodup.1, getElem?_set_self hlt, Nat.add_zero]
    | succ k =>
      rw [getElem?_cons_succ] at hk
      rw [ih hnodup.2 hk (by rwa [length_set]), Nat.add_right_comm, Nat.add_assoc]

section Positions

variable {order : List Nat} {n : Nat}

/-- **The number at a position** gets this position. -/
theorem positions_getD (h : order.Perm (List.range n)) {k old : Nat} (hk : order[k]? = some old) :
    (positions order).getD old 0 = k := by
  have hlt : old < n := mem_range.mp (h.mem_iff.mp (mem_of_getElem? hk))
  have hlength : order.length = n := by rw [h.length_eq, length_range]
  rw [getD_eq_getElem?_getD, positions, getElem?_positionsFrom (h.nodup_iff.mpr nodup_range) hk
      (by rwa [length_replicate, hlength]), Nat.zero_add, Option.getD_some]

theorem getElem?_positions (h : order.Perm (List.range n)) {old : Nat} (hlt : old < n) :
    order[(positions order).getD old 0]? = some old := by
  obtain ⟨k, hk⟩ := mem_iff_getElem?.mp (h.mem_iff.mpr (mem_range.mpr hlt))
  rw [positions_getD h hk, hk]

/-- **Positions** are a bijection. -/
theorem bijOn_positions (h : order.Perm (List.range n)) :
    Set.BijOn (fun old => (positions order).getD old 0) (Set.Iio n) (Set.Iio n) := by
  have hlength : order.length = n := by rw [h.length_eq, length_range]
  refine ⟨fun old hlt => ?_, fun old hold other hother heq => ?_, fun k hk => ?_⟩
  · have hsome := getElem?_positions h hlt
    rw [Set.mem_Iio, ← hlength]
    exact (List.getElem?_eq_some_iff.mp hsome).1
  · have hsome := getElem?_positions h hold
    dsimp only at heq
    rw [heq, getElem?_positions h hother] at hsome
    exact (Option.some_inj.mp hsome).symm
  · rw [Set.mem_Iio, ← hlength] at hk
    have hsome : order[k]? = some order[k] := getElem?_eq_getElem hk
    exact ⟨order[k], mem_range.mp (h.mem_iff.mp (getElem_mem hk)), positions_getD h hsome⟩

end Positions

end Library
