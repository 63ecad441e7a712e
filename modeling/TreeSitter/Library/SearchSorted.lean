import Mathlib

/-!
# TreeSitter.Library.SearchSorted

**Binary search** by halving a range, and insertion where it ends. If a comparison says of the
elements in turn that they are before the target, are it, and are behind it, the search finds the
target or its place (`searchSorted_spec`), and insertion keeps a sorted list sorted
(`insertSorted_spec`).
-/

namespace Library

open List

variable {α : Type*} {cmp : α → Ordering} {xs : List α}

/-- The loop: the range of a size from an index on is halved until one element is left. -/
def searchLoop (cmp : α → Ordering) (xs : List α) (index size : Nat) : Nat :=
  if size > 1 then
    let mid := index + size / 2
    if xs[mid]?.any (cmp · ≠ .gt) then searchLoop cmp xs mid (size - size / 2)
    else searchLoop cmp xs index (size - size / 2)
  else index
termination_by size

/-- The index, and whether the target is there. -/
def searchSorted (cmp : α → Ordering) (xs : List α) : Nat × Bool :=
  let index := searchLoop cmp xs 0 xs.length
  match xs[index]?.map cmp with
  | some .eq => (index, true)
  | some .lt => (index + 1, false)
  | _ => (index, false)

/-- An element that is not behind the target has only such in front of it as are before the
target. -/
def Partitioned (cmp : α → Ordering) (xs : List α) : Prop :=
  xs.Pairwise fun x y => cmp y ≠ .gt → cmp x = .lt

/-- Everything in front of an index is before the target. -/
def AllBefore (cmp : α → Ordering) (xs : List α) (index : Nat) : Prop :=
  ∀ j x, j < index → xs[j]? = some x → cmp x = .lt

/-- Everything from an index on is behind the target. -/
def AllBehind (cmp : α → Ordering) (xs : List α) (index : Nat) : Prop :=
  ∀ j x, index ≤ j → xs[j]? = some x → cmp x = .gt

theorem Partitioned.allBefore (h : Partitioned cmp xs) {i : Nat} {x : α} (hx : xs[i]? = some x)
    (hle : cmp x ≠ .gt) : AllBefore cmp xs i := by
  intro j y hj hy
  obtain ⟨hi, rfl⟩ := List.getElem?_eq_some_iff.mp hx
  obtain ⟨hj', rfl⟩ := List.getElem?_eq_some_iff.mp hy
  exact pairwise_iff_getElem.mp h j i hj' hi hj hle

theorem Partitioned.allBehind (h : Partitioned cmp xs) {i : Nat} {x : α} (hx : xs[i]? = some x)
    (hge : cmp x ≠ .lt) : AllBehind cmp xs (i + 1) := by
  intro j y hj hy
  obtain ⟨hi, rfl⟩ := List.getElem?_eq_some_iff.mp hx
  obtain ⟨hj', rfl⟩ := List.getElem?_eq_some_iff.mp hy
  by_contra hne
  exact hge (pairwise_iff_getElem.mp h i j hi hj' hj hne)

theorem searchLoop_spec (h : Partitioned cmp xs) (size : Nat) : ∀ {index : Nat}, 0 < size →
    index + size ≤ xs.length → AllBefore cmp xs index → AllBehind cmp xs (index + size) →
      searchLoop cmp xs index size < xs.length ∧ AllBefore cmp xs (searchLoop cmp xs index size) ∧
        AllBehind cmp xs (searchLoop cmp xs index size + 1) := by
  induction size using Nat.strong_induction_on with
  | _ size ih =>
    intro index hpos hlen hbefore hbehind
    rw [searchLoop]
    split
    next hsize =>
      have hmid : index + size / 2 < xs.length := by omega
      have hget : xs[index + size / 2]? = some xs[index + size / 2] := List.getElem?_eq_getElem hmid
      dsimp only
      rw [hget]
      split
      next hle =>
        refine ih _ (by omega) (by omega) (by omega) (h.allBefore hget (by simpa using hle)) ?_
        rwa [show index + size / 2 + (size - size / 2) = index + size by omega]
      next hgt =>
        have hgt : cmp xs[index + size / 2] = .gt := by simpa using hgt
        refine ih _ (by omega) (by omega) (by omega) hbefore fun j x hj hx => ?_
        by_cases heq : j = index + size / 2
        · subst heq
          rw [hget] at hx
          cases hx
          exact hgt
        · exact h.allBehind hget (by rw [hgt]; decide) j x (by omega) hx
    next hsize =>
      obtain rfl : size = 1 := by omega
      exact ⟨by omega, hbefore, hbehind⟩

/-- **The search** finds the target, or the place where it belongs. -/
theorem searchSorted_spec (h : Partitioned cmp xs) :
    ((searchSorted cmp xs).2 = true ∧ ∃ x ∈ xs, cmp x = .eq) ∨
      ((searchSorted cmp xs).2 = false ∧ AllBefore cmp xs (searchSorted cmp xs).1 ∧
        AllBehind cmp xs (searchSorted cmp xs).1) := by
  rcases Nat.eq_zero_or_pos xs.length with hzero | hpos
  · rw [length_eq_zero_iff.mp hzero]
    exact .inr ⟨rfl, by simp [AllBefore], by simp [AllBehind]⟩
  · obtain ⟨hlt, hbefore, hbehind⟩ := @searchLoop_spec _ _ _ h xs.length 0 hpos (by omega)
      (fun _ _ hj _ => absurd hj (Nat.not_lt_zero _))
      fun j x hj hx => absurd (List.getElem?_eq_some_iff.mp hx).1 (by omega)
    have hget := List.getElem?_eq_getElem hlt
    rw [searchSorted, hget]
    generalize searchLoop cmp xs 0 xs.length = index at *
    cases hcmp : cmp xs[index] with
    | lt =>
      simp only [Option.map_some, hcmp]
      refine .inr ⟨trivial, fun j x hj hx => ?_, hbehind⟩
      rcases Nat.lt_succ_iff_lt_or_eq.mp hj with hj | rfl
      · exact hbefore j x hj hx
      · rw [hget] at hx
        cases hx
        exact hcmp
    | eq =>
      simp only [Option.map_some, hcmp]
      exact .inl ⟨trivial, _, getElem_mem hlt, hcmp⟩
    | gt =>
      simp only [Option.map_some, hcmp]
      refine .inr ⟨trivial, hbefore, fun j x hj hx => ?_⟩
      rcases Nat.eq_or_lt_of_le hj with rfl | hj
      · rw [hget] at hx
        cases hx
        exact hcmp
      · exact hbehind j x hj hx

/-- Insert an element where the search ends, unless it is found. -/
def insertSorted (compare : α → α → Ordering) (xs : List α) (x : α) : List α :=
  let found := searchSorted (compare · x) xs
  if found.2 then xs else xs.take found.1 ++ x :: xs.drop found.1

/-- **Insertion** keeps a sorted list sorted, and adds the element. -/
theorem insertSorted_spec {compare : α → α → Ordering} {x : α}
    (hsorted : xs.Pairwise fun y z => compare y z = .lt) (h : Partitioned (compare · x) xs)
    (heq : ∀ y ∈ xs, compare y x = .eq → y = x)
    (hgt : ∀ y ∈ xs, compare y x = .gt → compare x y = .lt) :
    (insertSorted compare xs x).Pairwise (fun y z => compare y z = .lt) ∧
      ∀ y, y ∈ insertSorted compare xs x ↔ y ∈ xs ∨ y = x := by
  rw [insertSorted]
  rcases searchSorted_spec h with ⟨hfound, z, hz, hcmp⟩ | ⟨hfound, hbefore, hbehind⟩
  · rw [if_pos hfound]
    refine ⟨hsorted, fun y => ⟨.inl, fun hy => hy.elim id ?_⟩⟩
    rintro rfl
    rwa [← heq z hz hcmp]
  · rw [if_neg (by simp [hfound])]
    generalize (searchSorted (compare · x) xs).1 = index at *
    have hfront : ∀ y ∈ xs.take index, compare y x = .lt := by
      intro y hy
      obtain ⟨j, hj⟩ := mem_iff_getElem?.mp hy
      rw [getElem?_take] at hj
      split at hj
      next hlt => exact hbefore j y hlt hj
      next => cases hj
    have hback : ∀ y ∈ xs.drop index, compare x y = .lt := by
      intro y hy
      obtain ⟨j, hj⟩ := mem_iff_getElem?.mp hy
      rw [getElem?_drop] at hj
      exact hgt y (mem_of_getElem? hj) (hbehind _ y (Nat.le_add_right _ _) hj)
    have hparts : (xs.take index ++ xs.drop index).Pairwise fun y z => compare y z = .lt := by
      rwa [take_append_drop]
    obtain ⟨htake, hdrop, hacross⟩ := pairwise_append.mp hparts
    constructor
    · refine pairwise_append.mpr ⟨htake, pairwise_cons.mpr ⟨hback, hdrop⟩, ?_⟩
      exact fun y hy => forall_mem_cons.mpr ⟨hfront y hy, hacross y hy⟩
    · intro y
      conv_rhs => rw [← take_append_drop index xs]
      rw [mem_append, mem_append, mem_cons, or_assoc, or_comm (a := y = x)]

end Library
