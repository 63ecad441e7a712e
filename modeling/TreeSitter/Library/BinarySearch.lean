import Mathlib

/-!
# TreeSitter.Library.BinarySearch

`slice::binary_search_by` of the Rust standard library, on lists.

The comparison says where an element lies relative to the target. On a slice that
is partitioned by it (first the `lt` elements, then the `eq` ones, then the `gt`
ones) the documented result is a matching index, or the index at which a match
could be inserted; the scan below returns that index.
-/

namespace Library

variable {α : Type*}

/-- `.ok i` when element `i` matches, `.error i` when a match belongs before
element `i`. -/
def binarySearchBy (cmp : α → Ordering) : List α → Except Nat Nat
  | [] => .error 0
  | x :: xs =>
    match cmp x with
    | .eq => .ok 0
    | .gt => .error 0
    | .lt =>
      match binarySearchBy cmp xs with
      | .ok i => .ok (i + 1)
      | .error i => .error (i + 1)

/-- The index in either result: the first element that is not before the target. -/
def searchIndex : Except Nat Nat → Nat
  | .ok i | .error i => i

theorem searchIndex_cons_of_lt {cmp : α → Ordering} {x : α} {xs : List α} (h : cmp x = .lt) :
    searchIndex (binarySearchBy cmp (x :: xs)) = searchIndex (binarySearchBy cmp xs) + 1 := by
  simp only [binarySearchBy, h]
  split <;> simp_all [searchIndex]

theorem searchIndex_cons_of_ne_lt {cmp : α → Ordering} {x : α} {xs : List α} (h : cmp x ≠ .lt) :
    searchIndex (binarySearchBy cmp (x :: xs)) = 0 := by
  cases hx : cmp x with
  | lt => exact absurd hx h
  | eq | gt => simp [binarySearchBy, hx, searchIndex]

end Library
