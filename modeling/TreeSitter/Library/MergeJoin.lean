import Mathlib

/-!
# TreeSitter.Library.MergeJoin

A **merge join** over two lists sorted by key: walk both at once, test the elements
whose keys meet with one predicate and the elements that only one side has with two
others. `mergeAny_eq_false` is what a join that found nothing tells about the keys
both sides have.
-/

namespace Library

open List

variable {α β κ : Type*} [LinearOrder κ] (key₁ : α → κ) (key₂ : β → κ)
  (both : α → β → Bool) (left : α → Bool) (right : β → Bool)

/-- One element of the left list against the right list; `next` continues with the
rest of the left list. -/
def mergeStep (next : List β → Bool) (x : α) : List β → Bool
  | [] => left x || next []
  | y :: ys =>
    if key₁ x < key₂ y then left x || next (y :: ys)
    else if key₂ y < key₁ x then right y || mergeStep next x ys
    else both x y || next ys

/-- Whether some test of the merge join succeeds. -/
def mergeAny : List α → List β → Bool
  | [], ys => ys.any right
  | x :: xs, ys => mergeStep key₁ key₂ both left right (mergeAny xs) x ys

/-- Strictly increasing keys. -/
def SortedBy (key : α → κ) (xs : List α) : Prop := xs.Pairwise fun x y => key x < key y

variable {key₁ key₂ both left right}

theorem mergeStep_eq_false {xs : List α} {x : α}
    (ih : ∀ {ys : List β}, SortedBy key₂ ys → mergeAny key₁ key₂ both left right xs ys = false →
      ∀ a ∈ xs, ∀ b ∈ ys, key₁ a = key₂ b → both a b = false)
    (hx : ∀ a ∈ xs, key₁ x < key₁ a) :
    ∀ {ys : List β}, SortedBy key₂ ys →
      mergeStep key₁ key₂ both left right (mergeAny key₁ key₂ both left right xs) x ys = false →
      ∀ a ∈ x :: xs, ∀ b ∈ ys, key₁ a = key₂ b → both a b = false := by
  intro ys
  induction ys with
  | nil => intro _ _ a _ b hb; cases hb
  | cons y ys ihys =>
    intro hys h a ha b hb hab
    have hys' : SortedBy key₂ ys := (pairwise_cons.mp hys).2
    have hy : ∀ c ∈ ys, key₂ y < key₂ c := (pairwise_cons.mp hys).1
    have hyb : key₂ y ≤ key₂ b := by
      rcases mem_cons.mp hb with rfl | hb
      · exact le_rfl
      · exact (hy b hb).le
    rw [mergeStep] at h
    split at h
    · -- `x` is below every key of the right list
      rename_i hlt
      rcases mem_cons.mp ha with rfl | ha
      · exact absurd (hab ▸ hlt) (not_lt.mpr hyb)
      · exact ih hys (Bool.or_eq_false_iff.mp h).2 a ha b hb hab
    · rename_i hnlt
      have hxa : key₁ x ≤ key₁ a := by
        rcases mem_cons.mp ha with rfl | ha
        · exact le_rfl
        · exact (hx a ha).le
      split at h
      · -- `y` is below every key of the left list
        rename_i hlt
        rcases mem_cons.mp hb with rfl | hb
        · exact absurd (hab ▸ hlt) (not_lt.mpr hxa)
        · exact ihys hys' (Bool.or_eq_false_iff.mp h).2 a ha b hb hab
      · rename_i hnlt'
        have hkey : key₁ x = key₂ y := le_antisymm (not_lt.mp hnlt') (not_lt.mp hnlt)
        obtain ⟨hboth, hrest⟩ := Bool.or_eq_false_iff.mp h
        rcases mem_cons.mp ha with rfl | ha <;> rcases mem_cons.mp hb with rfl | hb
        · exact hboth
        · exact absurd (hkey ▸ hab ▸ hy b hb) (lt_irrefl _)
        · exact absurd (hkey ▸ hab ▸ hx a ha) (lt_irrefl _)
        · exact ih hys' hrest a ha b hb hab

/-- A join that found nothing passed the test on all keys both sides have. -/
theorem mergeAny_eq_false : ∀ {xs : List α} {ys : List β}, SortedBy key₁ xs → SortedBy key₂ ys →
    mergeAny key₁ key₂ both left right xs ys = false →
    ∀ a ∈ xs, ∀ b ∈ ys, key₁ a = key₂ b → both a b = false
  | [], _, _, _, _, a, ha => by cases ha
  | x :: xs, ys, hxs, hys, h, a, ha => by
    obtain ⟨hx, hxs'⟩ := pairwise_cons.mp hxs
    exact mergeStep_eq_false (fun hys h => mergeAny_eq_false hxs' hys h) hx hys h a ha

theorem sortedBy_insertionSort (key : α → κ) {xs : List α} (hnd : (xs.map key).Nodup) :
    SortedBy key (xs.insertionSort fun x y => key x ≤ key y) := by
  have hsorted : (xs.insertionSort fun x y => key x ≤ key y).Pairwise fun x y => key x ≤ key y :=
    pairwise_insertionSort _ xs
  have hnd' : ((xs.insertionSort fun x y => key x ≤ key y).map key).Nodup :=
    ((perm_insertionSort _ xs).map key).nodup_iff.mpr hnd
  rw [List.Nodup, pairwise_map] at hnd'
  exact hsorted.imp₂ (fun _ _ hle hne => lt_of_le_of_ne hle hne) hnd'

end Library
