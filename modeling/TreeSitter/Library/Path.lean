import Mathlib

/-!
# TreeSitter.Library.Path

**Paths** of a successor function on addresses: `Path link a l b` says that following `link` from
`a` passes the addresses `l`, in this order, and arrives at `b`.

A linked list in a memory is a path to the null pointer, and a heap of consecutive regions is a
path from its first to its last address, where each region leads to the one behind it. On a path
that only goes up, the addresses are in order and the regions between them do not overlap.
-/

namespace Library

open List

/-- From `a`, `link` passes the addresses `l` and arrives at `b`. -/
inductive Path (link : Nat → Nat) : Nat → List Nat → Nat → Prop where
  | nil {a : Nat} : Path link a [] a
  | cons {a b : Nat} {l : List Nat} (h : Path link (link a) l b) : Path link a (a :: l) b

namespace Path

variable {link link' : Nat → Nat} {a b c : Nat} {l l' : List Nat}

theorem cons_inv {x : Nat} (h : Path link a (x :: l) b) : x = a ∧ Path link (link a) l b := by
  cases h with
  | cons h => exact ⟨rfl, h⟩

theorem nil_inv (h : Path link a [] b) : a = b := by
  cases h
  rfl

theorem exists_cons (h : Path link a l b) (hne : a ≠ b) :
    ∃ l', l = a :: l' ∧ Path link (link a) l' b := by
  cases h with
  | nil => exact absurd rfl hne
  | cons h => exact ⟨_, rfl, h⟩

theorem congr (h : Path link a l b) (hlink : ∀ x ∈ l, link' x = link x) : Path link' a l b := by
  induction h with
  | nil => exact .nil
  | @cons a b l _ ih =>
    rw [forall_mem_cons] at hlink
    rw [← hlink.1] at ih
    exact .cons (ih hlink.2)

theorem append (h : Path link a l b) (h' : Path link b l' c) : Path link a (l ++ l') c := by
  induction h with
  | nil => exact h'
  | cons _ ih => exact .cons (ih h')

theorem split (h : Path link a (l ++ l') c) : ∃ b, Path link a l b ∧ Path link b l' c := by
  induction l generalizing a with
  | nil => exact ⟨a, .nil, h⟩
  | cons x l ih =>
    obtain ⟨rfl, h⟩ := cons_inv h
    obtain ⟨b, hl, hl'⟩ := ih h
    exact ⟨b, .cons hl, hl'⟩

/-- Taking an address out of a list: its predecessor now leads to its successor. -/
theorem unlink {x y : Nat} (h : Path link a (l ++ x :: y :: l') c)
    (hnodup : (l ++ x :: y :: l').Nodup) :
    Path (Function.update link x (link y)) a (l ++ x :: l') c := by
  obtain ⟨b, hl, hx⟩ := split h
  obtain ⟨rfl, hy⟩ := cons_inv hx
  obtain ⟨hy', hl'⟩ := cons_inv hy
  rw [← hy'] at hl'
  have hdisjoint := nodup_append.mp hnodup
  have hx' := nodup_cons.mp hdisjoint.2.1
  refine append (hl.congr fun z hz => ?_) (.cons ?_)
  · exact Function.update_of_ne (hdisjoint.2.2 z hz _ (by simp)) _ _
  · rw [Function.update_self]
    refine hl'.congr fun z hz => Function.update_of_ne ?_ _ _
    rintro rfl
    exact hx'.1 (by simp [hz])

/-! ### Paths that go up -/

section

variable (h : Path link a l b) (hlt : ∀ x ∈ l, x < link x)

include h hlt

theorem le_of_lt_link : a ≤ b := by
  induction h with
  | nil => exact le_rfl
  | cons _ ih =>
    rw [forall_mem_cons] at hlt
    have := ih hlt.2
    omega

theorem bounds : ∀ x ∈ l, a ≤ x ∧ link x ≤ b := by
  induction h with
  | nil => simp
  | cons h ih =>
    rw [forall_mem_cons] at hlt ⊢
    refine ⟨⟨le_rfl, h.le_of_lt_link hlt.2⟩, fun x hx => ?_⟩
    obtain ⟨hle, hx⟩ := ih hlt.2 x hx
    exact ⟨by omega, hx⟩

/-- Each address of the path is before the successor of no earlier one. -/
theorem pairwise : l.Pairwise fun x y => link x ≤ y := by
  induction h with
  | nil => exact .nil
  | cons h ih =>
    rw [forall_mem_cons] at hlt
    exact .cons (fun y hy => (h.bounds hlt.2 y hy).1) (ih hlt.2)

theorem nodup : l.Nodup := by
  refine (h.pairwise hlt).imp_of_mem fun {x y} hx _ hle => ?_
  have := hlt x hx
  omega

/-- Of two addresses of the path, one is behind the other's successor. -/
theorem link_le_or {x y : Nat} (hx : x ∈ l)
    (hy : y ∈ l) (hne : x ≠ y) : link x ≤ y ∨ link y ≤ x := by
  induction h with
  | nil => cases hx
  | cons h ih =>
    rw [forall_mem_cons] at hlt
    rcases mem_cons.mp hx with rfl | hx'
    · rcases mem_cons.mp hy with rfl | hy'
      · exact absurd rfl hne
      · exact .inl (h.bounds hlt.2 y hy').1
    · rcases mem_cons.mp hy with rfl | hy'
      · exact .inr (h.bounds hlt.2 x hx').1
      · exact ih hlt.2 hx' hy'

/-- The address whose successor is the end of the path is its last one. -/
theorem eq_last {x : Nat} (hx : x ∈ l)
    (hend : link x = b) : ∃ l', l = l' ++ [x] ∧ Path link a l' x := by
  obtain ⟨l₁, l₂, rfl⟩ := append_of_mem hx
  obtain ⟨c, h₁, h₂⟩ := split h
  obtain ⟨rfl, h₂⟩ := cons_inv h₂
  cases h₂ with
  | nil => exact ⟨l₁, rfl, h₁⟩
  | @cons _ _ l₂ h₂ =>
    have := hlt (link x) (by simp)
    have := h₂.le_of_lt_link fun y hy => hlt y (by simp [hy])
    omega

end

end Path

end Library
