import TreeSitter.Library.BinarySearch

/-!
# TreeSitter.Library.SortedQueue

A **queue sorted by a key**, with one entry for each key. A new entry is put where a binary search
finds its place; if there is an entry with its key, it stands in for it or is dropped
(`upsert_cases`).
-/

namespace Library

open List

variable {α κ : Type*} [LinearOrder κ]

/-- The keys ascend, so that no two entries have one key. -/
def SortedByKey (key : α → κ) (queue : List α) : Prop := queue.Pairwise fun x y => key x < key y

/-- Put an entry into a queue; one with its key is replaced if the new one is better. -/
def upsert (key : α → κ) (better : α → α → Bool) (entry : α) (queue : List α) : List α :=
  match binarySearchBy (fun x => cmp (key x) (key entry)) queue with
  | .ok i =>
    match queue[i]? with
    | some existing => if better entry existing then queue.set i entry else queue
    | none => queue
  | .error i => queue.insertIdx i entry

variable {key : α → κ} {better : α → α → Bool} {entry : α}

variable {queue : List α} {x : α}

theorem upsert_cons_of_lt (h : key x < key entry) :
    upsert key better entry (x :: queue) = x :: upsert key better entry queue := by
  have hcmp : cmp (key x) (key entry) = .lt := (cmp_eq_lt_iff _ _).mpr h
  rw [upsert, upsert]
  simp only [binarySearchBy, hcmp]
  cases binarySearchBy (fun x => cmp (key x) (key entry)) queue with
  | ok i =>
    simp only [getElem?_cons_succ]
    cases queue[i]? with
    | none => rfl
    | some existing =>
      dsimp only
      split
      · rfl
      · rfl
  | error i => rfl

theorem upsert_cons_of_eq (h : key x = key entry) :
    upsert key better entry (x :: queue) =
      if better entry x then entry :: queue else x :: queue := by
  have hcmp : cmp (key x) (key entry) = .eq := (cmp_eq_eq_iff _ _).mpr h
  rw [upsert]
  simp only [binarySearchBy, hcmp, getElem?_cons_zero, set_cons_zero]

theorem upsert_cons_of_gt (h : key entry < key x) :
    upsert key better entry (x :: queue) = entry :: x :: queue := by
  have hcmp : cmp (key x) (key entry) = .gt := (cmp_eq_gt_iff _ _).mpr h
  rw [upsert]
  simp only [binarySearchBy, hcmp, insertIdx_zero]

/-- **What becomes of an entry**: it is put between others, it stands in for one with its key, or it
is dropped since there is one that it is not better than. -/
theorem upsert_cases (key : α → κ) (better : α → α → Bool) (entry : α) (queue : List α) :
    (∃ front back, queue = front ++ back ∧ upsert key better entry queue = front ++ entry :: back ∧
        (∀ x ∈ front, key x < key entry) ∧ ∀ x ∈ back.head?, key entry < key x) ∨
    (∃ front existing back, queue = front ++ existing :: back ∧
      upsert key better entry queue = front ++ entry :: back ∧
        key existing = key entry ∧ better entry existing) ∨
    (upsert key better entry queue = queue ∧
      ∃ existing ∈ queue, key existing = key entry ∧ ¬ better entry existing) := by
  induction queue with
  | nil => exact .inl ⟨[], [], rfl, rfl, by simp, by simp⟩
  | cons x queue ih =>
    rcases lt_trichotomy (key x) (key entry) with hlt | heq | hgt
    · rw [upsert_cons_of_lt hlt]
      rcases ih with ⟨front, back, hqueue, hresult, hfront, hback⟩ |
        ⟨front, existing, back, hqueue, hresult, hkey⟩ | ⟨hresult, existing, hmem, hkey⟩
      · refine .inl ⟨x :: front, back, by rw [hqueue]; rfl, by rw [hresult]; rfl, ?_, hback⟩
        rw [forall_mem_cons]
        exact ⟨hlt, hfront⟩
      · exact .inr (.inl ⟨x :: front, existing, back, by rw [hqueue]; rfl, by rw [hresult]; rfl,
          hkey⟩)
      · exact .inr (.inr ⟨by rw [hresult], existing, mem_cons_of_mem _ hmem, hkey⟩)
    · rw [upsert_cons_of_eq heq]
      split
      next hbetter => exact .inr (.inl ⟨[], x, queue, rfl, rfl, heq, hbetter⟩)
      next hbetter => exact .inr (.inr ⟨rfl, x, mem_cons_self, heq, hbetter⟩)
    · rw [upsert_cons_of_gt hgt]
      exact .inl ⟨[], x :: queue, rfl, rfl, by simp, by simpa using hgt⟩

/-- **The queue stays sorted.** -/
theorem SortedByKey.upsert (h : SortedByKey key queue) :
    SortedByKey key (upsert key better entry queue) := by
  rcases upsert_cases key better entry queue with ⟨front, back, rfl, hresult, hfront, hback⟩ |
    ⟨front, existing, back, rfl, hresult, hkey, -⟩ | ⟨hresult, -⟩
  · rw [hresult]
    rw [SortedByKey, pairwise_append] at h ⊢
    obtain ⟨hfronts, hbacks, hacross⟩ := h
    have hbehind : ∀ x ∈ back, key entry < key x := by
      cases back with
      | nil => simp
      | cons y back =>
        have hy := hback y rfl
        rw [forall_mem_cons]
        exact ⟨hy, fun x hx => hy.trans ((pairwise_cons.mp hbacks).1 x hx)⟩
    refine ⟨hfronts, pairwise_cons.mpr ⟨hbehind, hbacks⟩, ?_⟩
    intro x hx y hy
    rcases mem_cons.mp hy with rfl | hy
    · exact hfront x hx
    · exact hacross x hx y hy
  · rw [hresult]
    rw [SortedByKey, pairwise_append, pairwise_cons] at h ⊢
    obtain ⟨hfronts, ⟨hbehind, hbacks⟩, hacross⟩ := h
    rw [hkey] at hbehind
    refine ⟨hfronts, ⟨hbehind, hbacks⟩, ?_⟩
    intro x hx y hy
    rcases mem_cons.mp hy with rfl | hy
    · rw [← hkey]
      exact hacross x hx existing mem_cons_self
    · exact hacross x hx y (mem_cons_of_mem _ hy)
  · rw [hresult]
    exact h

theorem of_not_mem_upsert (hmem : x ∈ queue) (hgone : x ∉ upsert key better entry queue) :
    entry ∈ upsert key better entry queue ∧ key x = key entry ∧ better entry x := by
  rcases upsert_cases key better entry queue with ⟨front, back, rfl, hresult, -, -⟩ |
    ⟨front, existing, back, rfl, hresult, hkey, hbetter⟩ | ⟨hresult, -⟩
  · refine absurd ?_ hgone
    rw [hresult, mem_append, mem_cons]
    exact (mem_append.mp hmem).imp_right .inr
  · rw [hresult] at hgone ⊢
    rw [mem_append, mem_cons] at hgone hmem
    push Not at hgone
    have heq : x = existing :=
      (hmem.resolve_left hgone.1).resolve_right hgone.2.2
    rw [heq]
    exact ⟨mem_append_right _ mem_cons_self, hkey, hbetter⟩
  · rw [hresult] at hgone
    exact absurd hmem hgone

/-- **What is in the queue** afterwards: the entry, if it is better than what has its key, and what
the entry is not better than. -/
theorem mem_upsert_iff (h : SortedByKey key queue) :
    x ∈ upsert key better entry queue ↔
      (x = entry ∧ ∀ w ∈ queue, key w = key entry → better entry w) ∨
        (x ∈ queue ∧ (key x = key entry → ¬ better entry x)) := by
  induction queue with
  | nil => simp [upsert, binarySearchBy]
  | cons y queue ih =>
    obtain ⟨hbehind, htail⟩ := pairwise_cons.mp h
    rcases lt_trichotomy (key y) (key entry) with hlt | heq | hgt
    · have hne : key y ≠ key entry := hlt.ne
      rw [upsert_cons_of_lt hlt, mem_cons, ih htail, forall_mem_cons, mem_cons]
      constructor
      · rintro (rfl | ⟨rfl, hall⟩ | ⟨hx, hkey⟩)
        · exact .inr ⟨.inl rfl, fun hkey => absurd hkey hne⟩
        · exact .inl ⟨rfl, fun hkey => absurd hkey hne, hall⟩
        · exact .inr ⟨.inr hx, hkey⟩
      · rintro (⟨rfl, -, hall⟩ | ⟨rfl | hx, hkey⟩)
        · exact .inr (.inl ⟨rfl, hall⟩)
        · exact .inl rfl
        · exact .inr (.inr ⟨hx, hkey⟩)
    · have hne : ∀ w ∈ queue, key w ≠ key entry := fun w hw => heq ▸ (hbehind w hw).ne'
      rw [upsert_cons_of_eq heq, forall_mem_cons, mem_cons]
      split
      next hbetter =>
        rw [mem_cons]
        constructor
        · rintro (rfl | hx)
          · exact .inl ⟨rfl, fun _ => hbetter, fun w hw hkey => absurd hkey (hne w hw)⟩
          · exact .inr ⟨.inr hx, fun hkey => absurd hkey (hne x hx)⟩
        · rintro (⟨rfl, -⟩ | ⟨rfl | hx, hkey⟩)
          · exact .inl rfl
          · exact absurd hbetter (hkey heq)
          · exact .inr hx
      next hbetter =>
        rw [mem_cons]
        constructor
        · rintro (rfl | hx)
          · exact .inr ⟨.inl rfl, fun _ => hbetter⟩
          · exact .inr ⟨.inr hx, fun hkey => absurd hkey (hne x hx)⟩
        · rintro (⟨rfl, hall, -⟩ | ⟨hx, -⟩)
          · exact absurd (hall heq) hbetter
          · exact hx
    · have hne : ∀ w ∈ y :: queue, key w ≠ key entry := by
        rw [forall_mem_cons]
        exact ⟨hgt.ne', fun w hw => (hgt.trans (hbehind w hw)).ne'⟩
      rw [upsert_cons_of_gt hgt, mem_cons]
      constructor
      · rintro (rfl | hx)
        · exact .inl ⟨rfl, fun w hw hkey => absurd hkey (hne w hw)⟩
        · exact .inr ⟨hx, fun hkey => absurd hkey (hne x hx)⟩
      · rintro (⟨rfl, -⟩ | ⟨hx, -⟩)
        · exact .inl rfl
        · exact .inr hx

theorem length_upsert_le (queue : List α) :
    (upsert key better entry queue).length ≤ queue.length + 1 := by
  rcases upsert_cases key better entry queue with ⟨front, back, rfl, hresult, -, -⟩ |
    ⟨front, existing, back, rfl, hresult, -, -⟩ | ⟨hresult, -⟩
  · rw [hresult, length_append, length_append, length_cons]
    omega
  · rw [hresult, length_append, length_append, length_cons, length_cons]
    omega
  · rw [hresult]
    exact Nat.le_succ _

end Library
