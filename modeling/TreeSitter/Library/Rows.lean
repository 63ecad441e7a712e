import Mathlib

/-!
# TreeSitter.Library.Rows

**Rows of a flat array.** The rows stand one behind the other (`layOut`), and each is referred to by
the index at which it begins. Only the row at the end begins at the last of these indices, so it
alone bounds them all (`forall_layOut_lt_iff`). A row that is there already is shared
(`RowTable.intern`), so the table has the rows in the order in which they came up first
(`RowTable.internAll_spec`).
-/

namespace Library

open List

universe u

variable {α : Type u}

/-! ### The layout -/

/-- Rows with the indices at which they begin, from an index on. -/
def layOut : Nat → List (List α) → List (Nat × List α)
  | _, [] => []
  | first, row :: rows => (first, row) :: layOut (first + row.length) rows

/-- The number of elements of some rows. -/
def totalLength (rows : List (List α)) : Nat := (rows.map List.length).sum

theorem layOut_append (rows rows' : List (List α)) : ∀ first,
    layOut first (rows ++ rows') =
      layOut first rows ++ layOut (first + totalLength rows) rows' := by
  induction rows with
  | nil => exact fun _ => rfl
  | cons row rows ih =>
    intro first
    rw [cons_append, layOut, layOut, ih, totalLength, totalLength, map_cons,
      sum_cons, Nat.add_assoc]
    rfl

theorem map_snd_layOut (rows : List (List α)) : ∀ first,
    (layOut first rows).map Prod.snd = rows := by
  induction rows with
  | nil => exact fun _ => rfl
  | cons row rows ih => exact fun first => congrArg (row :: ·) (ih _)

variable {rows : List (List α)}

theorem le_of_mem_layOut : ∀ {first : Nat},
    ∀ e ∈ layOut first rows, e.1 ≤ first + totalLength rows.dropLast := by
  induction rows with
  | nil => exact fun e he => absurd he not_mem_nil
  | cons row rows ih =>
    intro first e he
    rcases mem_cons.mp he with rfl | he
    · exact Nat.le_add_right _ _
    · cases rows with
      | nil => exact absurd he not_mem_nil
      | cons next rows =>
        have hle := ih e he
        rw [dropLast_cons_cons, totalLength, map_cons, sum_cons]
        rw [totalLength] at hle
        omega

theorem getLast_mem_layOut (hne : rows ≠ []) (first : Nat) :
    (first + totalLength rows.dropLast, rows.getLast hne) ∈ layOut first rows := by
  have happend := layOut_append rows.dropLast [rows.getLast hne] first
  rw [dropLast_append_getLast hne] at happend
  rw [happend]
  exact mem_append_right _ mem_cons_self

/-- **The row at the end bounds all indices.** -/
theorem forall_layOut_lt_iff {bound : Nat} (hbound : 0 < bound) :
    (∀ e ∈ layOut 0 rows, e.1 < bound) ↔ totalLength rows.dropLast < bound := by
  constructor
  · intro h
    by_cases hne : rows = []
    · rw [hne]
      exact hbound
    · have hlast := h _ (getLast_mem_layOut hne 0)
      rwa [Nat.zero_add] at hlast
  · intro h e he
    have hle := le_of_mem_layOut e he
    omega

/-! ### Sharing -/

/-- A table of rows that are written once. -/
structure RowTable (α : Type u) where
  rows : List (Nat × List α)
  nextIndex : Nat

/-- The elements of a list in the order in which they come up first, behind those that have come up
before. -/
def firstOccurrences [DecidableEq α] (seen : List α) (xs : List α) : List α :=
  xs.foldl (fun seen x => if x ∈ seen then seen else seen ++ [x]) seen

theorem mem_firstOccurrences [DecidableEq α] {xs : List α} {x : α} : ∀ {seen : List α},
    x ∈ firstOccurrences seen xs ↔ x ∈ seen ∨ x ∈ xs := by
  induction xs with
  | nil => simp [firstOccurrences]
  | cons y xs ih =>
    intro seen
    rw [firstOccurrences, foldl_cons, ← firstOccurrences, ih, mem_cons]
    split
    next hmem =>
      constructor
      · exact fun h => h.imp_right .inr
      · rintro (h | rfl | h)
        · exact .inl h
        · exact .inl hmem
        · exact .inr h
    next => rw [mem_append, mem_singleton, or_assoc]

theorem isPrefix_firstOccurrences [DecidableEq α] (xs : List α) : ∀ seen : List α,
    seen <+: firstOccurrences seen xs := by
  induction xs with
  | nil => exact fun _ => prefix_rfl
  | cons x xs ih =>
    intro seen
    rw [firstOccurrences, foldl_cons, ← firstOccurrences]
    split
    · exact ih seen
    · exact List.IsPrefix.trans (prefix_append _ _) (ih _)

theorem nodup_firstOccurrences [DecidableEq α] {xs : List α} : ∀ {seen : List α}, seen.Nodup →
    (firstOccurrences seen xs).Nodup := by
  induction xs with
  | nil => exact fun h => h
  | cons x xs ih =>
    intro seen h
    rw [firstOccurrences, foldl_cons, ← firstOccurrences]
    split
    next => exact ih h
    next hmem => exact ih (concat_eq_append ▸ h.concat hmem)

namespace RowTable

variable [DecidableEq α]

/-- The index of a row, which is put at the end of the table if it is not there. -/
def intern (table : RowTable α) (row : List α) : Nat × RowTable α :=
  match table.rows.find? fun e => e.2 = row with
  | some e => (e.1, table)
  | none =>
    (table.nextIndex, ⟨table.rows ++ [(table.nextIndex, row)], table.nextIndex + row.length⟩)

def ofRows (rows : List (List α)) : RowTable α := ⟨layOut 0 rows, totalLength rows⟩

/-- **Interning.** The row is behind the others unless it is one of them, and its index is where it
begins. -/
theorem intern_ofRows (rows : List (List α)) (row : List α) :
    ((ofRows rows).intern row).2 = ofRows (firstOccurrences rows [row]) ∧
      (((ofRows rows).intern row).1, row) ∈ ((ofRows rows).intern row).2.rows := by
  rw [intern]
  split
  next e hfind =>
    have heq : e.2 = row := by simpa using find?_some hfind
    have hmem : e ∈ layOut 0 rows := mem_of_find?_eq_some hfind
    have hrow : row ∈ rows := by
      rw [← map_snd_layOut rows 0, ← heq]
      exact mem_map_of_mem hmem
    rw [firstOccurrences, foldl_cons, if_pos hrow, ← heq]
    exact ⟨rfl, hmem⟩
  next hfind =>
    have hrow : row ∉ rows := by
      intro hrow
      rw [← map_snd_layOut rows 0] at hrow
      obtain ⟨e, he, heq⟩ := mem_map.mp hrow
      exact absurd (decide_eq_true heq) (find?_eq_none.mp hfind e he)
    rw [firstOccurrences, foldl_cons, if_neg hrow, foldl_nil]
    refine ⟨?_, mem_append_right _ mem_cons_self⟩
    rw [ofRows, ofRows, layOut_append, Nat.zero_add, totalLength, totalLength, map_append,
      sum_append]
    rfl

def internAll (table : RowTable α) : List (List α) → List Nat × RowTable α
  | [] => ([], table)
  | row :: rows =>
    let (index, table) := table.intern row
    let (indices, table) := table.internAll rows
    (index :: indices, table)

theorem mem_rows_intern (table : RowTable α) (row : List α) {e : Nat × List α}
    (he : e ∈ table.rows) : e ∈ (table.intern row).2.rows := by
  rw [intern]
  split
  · exact he
  · exact mem_append_left _ he

theorem mem_rows_internAll {rows : List (List α)} {e : Nat × List α} : ∀ {table : RowTable α},
    e ∈ table.rows → e ∈ (table.internAll rows).2.rows := by
  induction rows with
  | nil => exact fun he => he
  | cons row rows ih => exact fun he => ih (mem_rows_intern _ row he)

theorem length_internAll (rows : List (List α)) : ∀ table : RowTable α,
    (table.internAll rows).1.length = rows.length := by
  induction rows with
  | nil => exact fun _ => rfl
  | cons row rows ih => exact fun table => congrArg (· + 1) (ih _)

/-- **Interning some rows in turn.** The table has the rows that came up, and each of them has the
index at which it begins. -/
theorem internAll_spec {rows : List (List α)} : ∀ {seen : List (List α)},
    ((ofRows seen).internAll rows).2 = ofRows (firstOccurrences seen rows) ∧
      ∀ e ∈ ((ofRows seen).internAll rows).1.zip rows,
        e ∈ ((ofRows seen).internAll rows).2.rows := by
  induction rows with
  | nil => exact ⟨rfl, fun _ he => absurd he (by simp [internAll])⟩
  | cons row rows ih =>
    intro seen
    obtain ⟨htable, hindex⟩ := intern_ofRows seen row
    rw [internAll]
    dsimp only
    rw [htable] at hindex ⊢
    obtain ⟨hrest, hmem⟩ := @ih (firstOccurrences seen [row])
    refine ⟨hrest, ?_⟩
    intro e he
    rcases mem_cons.mp he with rfl | he
    · exact mem_rows_internAll hindex
    · exact hmem e he

end RowTable

end Library
