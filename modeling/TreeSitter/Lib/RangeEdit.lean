import TreeSitter.Lib.Lexer

/-!
# TreeSitter.Lib.RangeEdit

**Included ranges after an edit.** `ts_tree_edit` moves the start and the end of each included range
by rules of their own (`TSRange.edit`). Both rules move positions in the same monotone way
(`TSInputEdit.move`), but for an end at `UINT32_MAX`, which stays: that range goes on to the end of
the document, wherever this is. So the ranges stay in order if only the last one ends there
(`editIncludedRanges_inOrder`).
-/

namespace TreeSitter.Lib

open List

open Lexer (rangesInOrder)

/-- `UINT32_MAX`. -/
def uint32Max : Nat := 2 ^ 32 - 1

/-- `POINT_MAX`. -/
def Point.max : Point := ⟨uint32Max, uint32Max⟩

/-- `TSInputEdit`. -/
structure TSInputEdit where
  startByte : Nat
  oldEndByte : Nat
  newEndByte : Nat
  startPoint : Point
  oldEndPoint : Point
  newEndPoint : Point
deriving DecidableEq

/-- The position in `ts_range_edit` that a position at or after the old end is moved to. -/
def TSInputEdit.shift (edit : TSInputEdit) (byte : Nat) (point : Point) : Nat × Point :=
  let byte := addU32 edit.newEndByte (byte - edit.oldEndByte)
  let point := edit.newEndPoint.add (point.sub edit.oldEndPoint)
  if byte < edit.newEndByte then (uint32Max, Point.max) else (byte, point)

/-- `ts_range_edit`. -/
def TSRange.edit (range : TSRange) (edit : TSInputEdit) : TSRange :=
  let (endByte, endPoint) :=
    if range.endByte ≥ edit.oldEndByte then
      if range.endByte ≠ uint32Max then edit.shift range.endByte range.endPoint
      else (range.endByte, range.endPoint)
    else if range.endByte > edit.startByte then (edit.startByte, edit.startPoint)
    else (range.endByte, range.endPoint)
  let (startByte, startPoint) :=
    if range.startByte ≥ edit.oldEndByte then edit.shift range.startByte range.startPoint
    else if range.startByte > edit.startByte then (edit.startByte, edit.startPoint)
    else (range.startByte, range.startPoint)
  { startByte, endByte, startPoint, endPoint }

/-- The loop of `ts_tree_edit` over the included ranges. -/
def editIncludedRanges (ranges : List TSRange) (edit : TSInputEdit) : List TSRange :=
  ranges.map fun range => range.edit edit

/-! ### How positions move -/

/-- The edit is one of a document: it starts before its ends, which are 32-bit numbers. -/
structure TSInputEdit.WellFormed (edit : TSInputEdit) : Prop where
  start_le_oldEnd : edit.startByte ≤ edit.oldEndByte
  start_le_newEnd : edit.startByte ≤ edit.newEndByte
  oldEnd_le : edit.oldEndByte ≤ uint32Max
  newEnd_le : edit.newEndByte ≤ uint32Max

/-- **Where an edit moves a position**: it stays if it is not after the start, goes back to the
start if it is deleted, and keeps its distance to the end of the edit if it is behind. -/
def TSInputEdit.move (edit : TSInputEdit) (byte : Nat) : Nat :=
  if byte ≥ edit.oldEndByte then min (edit.newEndByte + (byte - edit.oldEndByte)) uint32Max
  else min byte edit.startByte

variable {edit : TSInputEdit} {byte byte' : Nat}

theorem TSInputEdit.move_of_ge (h : edit.oldEndByte ≤ byte) :
    edit.move byte = min (edit.newEndByte + (byte - edit.oldEndByte)) uint32Max := if_pos h

theorem TSInputEdit.move_of_lt (h : byte < edit.oldEndByte) :
    edit.move byte = min byte edit.startByte := if_neg (by omega)

theorem TSInputEdit.WellFormed.move_mono (h : edit.WellFormed) (hle : byte ≤ byte') :
    edit.move byte ≤ edit.move byte' := by
  have hstart := h.start_le_newEnd
  have hend := h.newEnd_le
  rcases Nat.lt_or_ge byte edit.oldEndByte with hlt | hge
  · rw [move_of_lt hlt]
    rcases Nat.lt_or_ge byte' edit.oldEndByte with hlt' | hge'
    · rw [move_of_lt hlt']
      omega
    · rw [move_of_ge hge']
      omega
  · rw [move_of_ge hge, move_of_ge (hge.trans hle)]
    omega

theorem TSInputEdit.WellFormed.move_le (h : edit.WellFormed) (byte : Nat) :
    edit.move byte ≤ uint32Max := by
  have hstart := h.start_le_newEnd
  have hend := h.newEnd_le
  rw [move]
  split <;> omega

theorem TSInputEdit.shift_fst (hnew : edit.newEndByte ≤ uint32Max) (hbyte : byte ≤ uint32Max)
    (hold : edit.oldEndByte ≤ byte) (point : Point) :
    (edit.shift byte point).1 = edit.move byte := by
  have hsum : addU32 edit.newEndByte (byte - edit.oldEndByte) =
      (edit.newEndByte + (byte - edit.oldEndByte)) % 2 ^ 32 := rfl
  rw [move_of_ge hold, shift]
  rw [uint32Max] at *
  split <;> dsimp only <;> omega

variable {range : TSRange}

theorem TSRange.edit_startByte (h : edit.WellFormed) (hstart : range.startByte ≤ uint32Max) :
    (range.edit edit).startByte = edit.move range.startByte := by
  simp only [TSRange.edit]
  split
  · next hge => exact TSInputEdit.shift_fst h.newEnd_le hstart hge _
  · next hlt =>
    rw [TSInputEdit.move_of_lt (not_le.mp hlt)]
    split <;> dsimp only <;> omega

theorem TSRange.edit_endByte (h : edit.WellFormed) (hend : range.endByte ≤ uint32Max) :
    (range.edit edit).endByte =
      if range.endByte = uint32Max then uint32Max else edit.move range.endByte := by
  have hold := h.oldEnd_le
  rcases eq_or_ne range.endByte uint32Max with heq | hne
  · rw [if_pos heq]
    simp only [TSRange.edit, heq, ge_iff_le, if_pos hold, ne_eq, not_true, if_false]
  · rw [if_neg hne]
    simp only [TSRange.edit, ne_eq, hne, not_false_eq_true, if_true]
    split
    · next hge => exact TSInputEdit.shift_fst h.newEnd_le hend hge _
    · next hlt =>
      rw [TSInputEdit.move_of_lt (not_le.mp hlt)]
      split <;> dsimp only <;> omega

/-! ### The order of the ranges -/

variable {ranges : List TSRange} {previous : Nat}

theorem rangesInOrder_cons :
    rangesInOrder previous (range :: ranges) = true ↔
      previous ≤ range.startByte ∧ range.startByte ≤ range.endByte ∧
        rangesInOrder range.endByte ranges = true := by
  by_cases h : range.startByte < previous ∨ range.endByte < range.startByte
  · rw [rangesInOrder, if_pos h]
    refine iff_of_false Bool.false_ne_true fun hall => ?_
    omega
  · rw [rangesInOrder, if_neg h]
    rw [not_or, not_lt, not_lt] at h
    exact ⟨fun hrest => ⟨h.1, h.2, hrest⟩, fun hall => hall.2.2⟩

theorem rangesInOrder_mono {previous' : Nat} (h : rangesInOrder previous ranges = true)
    (hle : previous' ≤ previous) :
    rangesInOrder previous' ranges = true := by
  cases ranges with
  | nil => rfl
  | cons range ranges =>
    rw [rangesInOrder_cons] at h ⊢
    exact ⟨hle.trans h.1, h.2⟩

theorem rangesInOrder_le (h : rangesInOrder previous ranges = true) :
    ∀ range ∈ ranges, range.startByte ≤ range.endByte := by
  induction ranges generalizing previous with
  | nil => exact fun range hrange => absurd hrange not_mem_nil
  | cons first ranges ih =>
    obtain ⟨-, hfirst, hrest⟩ := rangesInOrder_cons.mp h
    intro range hrange
    rcases mem_cons.mp hrange with rfl | hrange
    · exact hfirst
    · exact ih hrest range hrange

theorem editIncludedRanges_from (h : edit.WellFormed)
    (hends : ∀ range ∈ ranges, range.endByte ≤ uint32Max) (hinner : edit.oldEndByte ≤
      edit.newEndByte ∨ ∀ range ∈ ranges.dropLast, range.endByte ≠ uint32Max)
    (hranges : rangesInOrder previous ranges = true) :
    rangesInOrder (edit.move previous) (editIncludedRanges ranges edit) = true := by
  induction ranges generalizing previous with
  | nil => rfl
  | cons range ranges ih =>
    obtain ⟨hprevious, hrange, hrest⟩ := rangesInOrder_cons.mp hranges
    have hend := hends range (mem_cons_self ..)
    have hstartByte := TSRange.edit_startByte h (hrange.trans hend)
    have hendByte := TSRange.edit_endByte h hend
    have hends' : ∀ range ∈ ranges, range.endByte ≤ uint32Max :=
      fun other hother => hends other (mem_cons_of_mem _ hother)
    rw [editIncludedRanges, map_cons, rangesInOrder_cons, hstartByte, hendByte]
    refine ⟨h.move_mono hprevious, ?_, ?_⟩
    · split
      · exact h.move_le _
      · exact h.move_mono hrange
    · cases ranges with
      | nil => rfl
      | cons next ranges =>
        have hinner' : edit.oldEndByte ≤ edit.newEndByte ∨
            ∀ other ∈ (next :: ranges).dropLast, other.endByte ≠ uint32Max :=
          hinner.imp_right fun hall other hother => hall other (by
            rw [dropLast_cons_cons]
            exact mem_cons_of_mem _ hother)
        have hmoved := ih hends' hinner' hrest
        split
        · next hmax =>
          -- Only where nothing is moved back may a range follow.
          rcases hinner with hgrows | hall
          · have hmove : edit.move range.endByte = uint32Max := by
              have hold := h.oldEnd_le
              rw [hmax, TSInputEdit.move_of_ge hold]
              omega
            rwa [hmove] at hmoved
          · rw [dropLast_cons_cons] at hall
            exact absurd hmax (hall range (mem_cons_self ..))
        · exact hmoved

/-- **Edited ranges are valid.** If only the last range ends at `UINT32_MAX`, or the edit does not
shorten the document, the ranges are in order after it. A start is moved with the text, and so is an
end that is not at `UINT32_MAX`, which stays; both by one monotone map: a position before the edit is
where it was, and one at or after the old end keeps its distance to it, up to `UINT32_MAX`. -/
theorem editIncludedRanges_inOrder (ranges : List TSRange)
    (hranges : rangesInOrder 0 ranges = true)
    (hends : ∀ range ∈ ranges, range.endByte ≤ uint32Max)
    (hold : edit.startByte ≤ edit.oldEndByte ∧ edit.oldEndByte ≤ uint32Max)
    (hnew : edit.startByte ≤ edit.newEndByte ∧ edit.newEndByte ≤ uint32Max)
    (hinner : edit.oldEndByte ≤ edit.newEndByte ∨
      ∀ range ∈ ranges.dropLast, range.endByte ≠ uint32Max) :
    rangesInOrder 0 (editIncludedRanges ranges edit) = true ∧
    (∀ range ∈ ranges, (range.edit edit).endByte ≤ uint32Max ∧
      (range.edit edit).startByte = edit.move range.startByte ∧
      (range.endByte ≠ uint32Max → (range.edit edit).endByte = edit.move range.endByte) ∧
      (range.endByte = uint32Max → (range.edit edit).endByte = uint32Max)) ∧
    Monotone edit.move ∧
    (∀ byte < edit.startByte, edit.move byte = byte) ∧
    ∀ byte ≥ edit.oldEndByte,
      edit.move byte = min (byte - edit.oldEndByte + edit.newEndByte) uint32Max := by
  have h : edit.WellFormed := ⟨hold.1, hnew.1, hold.2, hnew.2⟩
  refine ⟨rangesInOrder_mono (editIncludedRanges_from h hends hinner hranges) (Nat.zero_le _),
    fun range hrange => ?_, fun _ _ => h.move_mono, fun byte hbyte => ?_, fun byte hbyte => ?_⟩
  · have hend := hends range hrange
    have hle := rangesInOrder_le hranges range hrange
    have hendByte := TSRange.edit_endByte h hend
    refine ⟨?_, TSRange.edit_startByte h (hle.trans hend), fun hne => ?_, fun heq => ?_⟩
    · rw [hendByte]
      split
      · exact le_refl _
      · exact h.move_le _
    · rw [hendByte, if_neg hne]
    · rw [hendByte, if_pos heq]
  · rw [TSInputEdit.move_of_lt (hbyte.trans_le hold.1), min_eq_left (le_of_lt hbyte)]
  · rw [TSInputEdit.move_of_ge hbyte, Nat.add_comm]

def deleteTen : TSInputEdit := ⟨0, 10, 0, ⟨0, 0⟩, ⟨0, 10⟩, ⟨0, 0⟩⟩

/-- A range of ten bytes, and one that is empty or goes on to the end of the document. -/
def rangesTo (endByte : Nat) : List TSRange :=
  [⟨2, 12, ⟨0, 2⟩, ⟨0, 12⟩⟩, ⟨12, endByte, ⟨0, 12⟩, ⟨0, 12⟩⟩]

theorem editIncludedRanges_inOrder_deleteTen :
    rangesInOrder 0 (editIncludedRanges (rangesTo uint32Max) deleteTen) = true ∧
      deleteTen.move 12 = 2 := by
  obtain ⟨hinOrder, -, -, -, hmove⟩ := @editIncludedRanges_inOrder deleteTen (rangesTo uint32Max)
    (by decide) (by decide) (by decide) (by decide) (.inr (by decide))
  exact ⟨hinOrder, hmove 12 (by decide)⟩

/-- **An empty range behind one that ends at `UINT32_MAX`** begins before this end after a deletion,
and the end of the first range has not moved with the text. -/
theorem not_inOrder_emptyAtMax : ∃ ranges edit, rangesInOrder 0 ranges = true ∧
    (∀ range ∈ ranges, range.endByte ≤ uint32Max) ∧ edit.WellFormed ∧
    rangesInOrder 0 (editIncludedRanges ranges edit) = false ∧
    ∃ range ∈ ranges, range.endByte ≥ edit.oldEndByte ∧
      (range.edit edit).endByte ≠ min (range.endByte - edit.oldEndByte + edit.newEndByte)
        uint32Max := by
  refine ⟨[⟨0, uint32Max, ⟨0, 0⟩, .max⟩, ⟨uint32Max, uint32Max, .max, .max⟩], deleteTen,
    by decide, by decide, ⟨by decide, by decide, by decide, by decide⟩, by decide,
    _, mem_cons_self .., by decide, by decide⟩

end TreeSitter.Lib
