import TreeSitter.Lib.RangeEdit
import TreeSitter.Library.BoundaryMerge

/-!
# TreeSitter.Lib.GetChangedRanges

`lib/src/get_changed_ranges.c`: **the difference of two lists of included ranges**
(`getChangedRanges`), which keeps the parser from reusing nodes of the old tree whose text is read
from other ranges. The loop walks over the boundaries of both lists in order and keeps track of
whether it is in a range of each. Where it is in a range of one list only, it adds the piece to the
result.

The walk is that of `Library.mergeRun`, with `UINT32_MAX` as the largest position. A range that is
empty and stands there has boundaries at this position, too, and then the loop may take a list that
is at its end for one that it is in, and read behind it. `getChangedRanges_iff` says when it does
not, and that the result is right then.
-/

namespace TreeSitter.Lib

open List

open Lexer (rangesInOrder)
open Library

/-! ### Differences of ranges -/

/-- `LENGTH_MAX`. -/
def lengthMax : Length := ⟨2 ^ 32 - 1, ⟨2 ^ 32 - 1, 2 ^ 32 - 1⟩⟩

/-- `ts_range_array_add`. -/
def rangeArrayAdd (self : List TSRange) (start stop : Length) : List TSRange :=
  let pushed :=
    if start.bytes < stop.bytes then
      self ++ [⟨start.bytes, stop.bytes, start.extent, stop.extent⟩]
    else self
  match self.getLast? with
  | none => pushed
  | some last =>
    if start.bytes ≤ last.endByte then
      self.dropLast ++ [{ last with endByte := stop.bytes, endPoint := stop.extent }]
    else pushed

/-- `ts_range_array_intersects`: it examines the ranges from `startIndex` on. -/
def rangeArrayIntersects (self : List TSRange) (startIndex startByte endByte : Nat) : Bool :=
  match (self.drop startIndex).find? fun range => range.endByte > startByte with
  | none => false
  | some range => range.startByte < endByte

/-- The next start or end of a list of ranges; `none` when it reads past the list. -/
def nextBoundary (inRange : Bool) (ranges : List TSRange) : Option Length :=
  match inRange, ranges with
  | true, range :: _ => some ⟨range.endByte, range.endPoint⟩
  | true, [] => none
  | false, range :: _ => some ⟨range.startByte, range.startPoint⟩
  | false, [] => some lengthMax

/-- The loop of `ts_range_array_get_changed_ranges`. Each pass goes to the next boundary of one
of the lists or of both, so that there are at most twice as many as ranges. -/
def changedRangesLoop : Nat → List TSRange → List TSRange → Length → Bool → Bool →
    List TSRange → Option (List TSRange)
  | 0, _, _, _, _, _, differences => some differences
  | passes + 1, oldRanges, newRanges, position, inOld, inNew, differences =>
    if oldRanges.isEmpty ∧ newRanges.isEmpty then some differences
    else do
      let nextOld ← nextBoundary inOld oldRanges
      let nextNew ← nextBoundary inNew newRanges
      let add (stop : Length) :=
        if inOld ≠ inNew then rangeArrayAdd differences position stop else differences
      if nextOld.bytes < nextNew.bytes then
        changedRangesLoop passes (if inOld then oldRanges.tail else oldRanges) newRanges nextOld
          (!inOld) inNew (add nextOld)
      else if nextNew.bytes < nextOld.bytes then
        changedRangesLoop passes oldRanges (if inNew then newRanges.tail else newRanges) nextNew
          inOld (!inNew) (add nextNew)
      else
        changedRangesLoop passes (if inOld then oldRanges.tail else oldRanges)
          (if inNew then newRanges.tail else newRanges) nextNew (!inOld) (!inNew) (add nextNew)

/-- `ts_range_array_get_changed_ranges`. -/
def getChangedRanges (oldRanges newRanges : List TSRange) : Option (List TSRange) :=
  changedRangesLoop (2 * (oldRanges.length + newRanges.length)) oldRanges newRanges .zero false
    false []

example : getChangedRanges [⟨0, 10, ⟨0, 0⟩, ⟨0, 10⟩⟩]
    [⟨0, 4, ⟨0, 0⟩, ⟨0, 4⟩⟩, ⟨6, 10, ⟨0, 6⟩, ⟨0, 10⟩⟩] =
    some [⟨4, 6, ⟨0, 4⟩, ⟨0, 6⟩⟩] := by decide

/-! ### Ranges and their boundaries -/

/-- Some range has the position. -/
def InRanges (ranges : List TSRange) (p : Nat) : Prop :=
  ∃ range ∈ ranges, range.startByte ≤ p ∧ p < range.endByte

/-- The starts and the ends of the ranges. -/
def rangeBoundaries (ranges : List TSRange) : List Nat :=
  ranges.flatMap fun range => [range.startByte, range.endByte]

theorem rangeBoundaries_cons (range : TSRange) (ranges : List TSRange) :
    rangeBoundaries (range :: ranges) =
      range.startByte :: range.endByte :: rangeBoundaries ranges := rfl

theorem rangeBoundaries_length (ranges : List TSRange) :
    (rangeBoundaries ranges).length = 2 * ranges.length := by
  induction ranges with
  | nil => rfl
  | cons range ranges ih =>
    rw [rangeBoundaries_cons, length_cons, length_cons, ih, length_cons]
    omega

theorem getElem?_rangeBoundaries (ranges : List TSRange) (index : Nat) :
    (rangeBoundaries ranges)[2 * index]? = ranges[index]?.map TSRange.startByte ∧
      (rangeBoundaries ranges)[2 * index + 1]? = ranges[index]?.map TSRange.endByte := by
  induction ranges generalizing index with
  | nil => exact ⟨rfl, rfl⟩
  | cons range ranges ih =>
    cases index with
    | zero => exact ⟨rfl, rfl⟩
    | succ index => exact ih index

variable {ranges : List TSRange}

theorem rangeBoundaries_sorted {previous : Nat} (h : rangesInOrder previous ranges = true) :
    (previous :: rangeBoundaries ranges).Pairwise (· ≤ ·) := by
  induction ranges generalizing previous with
  | nil => exact pairwise_singleton _ _
  | cons range ranges ih =>
    obtain ⟨hprevious, hrange, hrest⟩ := rangesInOrder_cons.mp h
    have hsorted := ih hrest
    have hbehind := (pairwise_cons.mp hsorted).1
    rw [rangeBoundaries_cons]
    refine pairwise_cons.mpr ⟨fun b hb => ?_, pairwise_cons.mpr ⟨fun b hb => ?_, hsorted⟩⟩
    · rcases mem_cons.mp hb with rfl | hb
      · exact hprevious
      · rcases mem_cons.mp hb with rfl | hb
        · exact hprevious.trans hrange
        · exact (hprevious.trans hrange).trans (hbehind b hb)
    · rcases mem_cons.mp hb with rfl | hb
      · exact hrange
      · exact hrange.trans (hbehind b hb)

theorem boundaries_of_inOrder (h : rangesInOrder 0 ranges = true)
    (hends : ∀ range ∈ ranges, range.endByte ≤ uint32Max) :
    Boundaries uint32Max (rangeBoundaries ranges) where
  sorted := (pairwise_cons.mp (rangeBoundaries_sorted h)).2
  le_top {b} hb := by
    obtain ⟨range, hrange, hb⟩ := mem_flatMap.mp hb
    have hle := rangesInOrder_le h range hrange
    have hend := hends range hrange
    rcases mem_cons.mp hb with rfl | hb
    · exact hle.trans hend
    · rwa [mem_singleton.mp hb]
  even := by rw [rangeBoundaries_length, Nat.mul_mod_right]

theorem inRanges_iff_inside {previous p : Nat} (h : rangesInOrder previous ranges = true) :
    InRanges ranges p ↔ Inside (rangeBoundaries ranges) p := by
  induction ranges generalizing previous with
  | nil =>
    refine iff_of_false (fun ⟨range, hrange, _⟩ => absurd hrange not_mem_nil) fun hodd => ?_
    exact Nat.not_odd_zero hodd
  | cons range ranges ih =>
    obtain ⟨-, hrange, hrest⟩ := rangesInOrder_cons.mp h
    have hbehind := (pairwise_cons.mp (rangeBoundaries_sorted hrest)).1
    have hcovered : InRanges (range :: ranges) p ↔
        range.startByte ≤ p ∧ p < range.endByte ∨ InRanges ranges p := by
      simp only [InRanges, mem_cons, or_and_right, exists_or, exists_eq_left]
    rw [hcovered, ih hrest, rangeBoundaries_cons]
    exact (inside_cons_cons hrange hbehind).symm

/-! ### Adding a piece -/

/-- The ranges are not empty, are in order with gaps between them, and end by a position. -/
structure SeparateUpTo (ranges : List TSRange) (stop : Nat) : Prop where
  nonempty {range : TSRange} (h : range ∈ ranges) : range.startByte < range.endByte
  sorted : ranges.Pairwise fun range next => range.endByte < next.startByte
  le {range : TSRange} (h : range ∈ ranges) : range.endByte ≤ stop

theorem SeparateUpTo.mono {stop stop' : Nat} (h : SeparateUpTo ranges stop) (hle : stop ≤ stop') :
    SeparateUpTo ranges stop' :=
  ⟨h.nonempty, h.sorted, fun hrange => (h.le hrange).trans hle⟩

theorem inRanges_append_singleton {range : TSRange} {p : Nat} :
    InRanges (ranges ++ [range]) p ↔
      InRanges ranges p ∨ range.startByte ≤ p ∧ p < range.endByte := by
  simp only [InRanges, mem_append, mem_singleton, or_and_right, exists_or, exists_eq_left]

/-- **A piece is added**: it extends the last range if that one ends where it begins. -/
theorem rangeArrayAdd_spec {start stop : Length} (h : SeparateUpTo ranges start.bytes)
    (hle : start.bytes ≤ stop.bytes) :
    SeparateUpTo (rangeArrayAdd ranges start stop) stop.bytes ∧
      ∀ p, InRanges (rangeArrayAdd ranges start stop) p ↔
        InRanges ranges p ∨ start.bytes ≤ p ∧ p < stop.bytes := by
  have hadded : (∀ range ∈ ranges, range.endByte < start.bytes) →
      SeparateUpTo (if start.bytes < stop.bytes then
        ranges ++ [⟨start.bytes, stop.bytes, start.extent, stop.extent⟩] else ranges) stop.bytes ∧
      ∀ p, InRanges (if start.bytes < stop.bytes then
        ranges ++ [⟨start.bytes, stop.bytes, start.extent, stop.extent⟩] else ranges) p ↔
        InRanges ranges p ∨ start.bytes ≤ p ∧ p < stop.bytes := by
    intro hbefore
    split
    · next hlt =>
      refine ⟨⟨fun {range} hrange => ?_, ?_, fun {range} hrange => ?_⟩,
        fun p => inRanges_append_singleton⟩
      · rcases mem_append.mp hrange with hrange | hrange
        · exact h.nonempty hrange
        · rw [mem_singleton.mp hrange]
          exact hlt
      · rw [pairwise_append]
        refine ⟨h.sorted, pairwise_singleton _ _, fun range hrange next hnext => ?_⟩
        rw [mem_singleton.mp hnext]
        exact hbefore range hrange
      · rcases mem_append.mp hrange with hrange | hrange
        · exact (h.le hrange).trans hle
        · rw [mem_singleton.mp hrange]
    · next hge =>
      refine ⟨h.mono hle, fun p => ?_⟩
      rw [or_iff_left fun hp => hge (hp.1.trans_lt hp.2)]
  rw [rangeArrayAdd]
  rcases eq_nil_or_concat' ranges with rfl | ⟨front, last, rfl⟩
  · exact hadded fun range hrange => absurd hrange not_mem_nil
  · rw [getLast?_concat]
    dsimp only
    have hlast : last ∈ front ++ [last] := mem_append_right _ (mem_singleton.mpr rfl)
    have hsorted := pairwise_append.mp h.sorted
    split
    · next hjoins =>
      have heq : last.endByte = start.bytes := le_antisymm (h.le hlast) hjoins
      have hnonempty := h.nonempty hlast
      rw [dropLast_concat]
      refine ⟨⟨fun {range} hrange => ?_, ?_, fun {range} hrange => ?_⟩, fun p => ?_⟩
      · rcases mem_append.mp hrange with hrange | hrange
        · exact h.nonempty (mem_append_left _ hrange)
        · rw [mem_singleton.mp hrange]
          dsimp only
          omega
      · rw [pairwise_append]
        refine ⟨hsorted.1, pairwise_singleton _ _, fun range hrange next hnext => ?_⟩
        rw [mem_singleton.mp hnext]
        exact hsorted.2.2 range hrange last (mem_singleton.mpr rfl)
      · rcases mem_append.mp hrange with hrange | hrange
        · exact (h.le (mem_append_left _ hrange)).trans hle
        · rw [mem_singleton.mp hrange]
      · rw [inRanges_append_singleton, inRanges_append_singleton]
        dsimp only
        rw [or_assoc]
        refine or_congr_right ?_
        omega
    · next hgap =>
      refine hadded fun range hrange => ?_
      rcases mem_append.mp hrange with hrange | hrange
      · have hlt := hsorted.2.2 range hrange last (mem_singleton.mpr rfl)
        have hnonempty := h.nonempty hlast
        omega
      · rw [mem_singleton.mp hrange]
        omega

/-! ### The walk -/

/-- The variables of `ts_range_array_get_changed_ranges`. -/
structure RangeWalk where
  oldIndex : Nat
  newIndex : Nat
  currentPosition : Length
  inOldRange : Bool
  inNewRange : Bool
  differences : List TSRange
deriving DecidableEq

namespace RangeWalk

/-- The loop from some values of the variables on. -/
def loop (oldRanges newRanges : List TSRange) (passes : Nat) (walk : RangeWalk) :
    Option (List TSRange) :=
  changedRangesLoop passes (oldRanges.drop walk.oldIndex) (newRanges.drop walk.newIndex)
    walk.currentPosition walk.inOldRange walk.inNewRange walk.differences

/-- The differences after the walk went on to the next position. -/
def addUpTo (walk : RangeWalk) (next : Length) : List TSRange :=
  if walk.inOldRange ≠ walk.inNewRange then
    rangeArrayAdd walk.differences walk.currentPosition next
  else walk.differences

/-- The old list is moved on. -/
def passOld (walk : RangeWalk) : RangeWalk :=
  { walk with
    oldIndex := if walk.inOldRange then walk.oldIndex + 1 else walk.oldIndex
    inOldRange := !walk.inOldRange }

/-- The new list is moved on. -/
def passNew (walk : RangeWalk) : RangeWalk :=
  { walk with
    newIndex := if walk.inNewRange then walk.newIndex + 1 else walk.newIndex
    inNewRange := !walk.inNewRange }

/-- The variables after a pass of the loop. -/
def turn (oldRanges newRanges : List TSRange) (walk : RangeWalk) : Option RangeWalk := do
  let nextOld ← nextBoundary walk.inOldRange (oldRanges.drop walk.oldIndex)
  let nextNew ← nextBoundary walk.inNewRange (newRanges.drop walk.newIndex)
  if nextOld.bytes < nextNew.bytes then
    some { walk.passOld with differences := walk.addUpTo nextOld, currentPosition := nextOld }
  else if nextNew.bytes < nextOld.bytes then
    some { walk.passNew with differences := walk.addUpTo nextNew, currentPosition := nextNew }
  else
    some { walk.passOld.passNew with
      differences := walk.addUpTo nextNew, currentPosition := nextNew }

/-- A number of passes, as long as a list has a range left. -/
def run (oldRanges newRanges : List TSRange) : Nat → RangeWalk → Option RangeWalk
  | 0, walk => some walk
  | turns + 1, walk =>
    if walk.oldIndex < oldRanges.length ∨ walk.newIndex < newRanges.length then do
      let walk ← walk.turn oldRanges newRanges
      run oldRanges newRanges turns walk
    else some walk

end RangeWalk

section Walk

variable {oldRanges newRanges : List TSRange} {walk walk' : RangeWalk}

theorem drop_toggled {α : Type} (l : List α) (index : Nat) (inRange : Bool) :
    (if inRange then (l.drop index).tail else l.drop index) =
      l.drop (if inRange then index + 1 else index) := by
  cases inRange
  · rfl
  · exact tail_drop

theorem RangeWalk.loop_eq_run (passes : Nat) (walk : RangeWalk) :
    walk.loop oldRanges newRanges passes =
      (walk.run oldRanges newRanges passes).map RangeWalk.differences := by
  induction passes generalizing walk with
  | zero => rfl
  | succ passes ih =>
    have hempty : ((oldRanges.drop walk.oldIndex).isEmpty = true ∧
        (newRanges.drop walk.newIndex).isEmpty = true) ↔
        ¬ (walk.oldIndex < oldRanges.length ∨ walk.newIndex < newRanges.length) := by
      rw [List.isEmpty_iff, List.isEmpty_iff, List.drop_eq_nil_iff, List.drop_eq_nil_iff]
      omega
    rw [loop, changedRangesLoop, run]
    by_cases hopen : walk.oldIndex < oldRanges.length ∨ walk.newIndex < newRanges.length
    · rw [if_neg (fun h => hempty.mp h hopen), if_pos hopen, turn]
      cases nextBoundary walk.inOldRange (oldRanges.drop walk.oldIndex) with
      | none => rfl
      | some nextOld =>
        cases nextBoundary walk.inNewRange (newRanges.drop walk.newIndex) with
        | none => rfl
        | some nextNew =>
          simp only [Option.bind_eq_bind, Option.bind_some, drop_toggled]
          split
          · exact ih { walk.passOld with
              differences := walk.addUpTo nextOld, currentPosition := nextOld }
          · split
            · exact ih { walk.passNew with
                differences := walk.addUpTo nextNew, currentPosition := nextNew }
            · exact ih { walk.passOld.passNew with
                differences := walk.addUpTo nextNew, currentPosition := nextNew }
    · rw [if_pos (hempty.mpr hopen), if_neg hopen]
      rfl

/-- The numbers of boundaries that the walk has passed. -/
def RangeWalk.counts (walk : RangeWalk) : Nat × Nat :=
  (2 * walk.oldIndex + walk.inOldRange.toNat, 2 * walk.newIndex + walk.inNewRange.toNat)

theorem nextBoundary_bytes (ranges : List TSRange) (index : Nat) (inRange : Bool) :
    (nextBoundary inRange (ranges.drop index)).map Length.bytes =
      boundaryAt uint32Max (rangeBoundaries ranges) (2 * index + inRange.toNat) := by
  obtain ⟨hstart, hend⟩ := getElem?_rangeBoundaries ranges index
  have hhead : (ranges.drop index)[0]? = ranges[index]? := by
    rw [getElem?_drop, Nat.add_zero]
  cases inRange with
  | false =>
    rw [boundaryAt, Bool.toNat_false, Nat.add_zero, hstart, ← hhead]
    cases ranges.drop index with
    | nil => exact (if_neg (by omega)).symm
    | cons range rest => rfl
  | true =>
    rw [boundaryAt, Bool.toNat_true, hend, ← hhead]
    cases ranges.drop index with
    | nil => exact (if_pos (by omega)).symm
    | cons range rest => rfl

theorem toggled_count (index : Nat) (inRange : Bool) :
    2 * (if inRange then index + 1 else index) + (!inRange).toNat =
      2 * index + inRange.toNat + 1 := by
  cases inRange
  · rfl
  · rw [if_pos rfl]
    simp only [Bool.not_true, Bool.toNat_false, Bool.toNat_true]
    omega

/-- **What a turn does**: it goes on to the first of the next boundaries. -/
theorem RangeWalk.turn_spec (h : walk.turn oldRanges newRanges = some walk') :
    ∃ b c, boundaryAt uint32Max (rangeBoundaries oldRanges) walk.counts.1 = some b ∧
      boundaryAt uint32Max (rangeBoundaries newRanges) walk.counts.2 = some c ∧
      walk'.counts = (if b ≤ c then walk.counts.1 + 1 else walk.counts.1,
        if c ≤ b then walk.counts.2 + 1 else walk.counts.2) ∧
      walk'.currentPosition.bytes = min b c ∧
      walk'.differences = walk.addUpTo walk'.currentPosition := by
  obtain ⟨nextOld, hold, h⟩ := Option.bind_eq_some_iff.mp h
  obtain ⟨nextNew, hnew, h⟩ := Option.bind_eq_some_iff.mp h
  have hb := nextBoundary_bytes oldRanges walk.oldIndex walk.inOldRange
  have hc := nextBoundary_bytes newRanges walk.newIndex walk.inNewRange
  rw [hold] at hb
  rw [hnew] at hc
  refine ⟨nextOld.bytes, nextNew.bytes, hb.symm, hc.symm, ?_⟩
  split at h
  · next hlt =>
    cases h
    refine ⟨?_, (min_eq_left hlt.le).symm, rfl⟩
    rw [if_pos hlt.le, if_neg (not_le.mpr hlt)]
    exact congrArg₂ Prod.mk (toggled_count ..) rfl
  · next hle =>
    rw [not_lt] at hle
    split at h
    · next hlt =>
      cases h
      refine ⟨?_, (min_eq_right hle).symm, rfl⟩
      rw [if_neg (not_le.mpr hlt), if_pos hle]
      exact congrArg₂ Prod.mk rfl (toggled_count ..)
    · next hle' =>
      rw [not_lt] at hle'
      cases h
      refine ⟨?_, (min_eq_right hle).symm, rfl⟩
      rw [if_pos hle', if_pos hle]
      exact congrArg₂ Prod.mk (toggled_count ..) (toggled_count ..)

theorem RangeWalk.turn_counts (walk : RangeWalk) :
    (walk.turn oldRanges newRanges).map RangeWalk.counts =
      mergeTurn uint32Max (rangeBoundaries oldRanges) (rangeBoundaries newRanges) walk.counts := by
  cases hturn : walk.turn oldRanges newRanges with
  | some walk' =>
    obtain ⟨b, c, hb, hc, hcounts, -⟩ := RangeWalk.turn_spec hturn
    simp only [mergeTurn, hb, hc, Option.bind_eq_bind, Option.bind_some, Option.map_some, hcounts]
  | none =>
    have hb := nextBoundary_bytes oldRanges walk.oldIndex walk.inOldRange
    have hc := nextBoundary_bytes newRanges walk.newIndex walk.inNewRange
    rw [mergeTurn, RangeWalk.counts, ← hb, ← hc]
    cases hold : nextBoundary walk.inOldRange (oldRanges.drop walk.oldIndex) with
    | none => rfl
    | some nextOld =>
      cases hnew : nextBoundary walk.inNewRange (newRanges.drop walk.newIndex) with
      | none => rfl
      | some nextNew =>
        rw [RangeWalk.turn, hold, hnew] at hturn
        simp only [Option.bind_eq_bind, Option.bind_some] at hturn
        split at hturn
        · cases hturn
        · split at hturn <;> cases hturn

/-- **The loop is a walk over the boundaries.** -/
theorem RangeWalk.run_counts (turns : Nat) (walk : RangeWalk) :
    (walk.run oldRanges newRanges turns).map RangeWalk.counts =
      mergeRun uint32Max (rangeBoundaries oldRanges) (rangeBoundaries newRanges) turns
        walk.counts := by
  induction turns generalizing walk with
  | zero => rfl
  | succ turns ih =>
    have hopen : (walk.oldIndex < oldRanges.length ∨ walk.newIndex < newRanges.length) ↔
        walk.counts.1 < (rangeBoundaries oldRanges).length ∨
          walk.counts.2 < (rangeBoundaries newRanges).length := by
      have hold := Bool.toNat_le walk.inOldRange
      have hnew := Bool.toNat_le walk.inNewRange
      rw [rangeBoundaries_length, rangeBoundaries_length, RangeWalk.counts]
      dsimp only
      omega
    rw [RangeWalk.run, mergeRun]
    by_cases h : walk.oldIndex < oldRanges.length ∨ walk.newIndex < newRanges.length
    · rw [if_pos h, if_pos (hopen.mp h), ← RangeWalk.turn_counts]
      cases walk.turn oldRanges newRanges with
      | none => rfl
      | some walk' => exact ih walk'
    · rw [if_neg h, if_neg (mt hopen.mpr h)]
      rfl

/-- The walk is behind `count` boundaries of a list. -/
structure PassedTo (bs : List Nat) (count position : Nat) : Prop where
  before {b : Nat} (h : b ∈ bs.take count) : b ≤ position
  behind {b : Nat} (h : b ∈ bs.drop count) : position ≤ b
  inBounds : count ≤ bs.length ∨ position = uint32Max

variable {bs : List Nat} {position count b : Nat}

theorem PassedTo.le_next (h : PassedTo bs count position) (hposition : position ≤ uint32Max)
    (hb : boundaryAt uint32Max bs count = some b) :
    position ≤ b := by
  rcases boundaryAt_eq_some hb with hget | ⟨-, rfl⟩
  · obtain ⟨hlt, rfl⟩ := List.getElem?_eq_some_iff.mp hget
    refine h.behind ?_
    rw [drop_eq_getElem_cons hlt]
    exact mem_cons_self ..
  · exact hposition

theorem PassedTo.next {next : Nat} (h : PassedTo bs count position)
    (hbs : Boundaries uint32Max bs) (hb : boundaryAt uint32Max bs count = some b)
    (hle : position ≤ next) (hnext : next ≤ b) (moved : Prop) [Decidable moved]
    (hmoved : moved → b = next) :
    b ≤ uint32Max ∧ (∀ b' ∈ bs.drop count, b ≤ b') ∧
      PassedTo bs (if moved then count + 1 else count) next := by
  have hmax : b ≤ uint32Max := by
    rcases boundaryAt_eq_some hb with hget | ⟨-, rfl⟩
    · exact hbs.le_top (mem_of_getElem? hget)
    · exact le_refl _
  have hbehind : ∀ b' ∈ bs.drop count, b ≤ b' := by
    intro b' hb'
    rcases boundaryAt_eq_some hb with hget | ⟨hlength, -⟩
    · obtain ⟨hlt, rfl⟩ := List.getElem?_eq_some_iff.mp hget
      have hsorted := hbs.sorted.drop (i := count)
      rw [drop_eq_getElem_cons hlt] at hsorted hb'
      rcases mem_cons.mp hb' with rfl | hb'
      · exact le_refl _
      · exact (pairwise_cons.mp hsorted).1 b' hb'
    · rw [drop_eq_nil_of_le hlength] at hb'
      exact absurd hb' not_mem_nil
  refine ⟨hmax, hbehind, ?_⟩
  split
  · next hyes =>
    have heq := hmoved hyes
    refine ⟨fun {b'} hb' => ?_, fun {b'} hb' => ?_, ?_⟩
    · rw [take_add_one, mem_append] at hb'
      rcases hb' with hb' | hb'
      · exact (h.before hb').trans hle
      · rcases boundaryAt_eq_some hb with hget | ⟨hlength, -⟩
        · rw [hget] at hb'
          rw [mem_singleton.mp hb', heq]
        · rw [getElem?_eq_none hlength] at hb'
          exact absurd hb' not_mem_nil
    · exact heq ▸ hbehind b' (drop_subset_drop_left bs (Nat.le_succ count) hb')
    · rcases boundaryAt_eq_some hb with hget | ⟨-, htop⟩
      · exact .inl (List.getElem?_eq_some_iff.mp hget).1
      · exact .inr (heq ▸ htop)
  · refine ⟨fun hb' => (h.before hb').trans hle, fun {b'} hb' => hnext.trans (hbehind b' hb'), ?_⟩
    refine h.inBounds.imp_right fun heq => ?_
    omega

theorem PassedTo.inside_iff {p : Nat} (h : PassedTo bs count position)
    (hbehind : ∀ b' ∈ bs.drop count, b ≤ b') (hp : position ≤ p) (hlt : p < b)
    (hmax : p < uint32Max) : Inside bs p ↔ Odd count := by
  have hlength : count ≤ bs.length := by
    refine h.inBounds.resolve_right ?_
    omega
  rw [Inside, countP_le_of_between hlength (fun b' hb' => (h.before hb').trans hp)
    fun b' hb' => hlt.trans_le (hbehind b' hb')]

/-- **The state of the walk**: the differences before the position have been found. -/
structure RangeWalk.Passed (oldRanges newRanges : List TSRange) (walk : RangeWalk) : Prop where
  old : PassedTo (rangeBoundaries oldRanges) walk.counts.1 walk.currentPosition.bytes
  new : PassedTo (rangeBoundaries newRanges) walk.counts.2 walk.currentPosition.bytes
  le_max : walk.currentPosition.bytes ≤ uint32Max
  separate : SeparateUpTo walk.differences walk.currentPosition.bytes
  covers {p : Nat} : InRanges walk.differences p ↔ p < walk.currentPosition.bytes ∧
    ¬ (Inside (rangeBoundaries oldRanges) p ↔ Inside (rangeBoundaries newRanges) p)

theorem odd_count_iff (index : Nat) (inRange : Bool) :
    Odd (2 * index + inRange.toNat) ↔ inRange = true := by
  cases inRange with
  | false => simp
  | true => simp

theorem RangeWalk.Passed.turn (h : walk.Passed oldRanges newRanges)
    (hold : Boundaries uint32Max (rangeBoundaries oldRanges))
    (hnew : Boundaries uint32Max (rangeBoundaries newRanges))
    (hturn : walk.turn oldRanges newRanges = some walk') :
    walk'.Passed oldRanges newRanges := by
  obtain ⟨b, c, hb, hc, hcounts, hposition, hdifferences⟩ := RangeWalk.turn_spec hturn
  have hle : walk.currentPosition.bytes ≤ walk'.currentPosition.bytes := by
    rw [hposition]
    exact le_min (h.old.le_next h.le_max hb) (h.new.le_next h.le_max hc)
  obtain ⟨hbmax, hbbehind, holdPassed⟩ := h.old.next hold hb hle
    (hposition ▸ min_le_left b c) (b ≤ c) fun hbc => by rw [hposition, min_eq_left hbc]
  obtain ⟨hcmax, hcbehind, hnewPassed⟩ := h.new.next hnew hc hle
    (hposition ▸ min_le_right b c) (c ≤ b) fun hcb => by rw [hposition, min_eq_right hcb]
  have hmax : walk'.currentPosition.bytes ≤ uint32Max := by
    rw [hposition]
    exact (min_le_left b c).trans hbmax
  -- Up to the new position each list stays as it was.
  have hbetween {p : Nat} (hp : walk.currentPosition.bytes ≤ p)
      (hlt : p < walk'.currentPosition.bytes) :
      (¬ (Inside (rangeBoundaries oldRanges) p ↔ Inside (rangeBoundaries newRanges) p)) ↔
        walk.inOldRange ≠ walk.inNewRange := by
    have hltb : p < b := hlt.trans_le (hposition ▸ min_le_left b c)
    have hltc : p < c := hlt.trans_le (hposition ▸ min_le_right b c)
    rw [h.old.inside_iff hbbehind hp hltb (hlt.trans_le hmax),
      h.new.inside_iff hcbehind hp hltc (hlt.trans_le hmax), RangeWalk.counts, odd_count_iff,
      odd_count_iff, ← Bool.eq_iff_iff]
  have hbefore (p : Nat) : p < walk'.currentPosition.bytes ↔
      p < walk.currentPosition.bytes ∨
        walk.currentPosition.bytes ≤ p ∧ p < walk'.currentPosition.bytes := by omega
  refine ⟨?_, ?_, hmax, ?_, fun {p} => ?_⟩
  · rw [hcounts]
    exact holdPassed
  · rw [hcounts]
    exact hnewPassed
  · rw [hdifferences, RangeWalk.addUpTo]
    split
    · exact (rangeArrayAdd_spec h.separate hle).1
    · exact h.separate.mono hle
  · rw [hdifferences, RangeWalk.addUpTo, hbefore, or_and_right, ← h.covers]
    split
    · next hne =>
      rw [(rangeArrayAdd_spec h.separate hle).2 p]
      refine or_congr_right ⟨fun hp => ⟨hp, (hbetween hp.1 hp.2).mpr hne⟩, fun hp => hp.1⟩
    · next heq =>
      exact (or_iff_left fun hp => heq ((hbetween hp.1.1 hp.1.2).mp hp.2)).symm

theorem RangeWalk.Passed.run (h : walk.Passed oldRanges newRanges)
    (hold : Boundaries uint32Max (rangeBoundaries oldRanges))
    (hnew : Boundaries uint32Max (rangeBoundaries newRanges)) {turns : Nat}
    (hrun : walk.run oldRanges newRanges turns = some walk') :
    walk'.Passed oldRanges newRanges := by
  induction turns generalizing walk with
  | zero =>
    cases hrun
    exact h
  | succ turns ih =>
    rw [RangeWalk.run] at hrun
    split at hrun
    · obtain ⟨next, hturn, hrun⟩ := Option.bind_eq_some_iff.mp hrun
      exact ih (h.turn hold hnew hturn) hrun
    · cases hrun
      exact h

end Walk

/-! ### The difference -/

/-- **The difference of two lists of ranges**: ranges that are not empty, are in order with gaps
between them, and have the positions that one of the lists has and the other has not. -/
def IsDifference (oldRanges newRanges differences : List TSRange) : Prop :=
  (∀ range ∈ differences, range.startByte < range.endByte) ∧
  differences.Pairwise (fun range next => range.endByte < next.startByte) ∧
  ∀ p, InRanges differences p ↔ ¬ (InRanges oldRanges p ↔ InRanges newRanges p)

theorem RangeWalk.Passed.isDifference {oldRanges newRanges : List TSRange} {walk : RangeWalk}
    (h : walk.Passed oldRanges newRanges) (hold : rangesInOrder 0 oldRanges = true)
    (hnew : rangesInOrder 0 newRanges = true)
    (holdEnd : (rangeBoundaries oldRanges).length ≤ walk.counts.1)
    (hnewEnd : (rangeBoundaries newRanges).length ≤ walk.counts.2) :
    IsDifference oldRanges newRanges walk.differences := by
  have houtside {ranges : List TSRange} {count p : Nat}
      (hpassed : PassedTo (rangeBoundaries ranges) count walk.currentPosition.bytes)
      (hcount : (rangeBoundaries ranges).length ≤ count) (hp : walk.currentPosition.bytes ≤ p) :
      ¬ Inside (rangeBoundaries ranges) p := by
    have hall : (rangeBoundaries ranges).countP (· ≤ p) = 2 * ranges.length := by
      rw [← rangeBoundaries_length]
      refine countP_eq_length.mpr fun b hb => decide_eq_true ((hpassed.before ?_).trans hp)
      rwa [take_of_length_le hcount]
    rw [Inside, hall, Nat.not_odd_iff_even]
    exact even_two_mul _
  refine ⟨fun range hrange => h.separate.nonempty hrange, h.separate.sorted, fun p => ?_⟩
  rw [h.covers, inRanges_iff_inside hold, inRanges_iff_inside hnew]
  refine ⟨fun hp => hp.2, fun hp => ⟨?_, hp⟩⟩
  by_contra hge
  rw [not_lt] at hge
  exact hp (iff_of_false (houtside h.old holdEnd hge) (houtside h.new hnewEnd hge))

/-- The number of boundaries at `UINT32_MAX`. -/
def boundariesAtMax (ranges : List TSRange) : Nat := (rangeBoundaries ranges).count uint32Max

/-- **When the difference is found.** For two lists of ranges that are in order, the loop ends and
yields their difference if and only if the numbers of their boundaries at `UINT32_MAX` differ by at
most one. Else it reads behind one of the lists. -/
theorem getChangedRanges_iff (oldRanges newRanges : List TSRange)
    (hold : rangesInOrder 0 oldRanges = true) (hnew : rangesInOrder 0 newRanges = true)
    (holdEnds : ∀ range ∈ oldRanges, range.endByte ≤ uint32Max)
    (hnewEnds : ∀ range ∈ newRanges, range.endByte ≤ uint32Max) :
    (∃ differences, getChangedRanges oldRanges newRanges = some differences ∧
      IsDifference oldRanges newRanges differences) ↔
    boundariesAtMax oldRanges ≤ boundariesAtMax newRanges + 1 ∧
      boundariesAtMax newRanges ≤ boundariesAtMax oldRanges + 1 := by
  have holdBounds := boundaries_of_inOrder hold holdEnds
  have hnewBounds := boundaries_of_inOrder hnew hnewEnds
  have hturns : (rangeBoundaries oldRanges).length + (rangeBoundaries newRanges).length ≤
      2 * (oldRanges.length + newRanges.length) := by
    rw [rangeBoundaries_length, rangeBoundaries_length]
    omega
  have hcounts := @RangeWalk.run_counts oldRanges newRanges
    (2 * (oldRanges.length + newRanges.length)) ⟨0, 0, .zero, false, false, []⟩
  have hloop : getChangedRanges oldRanges newRanges = _ := @RangeWalk.loop_eq_run oldRanges
    newRanges (2 * (oldRanges.length + newRanges.length)) ⟨0, 0, .zero, false, false, []⟩
  rw [show RangeWalk.counts ⟨0, 0, .zero, false, false, []⟩ = (0, 0) from rfl] at hcounts
  rw [boundariesAtMax, boundariesAtMax, ← mergeRun_isSome_iff holdBounds hnewBounds hturns,
    ← hcounts, Option.isSome_map, hloop]
  refine ⟨fun ⟨differences, hrun, _⟩ => ?_, fun hsome => ?_⟩
  · obtain ⟨walk, hwalk, -⟩ := Option.map_eq_some_iff.mp hrun
    rw [hwalk]
    rfl
  · obtain ⟨walk, hwalk⟩ := Option.isSome_iff_exists.mp hsome
    have hstart : RangeWalk.Passed oldRanges newRanges ⟨0, 0, .zero, false, false, []⟩ := by
      refine ⟨⟨fun hb => ?_, fun _ => Nat.zero_le _, .inl (Nat.zero_le _)⟩,
        ⟨fun hb => ?_, fun _ => Nat.zero_le _, .inl (Nat.zero_le _)⟩, Nat.zero_le _,
        ⟨fun hrange => absurd hrange not_mem_nil, .nil,
          fun hrange => absurd hrange not_mem_nil⟩, fun {p} => ?_⟩
      · exact absurd hb not_mem_nil
      · exact absurd hb not_mem_nil
      · refine iff_of_false (fun hcovered => ?_) fun hp => absurd hp.1 (Nat.not_lt_zero p)
        obtain ⟨range, hrange, -⟩ := hcovered
        exact absurd hrange not_mem_nil
    rw [hwalk] at hcounts
    obtain ⟨holdEnd, hnewEnd⟩ := mergeRun_end holdBounds hnewBounds hturns hcounts.symm
    have hpassed := hstart.run holdBounds hnewBounds hwalk
    refine ⟨walk.differences, ?_, hpassed.isDifference hold hnew holdEnd hnewEnd⟩
    rw [hwalk]
    rfl

def oneRange (startByte endByte : Nat) : List TSRange := [⟨startByte, endByte, .max, .max⟩]

theorem getChangedRanges_iff_oneRange :
    (∃ differences, getChangedRanges (oneRange 0 8) (oneRange 4 uint32Max) = some differences ∧
      IsDifference (oneRange 0 8) (oneRange 4 uint32Max) differences) ↔
    boundariesAtMax (oneRange 0 8) ≤ boundariesAtMax (oneRange 4 uint32Max) + 1 ∧
      boundariesAtMax (oneRange 4 uint32Max) ≤ boundariesAtMax (oneRange 0 8) + 1 :=
  getChangedRanges_iff _ _ (by decide) (by decide) (by decide) (by decide)

/-- **An empty range at the end.** With no range of the other list left, the loop takes that one for
a list that it is in, and reads behind it. -/
theorem not_isDifference_emptyAtMax : ∃ oldRanges newRanges : List TSRange,
    rangesInOrder 0 oldRanges = true ∧ rangesInOrder 0 newRanges = true ∧
    (∀ range ∈ oldRanges ++ newRanges, range.endByte ≤ uint32Max) ∧
    getChangedRanges oldRanges newRanges = none := by
  exact ⟨oneRange 0 8, oneRange 0 8 ++ oneRange uint32Max uint32Max, by decide, by decide,
    by decide, by decide⟩

/-- **What the search for a difference finds**: some byte from `startByte` to `endByte` is in a
range of one list only, if the ranges in front of `startIndex` end before. -/
theorem rangeArrayIntersects_iff {oldRanges newRanges differences : List TSRange}
    {startIndex startByte endByte : Nat} (h : IsDifference oldRanges newRanges differences)
    (hskipped : ∀ range ∈ differences.take startIndex, range.endByte ≤ startByte)
    (hlt : startByte < endByte) :
    rangeArrayIntersects differences startIndex startByte endByte = true ↔
      ∃ p, startByte ≤ p ∧ p < endByte ∧ ¬ (InRanges oldRanges p ↔ InRanges newRanges p) := by
  obtain ⟨hne, hsorted, hdiff⟩ := h
  rw [exists_congr fun p => and_congr_right' (and_congr_right' (hdiff p).symm)]
  simp only [rangeArrayIntersects, InRanges]
  rw [← take_append_drop startIndex differences] at hne hsorted
  conv_rhs => rw [← take_append_drop startIndex differences]
  cases hfind : (differences.drop startIndex).find? fun range => range.endByte > startByte with
  | none =>
    rw [find?_eq_none] at hfind
    grind
  | some range =>
    -- the ranges in front end before `startByte`, the ranges behind begin behind this one
    obtain ⟨hend, front, back, hsplit, hfront⟩ := find?_eq_some_iff_append.mp hfind
    rw [hsplit] at hne hsorted ⊢
    simp only [pairwise_append, pairwise_cons] at hsorted
    refine ⟨fun h => ⟨max startByte range.startByte, ?_⟩, ?_⟩
    · grind
    · grind

theorem rangeArrayIntersects_iff_oneRange :
    rangeArrayIntersects [⟨0, 4, .max, .max⟩, ⟨8, 12, .max, .max⟩] 1 5 9 = true ↔
      ∃ p, 5 ≤ p ∧ p < 9 ∧ ¬ (InRanges (oneRange 0 8) p ↔ InRanges (oneRange 4 12) p) :=
  rangeArrayIntersects_iff (by simp [IsDifference, InRanges, oneRange]; omega) (by decide)
    (by decide)

end TreeSitter.Lib
