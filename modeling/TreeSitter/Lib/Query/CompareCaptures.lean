import TreeSitter.Lib.Query.Advance

/-!
# TreeSitter.Lib.Query.CompareCaptures

What `ts_query_cursor__compare_captures` finds out. The loop walks two lists of captures at once
and passes over the capture whose node `compare_nodes` puts first. It takes the captures of one
list from the other **in order** (`TakenInOrder`): what it passes over in front of a capture has
to be put before it. A capture of the same node under another index is not, nor one of a node
with the same extent, nor one of an empty node where the other starts; so the loop may miss
captures that are there (`compareCaptures_exact_iff`).
-/

namespace TreeSitter.Lib

open List

namespace TSQueryCapture

def pair (capture : TSQueryCapture) : Nat × Nat := (capture.node.id, capture.index)

end TSQueryCapture

open TSQueryCursor

/-- The first node starts earlier, or they start together and it ends later. -/
theorem compareNodes_eq_lt {left right : QueryNode} : compareNodes left right = .lt ↔
    left.id ≠ right.id ∧ (left.range.startByte < right.range.startByte ∨
      left.range.startByte = right.range.startByte ∧ right.range.endByte < left.range.endByte) := by
  unfold compareNodes
  split_ifs <;> simp <;> omega

theorem compareNodes_eq_gt {left right : QueryNode} :
    compareNodes left right = .gt ↔ compareNodes right left = .lt := by
  rw [compareNodes_eq_lt]
  unfold compareNodes
  split_ifs <;> simp <;> omega

/-- **Captures taken from a list in order**, where `compare_nodes` puts what is passed over in
front of each of them before it. -/
def TakenInOrder : List TSQueryCapture → List TSQueryCapture → Prop
  | _, [] => True
  | lefts, right :: rights => ∃ passed left rest, lefts = passed ++ left :: rest ∧
      left.pair = right.pair ∧ (∀ l ∈ passed, compareNodes l.node right.node = .lt) ∧
      TakenInOrder rest rights

/-- All captures of one list occur in another, as often. -/
def ContainsCaptures (lefts rights : List TSQueryCapture) : Prop :=
  (rights.map TSQueryCapture.pair).Subperm (lefts.map TSQueryCapture.pair)

theorem ne_of_compareNodes_eq_lt {left right : TSQueryCapture}
    (h : compareNodes left.node right.node = .lt) : left.pair ≠ right.pair := by
  intro heq
  exact (compareNodes_eq_lt.mp h).1 (Prod.mk.inj heq).1

section Taken

variable {left right : TSQueryCapture} {lefts rights : List TSQueryCapture}

theorem takenInOrder_cons_of_eq (h : left.pair = right.pair) :
    TakenInOrder (left :: lefts) (right :: rights) ↔ TakenInOrder lefts rights := by
  constructor
  · rintro ⟨passed, l, rest, heq, -, hpassed, htaken⟩
    cases passed with
    | nil =>
      cases heq
      exact htaken
    | cons p passed =>
      cases heq
      exact absurd h (ne_of_compareNodes_eq_lt (hpassed _ mem_cons_self))
  · exact fun htaken => ⟨[], left, lefts, rfl, h, by simp, htaken⟩

theorem takenInOrder_cons_of_lt (h : compareNodes left.node right.node = .lt) :
    TakenInOrder (left :: lefts) (right :: rights) ↔ TakenInOrder lefts (right :: rights) := by
  constructor
  · rintro ⟨passed, l, rest, heq, hpair, hpassed, htaken⟩
    cases passed with
    | nil =>
      cases heq
      exact absurd hpair (ne_of_compareNodes_eq_lt h)
    | cons p passed =>
      cases heq
      exact ⟨passed, l, rest, rfl, hpair, fun l hl => hpassed l (mem_cons_of_mem _ hl), htaken⟩
  · rintro ⟨passed, l, rest, rfl, hpair, hpassed, htaken⟩
    exact ⟨left :: passed, l, rest, rfl, hpair, forall_mem_cons.mpr ⟨h, hpassed⟩, htaken⟩

theorem not_takenInOrder_cons (hne : left.pair ≠ right.pair)
    (h : compareNodes left.node right.node ≠ .lt) :
    ¬ TakenInOrder (left :: lefts) (right :: rights) := by
  rintro ⟨passed, l, rest, heq, hpair, hpassed, -⟩
  cases passed with
  | nil =>
    cases heq
    exact hne hpair
  | cons p passed =>
    cases heq
    exact h (hpassed _ mem_cons_self)

theorem TakenInOrder.containsCaptures (h : TakenInOrder lefts rights) :
    ContainsCaptures lefts rights := by
  refine List.Sublist.subperm ?_
  induction rights generalizing lefts with
  | nil => exact nil_sublist _
  | cons right rights ih =>
    obtain ⟨passed, l, rest, rfl, hpair, -, htaken⟩ := h
    rw [map_append, map_cons, map_cons, hpair]
    exact ((ih htaken).cons_cons _).trans (sublist_append_right ..)

end Taken

/-- **What the loop finds**: either list contains the other if its captures can be taken from it
in order. -/
theorem compareCaptures_eq (lefts rights : List TSQueryCapture) :
    ((compareCaptures lefts rights).1 = true ↔ TakenInOrder lefts rights) ∧
      ((compareCaptures lefts rights).2 = true ↔ TakenInOrder rights lefts) := by
  induction lefts, rights using compareCaptures.induct with
  | case1 | case2 left lefts | case3 right rights => simp [compareCaptures, TakenInOrder]
  | case4 left lefts right rights heq ih =>
    have hpair : left.pair = right.pair := Prod.ext heq.1 heq.2
    rw [compareCaptures, if_pos heq, takenInOrder_cons_of_eq hpair,
      takenInOrder_cons_of_eq hpair.symm]
    exact ih
  | case5 left lefts right rights hne hlt ih =>
    have hpair : left.pair ≠ right.pair := fun h => hne (Prod.mk.inj h)
    rw [compareCaptures, if_neg hne, hlt, takenInOrder_cons_of_lt hlt]
    have hnot : compareNodes right.node left.node ≠ .lt := by
      rw [ne_eq, ← compareNodes_eq_gt, hlt]
      decide
    exact ⟨ih.1, iff_of_false Bool.false_ne_true (not_takenInOrder_cons hpair.symm hnot)⟩
  | case6 left lefts right rights hne hgt ih =>
    have hpair : left.pair ≠ right.pair := fun h => hne (Prod.mk.inj h)
    rw [compareCaptures, if_neg hne, hgt, takenInOrder_cons_of_lt (compareNodes_eq_gt.mp hgt)]
    exact ⟨iff_of_false Bool.false_ne_true (not_takenInOrder_cons hpair (by simp [hgt])), ih.2⟩
  | case7 left lefts right rights hne heq =>
    have hpair : left.pair ≠ right.pair := fun h => hne (Prod.mk.inj h)
    have hnot : compareNodes right.node left.node ≠ .lt := by
      rw [ne_eq, ← compareNodes_eq_gt, heq]
      decide
    rw [compareCaptures, if_neg hne, heq]
    exact ⟨iff_of_false Bool.false_ne_true (not_takenInOrder_cons hpair (by simp [heq])),
      iff_of_false Bool.false_ne_true (not_takenInOrder_cons hpair.symm hnot)⟩

theorem containsCaptures_of_compareCaptures {lefts rights : List TSQueryCapture} :
    ((compareCaptures lefts rights).1 = true → ContainsCaptures lefts rights) ∧
      ((compareCaptures lefts rights).2 = true → ContainsCaptures rights lefts) :=
  ⟨fun h => ((compareCaptures_eq lefts rights).1.mp h).containsCaptures,
    fun h => ((compareCaptures_eq lefts rights).2.mp h).containsCaptures⟩

/-- **The loop tells which list contains the other exactly if captures that are contained can be
taken in order.** -/
theorem compareCaptures_exact_iff (lefts rights : List TSQueryCapture) :
    (((compareCaptures lefts rights).1 = true ↔ ContainsCaptures lefts rights) ∧
      ((compareCaptures lefts rights).2 = true ↔ ContainsCaptures rights lefts)) ↔
    (ContainsCaptures lefts rights → TakenInOrder lefts rights) ∧
      (ContainsCaptures rights lefts → TakenInOrder rights lefts) := by
  rw [(compareCaptures_eq lefts rights).1, (compareCaptures_eq lefts rights).2]
  exact and_congr ⟨fun h => h.mpr, fun h => ⟨TakenInOrder.containsCaptures, h⟩⟩
    ⟨fun h => h.mpr, fun h => ⟨TakenInOrder.containsCaptures, h⟩⟩

def firstLineNode (id startByte endByte : Nat) : QueryNode :=
  ⟨id, ⟨startByte, endByte, ⟨0, startByte⟩, ⟨0, endByte⟩⟩⟩

/-- A node captured twice, a parent and its only child, and an empty node in front of another:
the loop does not find the second capture. -/
theorem not_exact_compareCaptures :
    (ContainsCaptures [⟨firstLineNode 1 0 1, 0⟩, ⟨firstLineNode 1 0 1, 1⟩] [⟨firstLineNode 1 0 1, 1⟩] ∧
      compareCaptures [⟨firstLineNode 1 0 1, 0⟩, ⟨firstLineNode 1 0 1, 1⟩] [⟨firstLineNode 1 0 1, 1⟩] =
        (false, false)) ∧
    (ContainsCaptures [⟨firstLineNode 1 0 1, 0⟩, ⟨firstLineNode 2 0 1, 1⟩] [⟨firstLineNode 2 0 1, 1⟩] ∧
      compareCaptures [⟨firstLineNode 1 0 1, 0⟩, ⟨firstLineNode 2 0 1, 1⟩] [⟨firstLineNode 2 0 1, 1⟩] =
        (false, false)) ∧
    ContainsCaptures [⟨firstLineNode 1 0 0, 0⟩, ⟨firstLineNode 2 0 1, 1⟩] [⟨firstLineNode 2 0 1, 1⟩] ∧
      compareCaptures [⟨firstLineNode 1 0 0, 0⟩, ⟨firstLineNode 2 0 1, 1⟩] [⟨firstLineNode 2 0 1, 1⟩] =
        (false, false) := by
  have hlast : ∀ a b : TSQueryCapture, ContainsCaptures [a, b] [b] :=
    fun a b => List.Sublist.subperm ((List.Sublist.refl _).cons _)
  refine ⟨⟨hlast _ _, ?_⟩, ⟨hlast _ _, ?_⟩, hlast _ _, ?_⟩ <;>
    simp [compareCaptures, compareNodes, firstLineNode]

end TreeSitter.Lib
