import TreeSitter.Lib.Subtree.EditWellFormed

/-!
# TreeSitter.Lib.Subtree.EditMarks

**Reuse safety of editing**: a leaf that is not marked as changed was read from text that the
edit does not touch. Leaves are compared by their place in the tree: `leavesFrom` lists where
they were, and `leafMarks` which of them are marked.

The one exception are leaves of no width for which nothing was read ahead. Inside deleted text
they may be handed an edit that changes nothing, and are then left alone.
-/

namespace TreeSitter.Lib

open List

/-! ### Leaves -/

/-- Where a leaf is, and how far it and its lookahead go. -/
structure Leaf where
  start : Nat
  totalBytes : Nat
  lookaheadBytes : Nat

/-- The first byte behind the ones that were read to recognise the leaf. -/
def Leaf.endByte (leaf : Leaf) : Nat := leaf.start + leaf.totalBytes + leaf.lookaheadBytes

mutual

/-- The leaves of a tree at a position. -/
def Subtree.leavesFrom (left : Nat) : Subtree → List Leaf
  | .inline data => [⟨left, (Subtree.inline data).totalBytes, data.lookaheadBytes⟩]
  | .heap data [] => [⟨left, data.padding.bytes + data.size.bytes, data.lookaheadBytes⟩]
  | .heap _ (first :: rest) => first.leavesFrom left ++ leavesAllFrom (left + first.totalBytes) rest

/-- The leaves of some trees behind each other. -/
def leavesAllFrom (left : Nat) : List Subtree → List Leaf
  | [] => []
  | t :: ts => t.leavesFrom left ++ leavesAllFrom (left + t.totalBytes) ts

end

mutual

/-- Which leaves are marked as changed. -/
def Subtree.leafMarks : Subtree → List Bool
  | .inline data | .heap data [] => [data.hasChanges]
  | .heap _ (first :: rest) => first.leafMarks ++ leafMarksAll rest

/-- The marks of the leaves of some trees. -/
def leafMarksAll : List Subtree → List Bool
  | [] => []
  | t :: ts => t.leafMarks ++ leafMarksAll ts

end

mutual

/-- A node above a marked leaf is marked. -/
def Subtree.MarksAncestors : Subtree → Prop
  | .inline _ | .heap _ [] => True
  | .heap data (first :: rest) =>
    (true ∈ first.leafMarks ++ leafMarksAll rest → data.hasChanges = true) ∧
      first.MarksAncestors ∧ MarksAncestorsAll rest

/-- The same of all trees of a list. -/
def MarksAncestorsAll : List Subtree → Prop
  | [] => True
  | t :: ts => t.MarksAncestors ∧ MarksAncestorsAll ts

end

/-- An unmarked leaf ended before the edit, or began behind it, or is empty. -/
def ReuseSafe (start oldEnd : Nat) (leaf : Leaf) (marked : Bool) : Prop :=
  marked = false → leaf.endByte ≤ start ∨ oldEnd ≤ leaf.start ∨
    leaf.totalBytes = 0 ∧ leaf.lookaheadBytes = 0

mutual

theorem length_leafMarks : ∀ (t : Subtree) (left : Nat),
    (t.leavesFrom left).length = t.leafMarks.length
  | .inline _, _ | .heap _ [], _ => rfl
  | .heap _ (first :: rest), left => by
    rw [Subtree.leavesFrom, Subtree.leafMarks, length_append, length_append,
      length_leafMarks first, length_leafMarksAll rest]

theorem length_leafMarksAll : ∀ (ts : List Subtree) (left : Nat),
    (leavesAllFrom left ts).length = (leafMarksAll ts).length
  | [], _ => rfl
  | t :: ts, left => by
    rw [leavesAllFrom, leafMarksAll, length_append, length_append,
      length_leafMarks t, length_leafMarksAll ts]

end

mutual

/-- Leaves lie in their tree, and their lookahead in that of the tree. -/
theorem mem_leavesFrom : ∀ {t : Subtree} {left : Nat} {leaf : Leaf}, Covered t →
    leaf ∈ t.leavesFrom left → left ≤ leaf.start ∧ leaf.endByte ≤ left + t.endByte
  | .inline data, left, leaf, _, h | .heap data [], left, leaf, _, h => by
    rw [Subtree.leavesFrom, mem_singleton] at h
    subst h
    exact ⟨le_rfl, by rw [Leaf.endByte, Subtree.endByte, Nat.add_assoc]; rfl⟩
  | .heap data (first :: rest), left, leaf, ⟨hend, hfirst, hrest⟩, h => by
    rw [Subtree.leavesFrom, mem_append] at h
    rw [Nat.zero_add] at hend hrest
    have hlimit : data.padding.bytes + data.size.bytes + data.lookaheadBytes =
        (Subtree.heap data (first :: rest)).endByte := rfl
    rcases h with h | h
    · have hleaf := mem_leavesFrom hfirst h
      omega
    · have hleaf := mem_leavesAllFrom hrest h
      omega

theorem mem_leavesAllFrom : ∀ {ts : List Subtree} {limit left right : Nat} {leaf : Leaf},
    CoveredBy limit right ts → leaf ∈ leavesAllFrom (left + right) ts →
    left + right ≤ leaf.start ∧ leaf.endByte ≤ left + limit
  | [], _, _, _, _, _, h => by cases h
  | t :: ts, limit, left, right, leaf, ⟨hend, ht, hts⟩, h => by
    rw [leavesAllFrom, mem_append] at h
    rcases h with h | h
    · have hleaf := mem_leavesFrom ht h
      omega
    · rw [Nat.add_assoc] at h
      have hleaf := mem_leavesAllFrom hts h
      omega

end

theorem forall₂_reuseSafe {start oldEnd : Nat} {leaves : List Leaf} {marks : List Bool}
    (hlen : leaves.length = marks.length)
    (h : ∀ leaf ∈ leaves, leaf.endByte ≤ start ∨ oldEnd ≤ leaf.start ∨
      leaf.totalBytes = 0 ∧ leaf.lookaheadBytes = 0) :
    List.Forall₂ (ReuseSafe start oldEnd) leaves marks :=
  forall₂_iff_zip.mpr ⟨hlen, fun hmem _ => h _ (of_mem_zip hmem).1⟩

/-! ### What an edit is to a subtree -/

/-- How the edit a tree is visited with relates to the edit of the whole text, for a tree of
some bytes at the position `left`. -/
inductive Concerns (start oldEnd left total : Nat) (edit : Edit) : Prop
  /-- The edit in the coordinates of the tree. -/
  | real (hstart : edit.start.bytes = start - left) (hold : edit.oldEnd.bytes = oldEnd - left)
  /-- The tree ends before the edit, though its lookahead may not. -/
  | before (hnoop : edit.oldEnd.bytes = edit.start.bytes ∧ edit.newEnd.bytes = edit.start.bytes)
      (hstart : edit.start.bytes = start - left) (hle : left + total ≤ start)
  /-- The tree is empty, and may lie in deleted text. -/
  | empty (hnoop : edit.oldEnd.bytes = edit.start.bytes ∧ edit.newEnd.bytes = edit.start.bytes)
      (hstart : edit.start.bytes = 0) (htotal : total = 0)

namespace Concerns

variable {start oldEnd left total : Nat} {edit : Edit} {childLeft : Length} {child : Subtree}

section

variable (h : Concerns start oldEnd left total edit)

include h

theorem withoutInsertion : Concerns start oldEnd left total edit.withoutInsertion := by
  cases h with
  | real hstart hold => exact .real hstart hold
  | before hnoop hstart hle => exact .before ⟨hnoop.1, rfl⟩ hstart hle
  | empty hnoop hstart htotal => exact .empty ⟨hnoop.1, rfl⟩ hstart htotal

theorem shift (hle : childLeft.bytes + child.totalBytes ≤ total) :
    Concerns start oldEnd (left + childLeft.bytes) child.totalBytes (edit.shift childLeft) := by
  cases h with
  | real hstart hold =>
    refine .real ?_ ?_ <;> rw [Edit.shift, Length.saturatingSub_bytes] <;> omega
  | before hnoop hstart hbefore =>
    refine .before ?_ ?_ (by omega)
    · simp only [Edit.shift, Length.saturatingSub_bytes, hnoop, and_self]
    · rw [Edit.shift, Length.saturatingSub_bytes]
      omega
  | empty hnoop hstart htotal =>
    refine .empty ?_ ?_ (by omega)
    · simp only [Edit.shift, Length.saturatingSub_bytes, hnoop, and_self]
    · rw [Edit.shift, Length.saturatingSub_bytes]
      omega

/-- A child that does not touch the edit ends before it, or is empty: the start of the edit
is cut off at the start of the parent, so an empty child there seems to end before it. -/
theorem atStart (hle : childLeft.bytes + child.totalBytes ≤ total)
    (hbefore : childLeft.bytes + child.totalBytes ≤ edit.start.bytes) :
    Concerns start oldEnd (left + childLeft.bytes) child.totalBytes
      (edit.shift childLeft).atStart := by
  have hbytes : (edit.shift childLeft).atStart.start.bytes = edit.start.bytes - childLeft.bytes :=
    Length.saturatingSub_bytes _ _
  cases h with
  | real hstart hold =>
    by_cases hleft : left ≤ start
    · exact .before ⟨rfl, rfl⟩ (by omega) (by omega)
    · exact .empty ⟨rfl, rfl⟩ (by omega) (by omega)
  | before hnoop hstart hle => exact .before ⟨rfl, rfl⟩ (by omega) (by omega)
  | empty hnoop hstart htotal => exact .empty ⟨rfl, rfl⟩ (by omega) (by omega)

/-- The leaves of a tree that ends, with its lookahead, before the start of the edit. -/
theorem leaf_before {right : Nat} {leaf : Leaf}
    (hright : right ≤ edit.start.bytes) (hleaf : left ≤ leaf.start ∧ leaf.endByte ≤ left + right) :
    leaf.endByte ≤ start ∨ oldEnd ≤ leaf.start ∨
      leaf.totalBytes = 0 ∧ leaf.lookaheadBytes = 0 := by
  have hend : leaf.endByte = leaf.start + leaf.totalBytes + leaf.lookaheadBytes := rfl
  cases h with
  | real hstart hold | before hnoop hstart hle | empty hnoop hstart htotal => omega

theorem leaf_behind {right bytes : Nat} {leaf : Leaf} (hle : right + bytes ≤ total)
    (hstop : edit.oldEnd.bytes < right ∨ right = edit.oldEnd.bytes ∧ 0 < bytes)
    (hleaf : left + right ≤ leaf.start) : oldEnd ≤ leaf.start := by
  cases h with
  | real hstart hold | before hnoop hstart hle | empty hnoop hstart htotal => omega

end

end Concerns

/-! ### The loop over the children -/

/-- Editing a tree leaves no leaf unmarked that the edit concerns. -/
def EditsSafely (t : Subtree) : Prop :=
  ∀ (start oldEnd left : Nat) (edit : Edit), t.SumsBytes → Covered t → t.endByte < 2 ^ 32 →
    Concerns start oldEnd left t.totalBytes edit →
    List.Forall₂ (ReuseSafe start oldEnd) (t.leavesFrom left) (editTree edit t).leafMarks

theorem run_reuseSafe (loop : ChildLoop) {limit start oldEnd left total : Nat}
    (hlimit : limit < 2 ^ 32) (cs : List Subtree) : (∀ c ∈ cs, EditsSafely c) →
    ∀ {i : Nat} {childLeft : Length} {edit : Edit}, SumsBytesAll cs →
      CoveredBy limit childLeft.bytes cs → childLeft.bytes + bytesOfAll cs = total →
      Concerns start oldEnd left total edit →
      List.Forall₂ (ReuseSafe start oldEnd) (leavesAllFrom (left + childLeft.bytes) cs)
        (leafMarksAll (editTrees (loop.run i childLeft edit cs) cs)) := by
  induction cs with
  | nil =>
    intro _ i childLeft edit _ _ _ _
    rw [ChildLoop.run, editTrees]
    exact .nil
  | cons c cs ih =>
    intro hcs i childLeft edit hsums hcovered htotal hedit
    have hwhole := hcovered
    obtain ⟨hend, hcovered_c, hcovered_cs⟩ := hcovered
    have hcs' : ∀ c ∈ cs, EditsSafely c := fun s hs => hcs s (mem_cons_of_mem c hs)
    have hendByte : c.endByte = c.totalBytes + c.lookaheadBytes := rfl
    have hsize : c.totalSize.bytes = c.totalBytes := Subtree.totalSize_bytes (by omega)
    have hright : (childLeft.add c.totalSize).bytes = childLeft.bytes + c.totalBytes := by
      rw [Length.add_bytes (by omega), hsize]
    have hsum : bytesOfAll (c :: cs) = c.totalBytes + bytesOfAll cs := by simp [bytesOfAll]
    have hrest : ∀ {edit : Edit}, Concerns start oldEnd left total edit →
        List.Forall₂ (ReuseSafe start oldEnd)
          (leavesAllFrom (left + childLeft.bytes + c.totalBytes) cs)
          (leafMarksAll (editTrees (loop.run (i + 1) (childLeft.add c.totalSize) edit cs) cs)) := by
      intro edit hedit
      rw [Nat.add_assoc, ← hright]
      exact ih hcs' hsums.2 (hright ▸ hcovered_cs) (by omega) hedit
    rw [ChildLoop.run]
    simp only [hright, addU32_of_lt (show childLeft.bytes + c.totalBytes + c.lookaheadBytes <
      2 ^ 32 by omega)]
    by_cases hskip : childLeft.bytes + c.totalBytes + c.lookaheadBytes < edit.start.bytes
    · rw [if_pos hskip, editTrees]
      refine rel_append (forall₂_reuseSafe (length_leafMarks c _) fun leaf hleaf => ?_)
        (hrest hedit)
      have hbounds := mem_leavesFrom hcovered_c hleaf
      exact hedit.leaf_before hskip.le ⟨by omega, by omega⟩
    rw [if_neg hskip]
    by_cases hstop : loop.stops edit i childLeft c = true
    · rw [if_pos hstop, editTrees, editTrees_map_none]
      simp only [ChildLoop.stops, Bool.and_eq_true, Bool.or_eq_true, decide_eq_true_eq,
        beq_iff_eq, hsize] at hstop
      refine forall₂_reuseSafe (length_leafMarksAll (c :: cs) _) fun leaf hleaf => ?_
      have hbounds := mem_leavesAllFrom hwhole hleaf
      have hle : childLeft.bytes + c.totalBytes ≤ total := by omega
      exact Or.inr (Or.inl (hedit.leaf_behind hle (by omega) hbounds.1))
    rw [if_neg hstop]
    by_cases htouch : childLeft.bytes + c.totalBytes > edit.start.bytes ∨
        childLeft.bytes + c.totalBytes = edit.start.bytes ∧ loop.isPureInsertion = true
    · rw [if_pos htouch, editTrees]
      exact rel_append
        (hcs c mem_cons_self _ _ _ _ hsums.1 hcovered_c (by omega) (hedit.shift (by omega)))
        (hrest hedit.withoutInsertion)
    · rw [if_neg htouch, editTrees]
      exact rel_append
        (hcs c mem_cons_self _ _ _ _ hsums.1 hcovered_c (by omega)
          (hedit.atStart (by omega) (by omega)))
        (hrest hedit)

/-! ### Whole trees -/

theorem reuseSafe_of_misses {start oldEnd left : Nat} {edit : Edit} {t : Subtree}
    (hcovered : Covered t) (hlt : t.endByte < 2 ^ 32)
    (hedit : Concerns start oldEnd left t.totalBytes edit) (h : edit.misses t = true) :
    List.Forall₂ (ReuseSafe start oldEnd) (t.leavesFrom left) (editTree edit t).leafMarks := by
  rw [editTree_of_misses h]
  rw [misses_iff hlt] at h
  refine forall₂_reuseSafe (length_leafMarks t left) fun leaf hleaf => ?_
  exact hedit.leaf_before (by omega) (mem_leavesFrom hcovered hleaf)

theorem leafMarks_setLengths (data : InlineData) (padding size : Length) :
    (data.setLengths padding size).leafMarks = [true] := by
  rw [InlineData.setLengths]
  split <;> rfl

theorem editTrees_ne_nil (edits : List (Option Edit)) (t : Subtree) (ts : List Subtree) :
    editTrees edits (t :: ts) ≠ [] := by
  match edits with
  | [] | none :: _ | some _ :: _ => simp [editTrees]

theorem leafMarks_heap (data : HeapData) {children : List Subtree} (h : children ≠ []) :
    (Subtree.heap data children).leafMarks = leafMarksAll children := by
  cases children with
  | nil => exact absurd rfl h
  | cons first rest => rfl

mutual

theorem editTree_reuseSafe : ∀ t : Subtree, EditsSafely t
  | .inline data => by
    intro start oldEnd left edit _ hcovered hlt hedit
    by_cases hmiss : edit.misses (.inline data) = true
    · exact reuseSafe_of_misses hcovered hlt hedit hmiss
    · rw [editTree, if_neg hmiss, leafMarks_setLengths]
      exact .cons (fun h => by cases h) .nil
  | .heap data [] => by
    intro start oldEnd left edit _ hcovered hlt hedit
    by_cases hmiss : edit.misses (.heap data []) = true
    · exact reuseSafe_of_misses hcovered hlt hedit hmiss
    · rw [editTree, if_neg hmiss]
      exact .cons (fun h => by cases h) .nil
  | .heap data (first :: rest) => by
    intro start oldEnd left edit hsums hcovered hlt hedit
    by_cases hmiss : edit.misses (.heap data (first :: rest)) = true
    · exact reuseSafe_of_misses hcovered hlt hedit hmiss
    · have hlimit : CoveredBy (Subtree.heap data (first :: rest)).endByte Length.zero.bytes
          (first :: rest) := hcovered
      have htotal : Length.zero.bytes + bytesOfAll (first :: rest) =
          (Subtree.heap data (first :: rest)).totalBytes :=
        (Nat.zero_add _).trans hsums.2.1.symm
      have hchildren := run_reuseSafe ((Subtree.heap data (first :: rest)).childLoop edit) (i := 0)
        hlt (first :: rest) (editTree_reuseSafeAll (first :: rest)) hsums.2.2 hlimit htotal hedit
      rw [editTree, if_neg hmiss, leafMarks_heap _ (editTrees_ne_nil _ first rest)]
      exact hchildren

theorem editTree_reuseSafeAll : ∀ (ts : List Subtree), ∀ t ∈ ts, EditsSafely t
  | [], _, h => by cases h
  | t :: ts, s, h => by
    rcases mem_cons.mp h with heq | h
    · exact heq ▸ editTree_reuseSafe t
    · exact editTree_reuseSafeAll ts s h

end

/-! ### Ancestors -/

mutual

/-- A visited node is marked before its children are, so marks stay closed upwards. -/
theorem editTree_marksAncestors : ∀ {t : Subtree} (edit : Edit), t.MarksAncestors →
    (editTree edit t).MarksAncestors
  | .inline data, edit, _ => by
    rw [editTree]
    split
    · trivial
    · rw [InlineData.setLengths]
      split <;> trivial
  | .heap data children, edit, h => by
    rw [editTree]
    split
    · exact h
    · have hall : MarksAncestorsAll children := by
        match children, h with
        | [], _ => trivial
        | _ :: _, h => exact h.2
      have hedited := editTrees_marksAncestors ((Subtree.heap data children).childEdits edit) hall
      match editTrees ((Subtree.heap data children).childEdits edit) children, hedited with
      | [], _ => trivial
      | _ :: _, hedited => exact ⟨fun _ => rfl, hedited⟩

theorem editTrees_marksAncestors : ∀ {ts : List Subtree} (edits : List (Option Edit)),
    MarksAncestorsAll ts → MarksAncestorsAll (editTrees edits ts)
  | ts, [], h => by
    rw [editTrees]
    exact h
  | [], _ :: _, _ => by
    simp only [editTrees]
    trivial
  | t :: ts, none :: edits, h => by
    rw [editTrees]
    exact ⟨h.1, editTrees_marksAncestors edits h.2⟩
  | t :: ts, some edit :: edits, h => by
    rw [editTrees]
    exact ⟨editTree_marksAncestors edit h.1, editTrees_marksAncestors edits h.2⟩

end

/-- **Reuse safety of editing.** After an edit in range of a well-formed tree, every leaf that
is not marked ended, with its lookahead, at or before the start of the edit, or began at or
after its old end, or is empty and read nothing ahead; and if every ancestor of a marked leaf
was marked, it still is. -/
theorem subtreeEdit_reuseSafe {t : Subtree} (hwf : t.WellFormed) {edit : Edit}
    (h : edit.InRange t) :
    ∃ t', subtreeEdit t edit = some t' ∧
      List.Forall₂ (ReuseSafe edit.start.bytes edit.oldEnd.bytes) (t.leavesFrom 0) t'.leafMarks ∧
      (t.MarksAncestors → t'.MarksAncestors) :=
  ⟨editTree edit t, subtreeEdit_eq t edit,
    editTree_reuseSafe t _ _ 0 edit (hwf.spans.sumsBytes measures_bytesOf) hwf.covered h.tree_lt
      (.real rfl rfl), editTree_marksAncestors edit⟩

/-- Deleting the second of two tokens leaves the first one unmarked. -/
theorem subtreeEdit_reuseSafe_tokens :
    (lineNode 0 7 0 [leafOf 0 2 0, leafOf 0 5 0]).WellFormed ∧
      (Edit.ofText [97, 97] [98, 98, 98, 98, 98] []).InRange
        (lineNode 0 7 0 [leafOf 0 2 0, leafOf 0 5 0]) ∧
      ∃ t', subtreeEdit (lineNode 0 7 0 [leafOf 0 2 0, leafOf 0 5 0])
          (Edit.ofText [97, 97] [98, 98, 98, 98, 98] []) = some t' ∧
        List.Forall₂ (ReuseSafe 2 7) [⟨0, 2, 0⟩, ⟨2, 5, 0⟩] t'.leafMarks ∧
        t'.MarksAncestors := by
  have hwf : (lineNode 0 7 0 [leafOf 0 2 0, leafOf 0 5 0]).WellFormed :=
    ⟨⟨rfl, rfl, rfl⟩, trivial, trivial, trivial⟩
  have hrange : (Edit.ofText [97, 97] [98, 98, 98, 98, 98] []).InRange
      (lineNode 0 7 0 [leafOf 0 2 0, leafOf 0 5 0]) :=
    ⟨by decide, by decide, by decide, by decide, by decide⟩
  obtain ⟨t', hedit, hsafe, hmarks⟩ := subtreeEdit_reuseSafe hwf hrange
  exact ⟨hwf, hrange, t', hedit, hsafe, hmarks ⟨by decide, trivial, trivial, trivial⟩⟩

/-- An empty leaf at the start of a node that lies in deleted text is not marked, though it
neither ended before the edit nor began behind it; and where a leaf was marked without its
parent, an edit that does not concern them leaves it so. -/
theorem subtreeEdit_not_reuseSafe :
    ((lineNode 0 3 0 [leafOf 0 1 0, lineNode 0 2 0 [leafOf 0 0 0, leafOf 0 2 0]]).WellFormed ∧
      (Edit.ofText [] [97, 97, 97] []).InRange
        (lineNode 0 3 0 [leafOf 0 1 0, lineNode 0 2 0 [leafOf 0 0 0, leafOf 0 2 0]]) ∧
      ∃ t', subtreeEdit (lineNode 0 3 0 [leafOf 0 1 0, lineNode 0 2 0 [leafOf 0 0 0, leafOf 0 2 0]])
          (Edit.ofText [] [97, 97, 97] []) = some t' ∧
        (lineNode 0 3 0 [leafOf 0 1 0, lineNode 0 2 0 [leafOf 0 0 0, leafOf 0 2 0]]).leavesFrom 0 =
          [⟨0, 1, 0⟩, ⟨1, 0, 0⟩, ⟨1, 2, 0⟩] ∧ t'.leafMarks = [true, false, true]) ∧
    ((lineNode 0 1 0 [.inline ⟨1, 0, 0, 0, 1, 0, true⟩]).WellFormed ∧
      (Edit.ofText [97] [] []).InRange (lineNode 0 1 0 [.inline ⟨1, 0, 0, 0, 1, 0, true⟩]) ∧
      ∃ t', subtreeEdit (lineNode 0 1 0 [.inline ⟨1, 0, 0, 0, 1, 0, true⟩])
          (Edit.ofText [97] [] []) = some t' ∧ ¬ t'.MarksAncestors) := by
  refine ⟨⟨⟨⟨rfl, rfl, rfl⟩, trivial, ⟨⟨rfl, rfl, rfl⟩, trivial, trivial, trivial⟩, trivial⟩,
    ⟨by decide, by decide, by decide, by decide, by decide⟩, _, subtreeEdit_eq _ _, rfl, rfl⟩,
    ⟨⟨rfl, rfl, rfl⟩, trivial, trivial⟩,
    ⟨by decide, by decide, by decide, by decide, by decide⟩, _, subtreeEdit_eq _ _, ?_⟩
  intro hmarks
  have hroot : false = true := hmarks.1 (mem_cons_self)
  cases hroot

end TreeSitter.Lib
