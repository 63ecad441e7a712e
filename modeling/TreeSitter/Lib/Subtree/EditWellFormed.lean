import TreeSitter.Lib.Subtree.EditSpans

/-!
# TreeSitter.Lib.Subtree.EditWellFormed

**What editing keeps of well-formedness.** The edited tree has the shape and the symbols of the
tree, its inner nodes add up in bytes, and in rows and columns too if the points of the tree
and of the edit are those of a text. The lookahead of an inner node is not computed again, and
need not summarise that of the children any more.
-/

namespace TreeSitter.Lib

open List

variable {β : Type} {R : Length → List β → Prop}

/-! ### Well-formed trees -/

theorem coveredBy_of_lookaheadEnd {limit : Nat} : ∀ (ts : List Subtree) (left : Nat),
    lookaheadEnd left ts ≤ limit → (∀ t ∈ ts, Covered t) → CoveredBy limit left ts
  | [], _, _, _ => trivial
  | t :: ts, left, h, hts => by
    rw [lookaheadEnd, max_le_iff] at h
    exact ⟨h.1, hts t mem_cons_self,
      coveredBy_of_lookaheadEnd ts _ h.2 fun s hs => hts s (mem_cons_of_mem t hs)⟩

mutual

theorem Subtree.WellFormed.covered : ∀ {t : Subtree}, t.WellFormed → Covered t
  | .inline _, _ | .heap _ [], _ => trivial
  | .heap data (first :: rest), ⟨hsum, hfirst, hrest⟩ => by
    refine coveredBy_of_lookaheadEnd (first :: rest) 0 hsum.lookahead.ge fun t ht => ?_
    rcases mem_cons.mp ht with heq | ht
    · exact heq ▸ Subtree.WellFormed.covered hfirst
    · exact WellFormedAll.covered hrest t ht

theorem WellFormedAll.covered : ∀ {ts : List Subtree}, WellFormedAll ts → ∀ t ∈ ts, Covered t
  | [], _, _, ht => by cases ht
  | t :: ts, ⟨h, hs⟩, s, hmem => by
    rcases mem_cons.mp hmem with heq | hmem
    · exact heq ▸ Subtree.WellFormed.covered h
    · exact WellFormedAll.covered hs s hmem

end

theorem readsAs_bytesOf (padding size : Length) :
    ReadsAs bytesOf padding size (List.replicate (padding.bytes + size.bytes) ()) :=
  ⟨List.replicate padding.bytes (), List.replicate size.bytes (), replicate_add ..,
    (length_replicate ..).symm, (length_replicate ..).symm⟩

mutual

theorem Subtree.WellFormed.spans : ∀ {t : Subtree}, t.WellFormed →
    Spans bytesOf t (List.replicate t.totalBytes ())
  | .inline _, _ | .heap _ [], _ => readsAs_bytesOf _ _
  | .heap data (first :: rest), ⟨hsum, hfirst, hrest⟩ => by
    refine ⟨readsAs_bytesOf _ _, by rw [hsum.padding], List.replicate first.totalBytes (),
      List.replicate (bytesOfAll rest) (), ?_, Subtree.WellFormed.spans hfirst,
      WellFormedAll.spans hrest⟩
    have hbytes := hsum.bytes
    rw [bytesOfAll, map_cons, sum_cons] at hbytes
    rw [replicate_append_replicate]
    exact congrArg (List.replicate · ()) hbytes

theorem WellFormedAll.spans : ∀ {ts : List Subtree}, WellFormedAll ts →
    SpansAll bytesOf ts (List.replicate (bytesOfAll ts) ())
  | [], _ => rfl
  | t :: ts, ⟨h, hs⟩ => by
    refine ⟨List.replicate t.totalBytes (), List.replicate (bytesOfAll ts) (), ?_,
      Subtree.WellFormed.spans h, WellFormedAll.spans hs⟩
    rw [replicate_append_replicate, bytesOfAll, map_cons, sum_cons]
    rfl

end

mutual

/-- Every inner node has the bytes of its children, and the padding bytes of the first. -/
def Subtree.SumsBytes : Subtree → Prop
  | .inline _ | .heap _ [] => True
  | .heap data (first :: rest) =>
    data.padding.bytes = first.padding.bytes ∧
      data.padding.bytes + data.size.bytes = bytesOfAll (first :: rest) ∧
      first.SumsBytes ∧ SumsBytesAll rest

/-- The same of all trees of a list. -/
def SumsBytesAll : List Subtree → Prop
  | [] => True
  | t :: ts => t.SumsBytes ∧ SumsBytesAll ts

end

mutual

/-- Every inner node has the padding of its first child, with its rows and columns. -/
def Subtree.SharesPadding : Subtree → Prop
  | .inline _ | .heap _ [] => True
  | .heap data (first :: rest) =>
    data.padding = first.padding ∧ first.SharesPadding ∧ SharesPaddingAll rest

/-- The same of all trees of a list. -/
def SharesPaddingAll : List Subtree → Prop
  | [] => True
  | t :: ts => t.SharesPadding ∧ SharesPaddingAll ts

end

mutual

theorem Spans.sumsBytes (hR : Measures R) : ∀ {t : Subtree} {T : List β}, Spans R t T →
    t.SumsBytes
  | .inline _, _, _ | .heap _ [], _, _ => trivial
  | .heap data (first :: rest), T, h => by
    have htotal := h.totalBytes hR
    obtain ⟨-, hpadding, U, V, rfl, hU, hV⟩ := h
    refine ⟨hpadding, ?_, hU.sumsBytes hR, (SpansAll.sumsBytes hR hV).1⟩
    rw [Subtree.totalBytes] at htotal
    rw [bytesOfAll, map_cons, sum_cons, hU.totalBytes hR,
      ← bytesOfAll, (SpansAll.sumsBytes hR hV).2, ← length_append]
    exact htotal

theorem SpansAll.sumsBytes (hR : Measures R) : ∀ {ts : List Subtree} {T : List β},
    SpansAll R ts T → SumsBytesAll ts ∧ bytesOfAll ts = T.length
  | [], _, h => ⟨trivial, by rw [h]; rfl⟩
  | t :: ts, _, h => by
    obtain ⟨U, V, rfl, hU, hV⟩ := h
    obtain ⟨hs, hbytes⟩ := SpansAll.sumsBytes hR hV
    refine ⟨⟨hU.sumsBytes hR, hs⟩, ?_⟩
    rw [bytesOfAll, map_cons, sum_cons, hU.totalBytes hR, ← bytesOfAll, hbytes, length_append]

end

mutual

/-- Two front parts of a text with the same bytes have the same rows and columns. -/
theorem Spans.sharesPadding : ∀ {t : Subtree} {T : List UInt8},
    Spans (fun l w => l = lengthOf w) t T → t.SharesPadding
  | .inline _, _, _ | .heap _ [], _, _ => trivial
  | .heap data (first :: rest), T, h => by
    obtain ⟨⟨P, S, hT, hP, -⟩, hbytes, U, V, rfl, hU, hV⟩ := h
    refine ⟨?_, Spans.sharesPadding hU, SpansAll.sharesPadding hV⟩
    obtain ⟨P', S', rfl, hP', -⟩ := hU.readsAs
    rw [hP, hP'] at hbytes ⊢
    rw [append_assoc] at hT
    have heq : P' = P := append_inj_left hT hbytes.symm
    rw [heq]

theorem SpansAll.sharesPadding : ∀ {ts : List Subtree} {T : List UInt8},
    SpansAll (fun l w => l = lengthOf w) ts T → SharesPaddingAll ts
  | [], _, _ => trivial
  | t :: ts, _, h => by
    obtain ⟨U, V, rfl, hU, hV⟩ := h
    exact ⟨Spans.sharesPadding hU, SpansAll.sharesPadding hV⟩

end

theorem shape_setLengths (data : InlineData) (padding size : Length) :
    (data.setLengths padding size).shape = .node data.symbol [] := by
  rw [InlineData.setLengths]
  split <;> rfl

mutual

theorem shape_editTree : ∀ (t : Subtree) (edit : Edit), (editTree edit t).shape = t.shape
  | .inline data, edit => by
    rw [editTree]
    split
    · rfl
    · rw [shape_setLengths, Subtree.shape]
  | .heap data children, edit => by
    rw [editTree]
    split
    · rfl
    · rw [Subtree.shape, Subtree.shape, shapes_editTrees children]
      rfl

theorem shapes_editTrees : ∀ (ts : List Subtree) (edits : List (Option Edit)),
    shapes (editTrees edits ts) = shapes ts
  | ts, [] => by cases ts <;> rw [editTrees]
  | [], _ :: _ => by simp [editTrees]
  | t :: ts, none :: edits => by rw [editTrees, shapes, shapes, shapes_editTrees ts edits]
  | t :: ts, some edit :: edits => by
    rw [editTrees, shapes, shapes, shape_editTree t edit, shapes_editTrees ts edits]

end

/-! ### Edits in range -/

/-- An edit within a tree, neither of which wraps around. -/
structure Edit.InRange (edit : Edit) (t : Subtree) : Prop where
  start_le : edit.start.bytes ≤ edit.oldEnd.bytes
  old_le : edit.oldEnd.bytes ≤ t.totalBytes
  start_new : edit.start.bytes ≤ edit.newEnd.bytes
  tree_lt : t.endByte < 2 ^ 32
  new_lt : edit.newEnd.bytes + (t.totalBytes - edit.oldEnd.bytes) < 2 ^ 32

/-- The edit of a text that replaces `D` behind `A` by `I`. -/
def Edit.ofText (A D I : List UInt8) : Edit :=
  ⟨lengthOf A, lengthOf (A ++ D), lengthOf (A ++ I)⟩

theorem length_newText {T a o n : List β} (hao : a.length ≤ o.length) (hoT : o.length ≤ T.length) :
    (newText T a o n).length = n.length + (T.length - o.length) := by
  rw [newText, if_pos (by omega), length_append, length_drop]

theorem editTree_spans_bytes {t : Subtree} (hwf : t.WellFormed) {edit : Edit}
    (h : edit.InRange t) :
    ∃ T : List Unit, Spans bytesOf (editTree edit t) T ∧
      T.length = edit.newEnd.bytes + (t.totalBytes - edit.oldEnd.bytes) := by
  obtain ⟨hstart, hold, hnew, hlt, hlt'⟩ := h
  have hreads : Reads bytesOf edit (List.replicate edit.start.bytes ())
      (List.replicate edit.oldEnd.bytes ()) (List.replicate edit.newEnd.bytes ()) :=
    ⟨(length_replicate ..).symm, (length_replicate ..).symm, (length_replicate ..).symm,
      (comparable_unit _ _).isPrefix (by simpa using hstart),
      (comparable_unit _ _).isPrefix (by simpa using hnew)⟩
  have hlen := @length_newText _ (List.replicate t.totalBytes ())
    (List.replicate edit.start.bytes ()) (List.replicate edit.oldEnd.bytes ())
    (List.replicate edit.newEnd.bytes ()) (by simpa using hstart) (by simpa using hold)
  simp only [length_replicate] at hlen
  exact ⟨_, editTree_spans measures_bytesOf t _ _ _ _ edit hwf.spans hwf.covered hlt hreads
    (comparable_unit _ _) (by rw [hlen]; exact hlt'), hlen⟩

theorem editTree_spans_text {t : Subtree} (hwf : t.WellFormed) {A D C I : List UInt8}
    (h : (Edit.ofText A D I).InRange t)
    (hspans : Spans (fun l w => l = lengthOf w) t (A ++ D ++ C)) :
    Spans (fun l w => l = lengthOf w) (editTree (Edit.ofText A D I) t) (A ++ I ++ C) := by
  have hreads : Reads (fun l w => l = lengthOf w) (Edit.ofText A D I) A (A ++ D) (A ++ I) :=
    ⟨rfl, rfl, rfl, prefix_append .., prefix_append ..⟩
  have htext : newText (A ++ D ++ C) A (A ++ D) (A ++ I) = A ++ I ++ C := by
    rw [newText, if_pos (by simp only [length_append]; omega), drop_left]
  have hlen : (A ++ I ++ C).length < 2 ^ 32 := by
    have hlt := h.new_lt
    rw [hspans.totalBytes measures_lengthOf, Edit.ofText] at hlt
    simp only [lengthOf, length_append] at hlt ⊢
    omega
  rw [← htext] at hlen ⊢
  exact editTree_spans measures_lengthOf t _ _ _ _ _ hspans hwf.covered h.tree_lt hreads
    (Or.inl (prefix_append ..)) hlen

/-- **Editing keeps the shape and the sums.** For every well-formed tree and every edit in
range the result has the same shape and symbols, every inner node has the bytes of its
children and the padding bytes of the first one, and the root has the bytes of the edited
text. If the points of the tree and of the edit are those of a text, then so are those of the
result, and every inner node has the padding of its first child with its rows and columns. -/
theorem subtreeEdit_sums {t : Subtree} (hwf : t.WellFormed) {edit : Edit} (h : edit.InRange t) :
    ∃ t', subtreeEdit t edit = some t' ∧ t'.shape = t.shape ∧ t'.SumsBytes ∧
      t'.totalBytes = edit.newEnd.bytes + (t.totalBytes - edit.oldEnd.bytes) ∧
      ∀ A D C I : List UInt8, Spans (fun l w => l = lengthOf w) t (A ++ D ++ C) →
        edit = Edit.ofText A D I →
        Spans (fun l w => l = lengthOf w) t' (A ++ I ++ C) ∧ t'.SharesPadding := by
  obtain ⟨T, hspans, hlen⟩ := editTree_spans_bytes hwf h
  refine ⟨editTree edit t, subtreeEdit_eq t edit, shape_editTree t edit,
    hspans.sumsBytes measures_bytesOf, (hspans.totalBytes measures_bytesOf).trans hlen, ?_⟩
  intro A D C I htext hedit
  subst hedit
  have hspans' := editTree_spans_text hwf h htext
  exact ⟨hspans', hspans'.sharesPadding⟩

/-- A leaf stored in place, with its padding, size and lookahead in bytes. -/
def leafOf (padding size lookahead : Nat) : Subtree :=
  .inline ⟨1, padding, 0, padding, size, lookahead, false⟩

def lineNode (padding size lookahead : Nat) (children : List Subtree) : Subtree :=
  .heap ⟨2, ⟨padding, 0, padding⟩, ⟨size, 0, size⟩, lookahead, false, false⟩ children

/-- `ab c` as two tokens, of which the `b` is replaced by `xy`. -/
theorem subtreeEdit_sums_letters :
    (lineNode 0 4 0 [leafOf 0 2 1, leafOf 1 1 0]).WellFormed ∧
      (Edit.ofText [97] [98] [120, 121]).InRange (lineNode 0 4 0 [leafOf 0 2 1, leafOf 1 1 0]) ∧
      ∃ t', subtreeEdit (lineNode 0 4 0 [leafOf 0 2 1, leafOf 1 1 0])
          (Edit.ofText [97] [98] [120, 121]) = some t' ∧ t'.SumsBytes ∧ t'.totalBytes = 5 ∧
        Spans (fun l w => l = lengthOf w) t' [97, 120, 121, 32, 99] := by
  have hwf : (lineNode 0 4 0 [leafOf 0 2 1, leafOf 1 1 0]).WellFormed :=
    ⟨⟨rfl, rfl, rfl⟩, trivial, trivial, trivial⟩
  have hrange : (Edit.ofText [97] [98] [120, 121]).InRange
      (lineNode 0 4 0 [leafOf 0 2 1, leafOf 1 1 0]) :=
    ⟨by decide, by decide, by decide, by decide, by decide⟩
  obtain ⟨t', hedit, -, hsums, htotal, htext⟩ := subtreeEdit_sums hwf hrange
  have hspans : Spans (fun l w => l = lengthOf w) (lineNode 0 4 0 [leafOf 0 2 1, leafOf 1 1 0])
      ([97] ++ [98] ++ [32, 99]) :=
    ⟨⟨[], [97, 98, 32, 99], rfl, rfl, rfl⟩, rfl, [97, 98], [32, 99], rfl,
      ⟨[], [97, 98], rfl, rfl, rfl⟩, [32, 99], [], rfl, ⟨[32], [99], rfl, rfl, rfl⟩, rfl⟩
  exact ⟨hwf, hrange, t', hedit, hsums, htotal, (htext _ _ _ _ hspans rfl).1⟩

/-- Deleting the second of two tokens leaves the lookahead of their parent as it was, though
that of the first token now reaches further; and an edit whose start column is not that of its
start byte moves the padding of an empty first child, but not that of its parent. -/
theorem subtreeEdit_not_wellFormed :
    ((lineNode 0 7 0 [leafOf 0 2 3, leafOf 0 5 0]).WellFormed ∧
      (Edit.ofText [97, 97] [98, 98, 98, 98, 98] []).InRange
        (lineNode 0 7 0 [leafOf 0 2 3, leafOf 0 5 0]) ∧
      ∃ t', subtreeEdit (lineNode 0 7 0 [leafOf 0 2 3, leafOf 0 5 0])
        (Edit.ofText [97, 97] [98, 98, 98, 98, 98] []) = some t' ∧ ¬ t'.WellFormed) ∧
    ((lineNode 1 1 0 [leafOf 1 0 1, leafOf 0 1 0]).WellFormed ∧
      (Edit.mk ⟨1, 0, 5⟩ ⟨2, 0, 6⟩ ⟨1, 0, 5⟩).InRange (lineNode 1 1 0 [leafOf 1 0 1, leafOf 0 1 0]) ∧
      ∃ t', subtreeEdit (lineNode 1 1 0 [leafOf 1 0 1, leafOf 0 1 0])
        (Edit.mk ⟨1, 0, 5⟩ ⟨2, 0, 6⟩ ⟨1, 0, 5⟩) = some t' ∧ ¬ t'.SharesPadding) := by
  refine ⟨⟨⟨⟨rfl, rfl, rfl⟩, trivial, trivial, trivial⟩,
    ⟨by decide, by decide, by decide, by decide, by decide⟩, _, subtreeEdit_eq _ _, ?_⟩,
    ⟨⟨rfl, rfl, rfl⟩, trivial, trivial, trivial⟩,
    ⟨by decide, by decide, by decide, by decide, by decide⟩, _, subtreeEdit_eq _ _, ?_⟩
  · intro hwf
    have hlookahead : 2 + 0 + 0 = 5 := hwf.1.lookahead
    cases hlookahead
  · intro hshares
    have hpadding : Length.mk 1 ⟨0, 1⟩ = ⟨1, 0, 5⟩ := hshares.1
    cases hpadding

end TreeSitter.Lib
