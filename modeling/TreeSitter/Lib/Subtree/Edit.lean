import TreeSitter.Lib.Subtree

/-!
# TreeSitter.Lib.Subtree.Edit

`ts_subtree_edit`: **moving a tree along with an edit of its text**. Each node is resized and
marked, and the edit is handed down to the children it may concern, in their own coordinates.

The source keeps the nodes that are still to be visited on a stack. `subtreeEdit` is that
loop, with the path of a node in place of a pointer to it; `editTree` is the recursion it
amounts to (`subtreeEdit_eq`), on which the proofs are done.
-/

namespace TreeSitter.Lib

open List

/-- `Edit`. -/
structure Edit where
  start : Length
  oldEnd : Length
  newEnd : Length

namespace Edit

/-- `is_noop`. -/
def isNoop (edit : Edit) : Bool :=
  edit.oldEnd.bytes == edit.start.bytes && edit.newEnd.bytes == edit.start.bytes

/-- `is_pure_insertion`. -/
def isPureInsertion (edit : Edit) : Bool := edit.oldEnd.bytes == edit.start.bytes

/-- `column_shifted`. -/
def columnShifted (edit : Edit) : Bool := edit.newEnd.extent.column != edit.oldEnd.extent.column

def shift (edit : Edit) (childLeft : Length) : Edit where
  start := edit.start.saturatingSub childLeft
  oldEnd := edit.oldEnd.saturatingSub childLeft
  newEnd := edit.newEnd.saturatingSub childLeft

/-- An edit that changes nothing, at the start of the edit. -/
def atStart (edit : Edit) : Edit := ⟨edit.start, edit.start, edit.start⟩

/-- What is left of an edit for the children behind the first one that touches it. -/
def withoutInsertion (edit : Edit) : Edit := { edit with newEnd := edit.start }

/-- The tests before a node is visited: the edit is behind the node and its lookahead. -/
def misses (edit : Edit) (t : Subtree) : Bool :=
  edit.start.bytes > addU32 t.totalSize.bytes t.lookaheadBytes ||
    (edit.isNoop && edit.start.bytes == addU32 t.totalSize.bytes t.lookaheadBytes)

def resize (edit : Edit) (padding size : Length) : Length × Length :=
  if edit.oldEnd.bytes ≤ padding.bytes then
    (edit.newEnd.add (padding.sub edit.oldEnd), size)
  else if edit.start.bytes < padding.bytes then
    (edit.newEnd, size.saturatingSub (edit.oldEnd.sub padding))
  else if edit.start.bytes < (padding.add size).bytes ∨
      edit.start.bytes = (padding.add size).bytes ∧ edit.isPureInsertion = true then
    (padding, (edit.newEnd.sub padding).add ((padding.add size).saturatingSub edit.oldEnd))
  else (padding, size)

end Edit

/-- `TS_MAX_INLINE_TREE_LENGTH`. -/
def maxInlineTreeLength : Nat := 255

/-- `ts_subtree_can_inline`. -/
def canInline (padding size : Length) (lookaheadBytes : Nat) : Bool :=
  padding.bytes < maxInlineTreeLength && padding.extent.row < 16 &&
    padding.extent.column < maxInlineTreeLength && size.bytes < maxInlineTreeLength &&
    size.extent.row == 0 && size.extent.column < maxInlineTreeLength && lookaheadBytes < 16

/-- A leaf stored in place moves to the heap if it no longer fits. It is marked as
changed. -/
def InlineData.setLengths (data : InlineData) (padding size : Length) : Subtree :=
  if canInline padding size data.lookaheadBytes then
    .inline { data with
      paddingBytes := padding.bytes
      paddingRows := padding.extent.row
      paddingColumns := padding.extent.column
      sizeBytes := size.bytes
      hasChanges := true }
  else
    .heap
      { symbol := data.symbol
        padding := padding
        size := size
        lookaheadBytes := data.lookaheadBytes
        hasChanges := true
        dependsOnColumn := false } []

/-- A node on the heap is changed in place. -/
def HeapData.setLengths (data : HeapData) (padding size : Length) : HeapData :=
  { data with padding := padding, size := size, hasChanges := true }

/-- The node as it is left by a visit, before its children are visited. -/
def Subtree.resized (edit : Edit) : Subtree → Subtree
  | .inline data =>
    data.setLengths (edit.resize (Subtree.inline data).padding (Subtree.inline data).size).1
      (edit.resize (Subtree.inline data).padding (Subtree.inline data).size).2
  | .heap data children =>
    .heap (data.setLengths (edit.resize data.padding data.size).1
      (edit.resize data.padding data.size).2) children

/-- What the loop over the children reads of the node and of the edit as it came. -/
structure ChildLoop where
  parentDependsOnColumn : Bool
  paddingRow : Nat
  columnShifted : Bool
  isPureInsertion : Bool

/-- The test that ends the loop: the child starts behind the edit, and no column is to be
invalidated. -/
def ChildLoop.stops (loop : ChildLoop) (edit : Edit) (i : Nat) (childLeft : Length)
    (child : Subtree) : Bool :=
  (childLeft.bytes > edit.oldEnd.bytes ||
      (childLeft.bytes == edit.oldEnd.bytes && child.totalSize.bytes > 0 && i > 0)) &&
    (!loop.parentDependsOnColumn || childLeft.extent.row > loop.paddingRow) &&
    (!child.dependsOnColumn || !loop.columnShifted ||
      childLeft.extent.row > edit.oldEnd.extent.row)

/-- The loop over the children: for each of them the edit it is queued with, if it is. -/
def ChildLoop.run (loop : ChildLoop) : Nat → Length → Edit → List Subtree → List (Option Edit)
  | _, _, _, [] => []
  | i, childLeft, edit, child :: rest =>
    if addU32 (childLeft.add child.totalSize).bytes child.lookaheadBytes < edit.start.bytes then
      none :: loop.run (i + 1) (childLeft.add child.totalSize) edit rest
    else if loop.stops edit i childLeft child then
      none :: rest.map fun _ => none
    else if (childLeft.add child.totalSize).bytes > edit.start.bytes ∨
        (childLeft.add child.totalSize).bytes = edit.start.bytes ∧
          loop.isPureInsertion = true then
      -- All inserted text goes to the first child that touches the edit.
      some (edit.shift childLeft) ::
        loop.run (i + 1) (childLeft.add child.totalSize) edit.withoutInsertion rest
    else
      some (edit.shift childLeft).atStart ::
        loop.run (i + 1) (childLeft.add child.totalSize) edit rest

/-- What the loop over the children of a node reads. -/
def Subtree.childLoop (edit : Edit) (t : Subtree) : ChildLoop where
  parentDependsOnColumn := t.dependsOnColumn
  paddingRow := (edit.resize t.padding t.size).1.extent.row
  columnShifted := edit.columnShifted
  isPureInsertion := edit.isPureInsertion

def Subtree.childEdits (edit : Edit) (t : Subtree) : List (Option Edit) :=
  (t.childLoop edit).run 0 Length.zero edit t.children

/-! ### The loop over the stack -/

/-- `EditEntry`, with the path to the node. -/
structure EditEntry where
  path : List Nat
  edit : Edit

/-- The tree at a path. -/
def Subtree.get? : Subtree → List Nat → Option Subtree
  | t, [] => some t
  | t, i :: path => t.children[i]?.bind (·.get? path)

/-- Put a tree at a path. -/
def Subtree.set : Subtree → List Nat → Subtree → Subtree
  | _, [], s => s
  | .inline data, _ :: _, _ => .inline data
  | .heap data children, i :: path, s =>
    .heap data (children.modify i (·.set path s))

/-- The entries that a visit of a node pushes, in the order of the children. -/
def childEntries (path : List Nat) (edits : List (Option Edit)) : List EditEntry :=
  edits.zipIdx.filterMap fun p => p.1.map fun edit => ⟨path ++ [p.2], edit⟩

/-- The loop over the stack, whose top is the head of the list. -/
def editLoop : Nat → Subtree → List EditEntry → Option Subtree
  | 0, _, _ => none
  | _ + 1, root, [] => some root
  | fuel + 1, root, entry :: stack =>
    match root.get? entry.path with
    | none => none
    | some t =>
      if entry.edit.misses t then editLoop fuel root stack
      else editLoop fuel (root.set entry.path (t.resized entry.edit))
        ((childEntries entry.path (t.childEdits entry.edit)).reverse ++ stack)

mutual

/-- The number of nodes. -/
def Subtree.nodeCount : Subtree → Nat
  | .inline _ => 1
  | .heap _ children => nodeCounts children + 1

/-- The number of nodes of some trees. -/
def nodeCounts : List Subtree → Nat
  | [] => 0
  | t :: ts => t.nodeCount + nodeCounts ts

end

/-- `ts_subtree_edit`: every node is visited at most once. -/
def subtreeEdit (t : Subtree) (edit : Edit) : Option Subtree :=
  editLoop (t.nodeCount + 1) t [⟨[], edit⟩]

/-! ### The recursion -/

mutual

def editTree (edit : Edit) : Subtree → Subtree
  | .inline data =>
    if edit.misses (.inline data) then .inline data
    else data.setLengths (edit.resize (Subtree.inline data).padding (Subtree.inline data).size).1
      (edit.resize (Subtree.inline data).padding (Subtree.inline data).size).2
  | .heap data children =>
    if edit.misses (.heap data children) then .heap data children
    else .heap
      (data.setLengths (edit.resize data.padding data.size).1 (edit.resize data.padding data.size).2)
      (editTrees ((Subtree.heap data children).childEdits edit) children)

def editTrees : List (Option Edit) → List Subtree → List Subtree
  | [], ts => ts
  | _, [] => []
  | none :: edits, t :: ts => t :: editTrees edits ts
  | some edit :: edits, t :: ts => editTree edit t :: editTrees edits ts

end

/-! ### The loop is the recursion -/

namespace Subtree

theorem get?_append : ∀ (p q : List Nat) (t : Subtree),
    t.get? (p ++ q) = (t.get? p).bind (·.get? q)
  | [], q, t => rfl
  | i :: p, q, t => by
    simp only [cons_append, get?, Option.bind_assoc]
    congr 1
    funext s
    exact get?_append p q s

theorem get?_set : ∀ {p : List Nat} {t s : Subtree} (r : Subtree),
    t.get? p = some s → (t.set p r).get? p = some r
  | [], t, s, r, _ => by cases t <;> rfl
  | i :: p, .inline data, s, r, h => by simp [get?, children] at h
  | i :: p, .heap data cs, s, r, h => by
    simp only [get?, children, Option.bind_eq_some_iff] at h
    obtain ⟨c, hc, h⟩ := h
    rw [set, get?, children, getElem?_modify, hc]
    simp only [if_true]
    exact get?_set r h

theorem set_set : ∀ (p : List Nat) (t s r : Subtree), (t.set p s).set p r = t.set p r
  | [], t, s, r => by cases t <;> cases s <;> rfl
  | i :: p, .inline data, s, r => rfl
  | i :: p, .heap data cs, s, r => by
    simp only [set, modify_modify_eq]
    congr 2
    funext c
    exact set_set p c s r

theorem set_get? : ∀ {p : List Nat} {t s : Subtree}, t.get? p = some s → t.set p s = t
  | [], t, s, h => by cases h; cases t <;> rfl
  | i :: p, .inline data, s, h => rfl
  | i :: p, .heap data cs, s, h => by
    simp only [get?, children, Option.bind_eq_some_iff] at h
    obtain ⟨c, hc, h⟩ := h
    have hmodify : cs.modify i (·.set p s) = cs := by
      refine ext_getElem? fun j => ?_
      rw [getElem?_modify]
      by_cases hij : i = j
      · subst hij
        simp [hc, set_get? h]
      · simp [hij]
    rw [set, hmodify]

theorem set_append : ∀ {p : List Nat} {t s : Subtree} (q : List Nat) (r : Subtree),
    t.get? p = some s → t.set (p ++ q) r = t.set p (s.set q r)
  | [], t, s, q, r, h => by cases h; cases t <;> rfl
  | i :: p, .inline data, s, q, r, h => by simp [get?, children] at h
  | i :: p, .heap data cs, s, q, r, h => by
    simp only [get?, children, Option.bind_eq_some_iff] at h
    obtain ⟨c, hc, h⟩ := h
    simp only [cons_append, set]
    congr 1
    refine ext_getElem? fun j => ?_
    rw [getElem?_modify, getElem?_modify]
    by_cases hij : i = j
    · subst hij
      simp [hc, set_append q r h]
    · simp [hij]

end Subtree

theorem ChildLoop.length_run (loop : ChildLoop) : ∀ (cs : List Subtree) (i : Nat)
    (childLeft : Length) (edit : Edit), (loop.run i childLeft edit cs).length = cs.length
  | [], _, _, _ => rfl
  | child :: rest, i, childLeft, edit => by
    rw [run]
    split
    · simp [length_run loop rest]
    · split
      · simp
      · split
        · simp [length_run loop rest]
        · simp [length_run loop rest]

theorem editTrees_append : ∀ {edits : List (Option Edit)} {ts : List Subtree}
    (edits' : List (Option Edit)) (ts' : List Subtree), edits.length = ts.length →
    editTrees (edits ++ edits') (ts ++ ts') = editTrees edits ts ++ editTrees edits' ts'
  | [], [], _, _, _ => rfl
  | none :: edits, t :: ts, edits', ts', h | some edit :: edits, t :: ts, edits', ts', h => by
    simp only [cons_append, editTrees, editTrees_append edits' ts' (Nat.succ.inj h)]

/-- An entry on top of the stack is worked off in at most as many turns as the tree has
nodes, and then the tree at its path is the edited one. -/
def Visited (t : Subtree) : Prop :=
  ∀ (root : Subtree) (path : List Nat) (edit : Edit) (stack : List EditEntry),
    root.get? path = some t → ∃ k ≤ t.nodeCount, ∀ fuel,
      editLoop (fuel + k) root (⟨path, edit⟩ :: stack) =
        editLoop fuel (root.set path (editTree edit t)) stack

theorem nodeCounts_append (ts ts' : List Subtree) :
    nodeCounts (ts ++ ts') = nodeCounts ts + nodeCounts ts' := by
  induction ts with
  | nil => simp [nodeCounts]
  | cons t ts ih => simp [nodeCounts, ih, Nat.add_assoc]

theorem childEntries_concat (path : List Nat) (edits : List (Option Edit)) (e : Option Edit) :
    (childEntries path (edits ++ [e])).reverse =
      (e.map fun edit => EditEntry.mk (path ++ [edits.length]) edit).toList ++
        (childEntries path edits).reverse := by
  cases e <;> simp [childEntries, zipIdx_append, filterMap_append]

theorem visited_children (data : HeapData) (path : List Nat) (stack : List EditEntry)
    (ts : List Subtree) : (∀ t ∈ ts, Visited t) →
    ∀ (edits : List (Option Edit)) (done : List Subtree) (root : Subtree),
      edits.length = ts.length → root.get? path = some (.heap data (ts ++ done)) →
      ∃ k ≤ nodeCounts ts, ∀ fuel,
        editLoop (fuel + k) root ((childEntries path edits).reverse ++ stack) =
          editLoop fuel (root.set path (.heap data (editTrees edits ts ++ done))) stack := by
  induction ts using List.reverseRecOn with
  | nil =>
    intro _ edits done root hlen hroot
    obtain rfl := eq_nil_of_length_eq_zero hlen
    refine ⟨0, Nat.zero_le _, fun fuel => ?_⟩
    have hset := Subtree.set_get? hroot
    rw [nil_append] at hset
    simp [childEntries, editTrees, hset]
  | append_singleton ts t ih =>
    intro hvisited edits done root hlen hroot
    have hts : ∀ s ∈ ts, Visited s := fun s hs => hvisited s (mem_append_left _ hs)
    obtain ⟨edits, e, rfl⟩ : ∃ edits' e, edits = edits' ++ [e] := by
      rcases eq_nil_or_concat edits with rfl | ⟨edits', e, rfl⟩
      · simp at hlen
      · exact ⟨edits', e, concat_eq_append⟩
    have hlen' : edits.length = ts.length := by simpa using hlen
    rw [append_assoc, singleton_append] at hroot
    rw [childEntries_concat, editTrees_append [e] [t] hlen', nodeCounts_append, hlen']
    cases e with
    | none =>
      obtain ⟨k, hk, hloop⟩ := ih hts edits (t :: done) root hlen' hroot
      exact ⟨k, by omega, fun fuel => by simpa [editTrees] using hloop fuel⟩
    | some edit =>
      have hget : root.get? (path ++ [ts.length]) = some t := by
        rw [Subtree.get?_append, hroot]
        simp [Subtree.get?, Subtree.children]
      obtain ⟨k₁, hk₁, hloop₁⟩ := hvisited t (by simp) root (path ++ [ts.length]) edit
        ((childEntries path edits).reverse ++ stack) hget
      -- Behind the visit the child is in its place among its siblings.
      have hset : root.set (path ++ [ts.length]) (editTree edit t) =
          root.set path (.heap data (ts ++ editTree edit t :: done)) := by
        have hmodify : (ts ++ t :: done).modify ts.length (fun s => s.set [] (editTree edit t)) =
            ts ++ editTree edit t :: done := by
          have hnil : t.set [] (editTree edit t) = editTree edit t := by cases t <;> rfl
          simp [modify_eq_take_drop, hnil]
        rw [Subtree.set_append _ _ hroot, Subtree.set, hmodify]
      obtain ⟨k₂, hk₂, hloop₂⟩ := ih hts edits (editTree edit t :: done)
        (root.set path (.heap data (ts ++ editTree edit t :: done))) hlen'
        (Subtree.get?_set _ hroot)
      refine ⟨k₂ + k₁, by simp only [nodeCounts]; omega, fun fuel => ?_⟩
      rw [← Nat.add_assoc]
      simp only [Option.map_some, Option.toList_some, cons_append, nil_append]
      rw [hloop₁, hset, hloop₂, Subtree.set_set]
      simp [editTrees]

mutual

theorem visited : ∀ t : Subtree, Visited t
  | .inline data => by
    intro root path edit stack hroot
    refine ⟨1, le_rfl, fun fuel => ?_⟩
    rw [editLoop, hroot]
    dsimp only
    rw [editTree]
    split
    · rw [Subtree.set_get? hroot]
    · rfl
  | .heap data children => by
    intro root path edit stack hroot
    by_cases hmiss : edit.misses (.heap data children) = true
    · refine ⟨1, by simp [Subtree.nodeCount], fun fuel => ?_⟩
      rw [editLoop, hroot]
      dsimp only
      rw [if_pos hmiss, editTree, if_pos hmiss, Subtree.set_get? hroot]
    · obtain ⟨k, hk, hloop⟩ := visited_children
        (data.setLengths (edit.resize data.padding data.size).1
          (edit.resize data.padding data.size).2) path stack children (visitedAll children)
        ((Subtree.heap data children).childEdits edit) []
        (root.set path ((Subtree.heap data children).resized edit))
        (ChildLoop.length_run _ _ _ _ _)
        (by rw [Subtree.get?_set _ hroot, append_nil]; rfl)
      refine ⟨k + 1, by simp only [Subtree.nodeCount]; omega, fun fuel => ?_⟩
      rw [← Nat.add_assoc, editLoop, hroot]
      dsimp only
      rw [if_neg hmiss, hloop, Subtree.set_set, append_nil, editTree, if_neg hmiss]

theorem visitedAll : ∀ (ts : List Subtree), ∀ t ∈ ts, Visited t
  | [], _, h => by cases h
  | t :: ts, s, h => by
    rcases mem_cons.mp h with heq | h
    · exact heq ▸ visited t
    · exact visitedAll ts s h

end

/-- **The loop over the stack is the recursion.** -/
theorem subtreeEdit_eq (t : Subtree) (edit : Edit) :
    subtreeEdit t edit = some (editTree edit t) := by
  obtain ⟨k, hk, hloop⟩ := visited t t [] edit [] (by cases t <;> rfl)
  have hfuel : t.nodeCount + 1 = (t.nodeCount - k + 1) + k := by omega
  rw [subtreeEdit, hfuel, hloop, editLoop]
  cases t <;> rfl

end TreeSitter.Lib
