import TreeSitter.Lib.Length

/-!
# TreeSitter.Lib.Subtree

`subtree.h` and `subtree.c`: **syntax trees**. A small leaf is stored in place, anything else
on the heap. Sharing and reference counts are not modelled: a subtree is a value, and
`ts_subtree_make_mut` is the identity.

A tree is `WellFormed` if every inner node summarises its children as
`ts_subtree_summarize_children` does.
-/

namespace TreeSitter.Lib

/-- `SubtreeInlineData`, less the flags that editing does not read. -/
structure InlineData where
  symbol : Nat
  paddingBytes : Nat
  paddingRows : Nat
  paddingColumns : Nat
  sizeBytes : Nat
  lookaheadBytes : Nat
  hasChanges : Bool

/-- `SubtreeHeapData`, less the children and the fields that editing does not read. -/
structure HeapData where
  symbol : Nat
  padding : Length
  size : Length
  lookaheadBytes : Nat
  hasChanges : Bool
  dependsOnColumn : Bool

/-- `Subtree`. -/
inductive Subtree where
  | inline (data : InlineData)
  | heap (data : HeapData) (children : List Subtree)

namespace Subtree

/-- `ts_subtree_padding`. -/
def padding : Subtree → Length
  | inline data => ⟨data.paddingBytes, data.paddingRows, data.paddingColumns⟩
  | heap data _ => data.padding

/-- `ts_subtree_size`. -/
def size : Subtree → Length
  | inline data => ⟨data.sizeBytes, 0, data.sizeBytes⟩
  | heap data _ => data.size

/-- `ts_subtree_total_size`. -/
def totalSize (t : Subtree) : Length := t.padding.add t.size

/-- `ts_subtree_lookahead_bytes`. -/
def lookaheadBytes : Subtree → Nat
  | inline data | heap data _ => data.lookaheadBytes

/-- `ts_subtree_depends_on_column`. -/
def dependsOnColumn : Subtree → Bool
  | inline _ => false
  | heap data _ => data.dependsOnColumn

/-- `ts_subtree_children`. -/
def children : Subtree → List Subtree
  | inline _ => []
  | heap _ children => children

/-- The total size in bytes, as a number that does not wrap around. -/
def totalBytes (t : Subtree) : Nat := t.padding.bytes + t.size.bytes

/-- The first byte behind the ones that were read to recognise the tree. -/
def endByte (t : Subtree) : Nat := t.totalBytes + t.lookaheadBytes

theorem totalSize_bytes {t : Subtree} (h : t.totalBytes < 2 ^ 32) :
    t.totalSize.bytes = t.totalBytes :=
  Length.add_bytes h

end Subtree

/-! ### Summaries -/

/-- What `ts_subtree_summarize_children` assigns, of the fields modelled. -/
structure Summary where
  padding : Length
  size : Length
  lookaheadEndByte : Nat

/-- One turn of the loop, for a child that is not the first. -/
def Summary.addChild (s : Summary) (child : Subtree) : Summary where
  padding := s.padding
  size := s.size.add child.totalSize
  lookaheadEndByte := max s.lookaheadEndByte
    (addU32 (addU32 s.padding.bytes (s.size.add child.totalSize).bytes) child.lookaheadBytes)

/-- `ts_subtree_summarize_children` on a node with children. -/
def summarizeChildren (first : Subtree) (rest : List Subtree) : Summary :=
  rest.foldl Summary.addChild
    ⟨first.padding, first.size,
      addU32 (addU32 first.padding.bytes first.size.bytes) first.lookaheadBytes⟩

/-- The largest end of a child from a position on, as numbers that do not wrap around. -/
def lookaheadEnd : Nat → List Subtree → Nat
  | _, [] => 0
  | left, child :: rest => max (left + child.endByte) (lookaheadEnd (left + child.totalBytes) rest)

/-- The bytes of some trees together. -/
def bytesOfAll (children : List Subtree) : Nat := (children.map Subtree.totalBytes).sum

/-- A node summarises its children. -/
structure Summarises (data : HeapData) (first : Subtree) (rest : List Subtree) : Prop where
  padding : data.padding = first.padding
  bytes : data.padding.bytes + data.size.bytes = bytesOfAll (first :: rest)
  lookahead : data.padding.bytes + data.size.bytes + data.lookaheadBytes =
    lookaheadEnd 0 (first :: rest)

theorem foldl_addChild (rest : List Subtree) : ∀ {s : Summary},
    lookaheadEnd (s.padding.bytes + s.size.bytes) rest < 2 ^ 32 →
    s.padding.bytes + s.size.bytes + bytesOfAll rest < 2 ^ 32 →
    (rest.foldl Summary.addChild s).padding = s.padding ∧
      (rest.foldl Summary.addChild s).size.bytes = s.size.bytes + bytesOfAll rest ∧
      (rest.foldl Summary.addChild s).lookaheadEndByte =
        max s.lookaheadEndByte (lookaheadEnd (s.padding.bytes + s.size.bytes) rest) := by
  induction rest with
  | nil => exact fun _ _ => ⟨rfl, rfl, by simp [lookaheadEnd]⟩
  | cons child rest ih =>
    intro s hend hsum
    have hbytes : bytesOfAll (child :: rest) = child.totalBytes + bytesOfAll rest := by
      simp [bytesOfAll]
    rw [hbytes] at hsum
    rw [lookaheadEnd, max_lt_iff] at hend
    have htotal : child.totalSize.bytes = child.totalBytes :=
      Subtree.totalSize_bytes (by omega)
    have hsize : (s.addChild child).size.bytes = s.size.bytes + child.totalBytes := by
      rw [Summary.addChild, Length.add_bytes (by omega), htotal]
    have hadd : (s.size.add child.totalSize).bytes = s.size.bytes + child.totalBytes := hsize
    have hendByte : child.endByte = child.totalBytes + child.lookaheadBytes := rfl
    have hinner : addU32 s.padding.bytes (s.size.add child.totalSize).bytes =
        s.padding.bytes + s.size.bytes + child.totalBytes := by
      rw [hadd, addU32_of_lt (by omega)]
      omega
    have hmax : (s.addChild child).lookaheadEndByte =
        max s.lookaheadEndByte (s.padding.bytes + s.size.bytes + child.endByte) := by
      change max s.lookaheadEndByte (addU32 (addU32 _ _) _) = _
      rw [hinner, addU32_of_lt (by omega), hendByte, Nat.add_assoc _ child.totalBytes]
    have hpadding : (s.addChild child).padding = s.padding := rfl
    have hleft : (s.addChild child).padding.bytes + (s.addChild child).size.bytes =
        s.padding.bytes + s.size.bytes + child.totalBytes := by
      rw [hpadding, hsize]
      omega
    obtain ⟨h₁, h₂, h₃⟩ := @ih (s.addChild child) (hleft ▸ hend.2) (by rw [hleft]; omega)
    refine ⟨h₁.trans hpadding, ?_, ?_⟩
    · rw [List.foldl_cons, h₂, hsize, hbytes]
      omega
    · rw [List.foldl_cons, h₃, hmax, hleft, lookaheadEnd, max_assoc]

/-- **The node that `ts_subtree_summarize_children` fills in summarises its children**, if
nothing wraps around. -/
theorem summarises_summarizeChildren (data : HeapData) (first : Subtree) (rest : List Subtree)
    (hend : lookaheadEnd 0 (first :: rest) < 2 ^ 32)
    (hsum : bytesOfAll (first :: rest) < 2 ^ 32) :
    Summarises { data with
      padding := (summarizeChildren first rest).padding
      size := (summarizeChildren first rest).size
      lookaheadBytes := (summarizeChildren first rest).lookaheadEndByte -
        (summarizeChildren first rest).size.bytes -
        (summarizeChildren first rest).padding.bytes } first rest := by
  have hbytes : bytesOfAll (first :: rest) = first.totalBytes + bytesOfAll rest := by
    simp [bytesOfAll]
  rw [hbytes] at hsum
  have hlook := hend
  rw [lookaheadEnd, max_lt_iff, Nat.zero_add, Nat.zero_add] at hlook
  have hfirst : first.padding.bytes + first.size.bytes = first.totalBytes := rfl
  obtain ⟨h₁, h₂, h₃⟩ := @foldl_addChild rest
    ⟨first.padding, first.size,
      addU32 (addU32 first.padding.bytes first.size.bytes) first.lookaheadBytes⟩
    (by simpa only [hfirst] using hlook.2) (by simpa only [hfirst] using hsum)
  have hlast : ∀ (rest : List Subtree) (left : Nat),
      left + bytesOfAll rest ≤ max left (lookaheadEnd left rest) := by
    intro rest
    induction rest with
    | nil => intro left; simp [bytesOfAll, lookaheadEnd]
    | cons child rest ih =>
      intro left
      have hchild := ih (left + child.totalBytes)
      simp only [bytesOfAll, List.map_cons, List.sum_cons, lookaheadEnd] at hchild ⊢
      rw [Subtree.endByte]
      omega
  have heq : first.endByte = first.totalBytes + first.lookaheadBytes := rfl
  have hstart : addU32 (addU32 first.padding.bytes first.size.bytes) first.lookaheadBytes =
      first.endByte := by
    have hinner : addU32 first.padding.bytes first.size.bytes = first.totalBytes :=
      addU32_of_lt (by omega)
    rw [hinner, addU32_of_lt (by omega), heq]
  change (summarizeChildren first rest).padding = _ at h₁
  change (summarizeChildren first rest).size.bytes = _ at h₂
  change (summarizeChildren first rest).lookaheadEndByte = _ at h₃
  simp only [hstart, hfirst] at h₃
  have hle := hlast rest first.totalBytes
  constructor
  · exact h₁
  · simp only [h₁, h₂, hbytes]
    omega
  · simp only [h₁, h₂, h₃, lookaheadEnd, Nat.zero_add]
    omega

theorem summarises_summarizeChildren_twoLeaves : ∃ data,
    Summarises data (.inline ⟨1, 0, 0, 0, 2, 0, false⟩) [.inline ⟨1, 1, 0, 1, 2, 1, false⟩] :=
  ⟨_, summarises_summarizeChildren ⟨2, .zero, .zero, 0, false, false⟩ _ _ (by decide) (by decide)⟩

mutual

/-- Every inner node summarises its children. -/
def Subtree.WellFormed : Subtree → Prop
  | .inline _ | .heap _ [] => True
  | .heap data (first :: rest) =>
    Summarises data first rest ∧ first.WellFormed ∧ WellFormedAll rest

def WellFormedAll : List Subtree → Prop
  | [] => True
  | t :: ts => t.WellFormed ∧ WellFormedAll ts

end

/-! ### Shapes -/

/-- A tree of symbols. -/
inductive Shape where
  | node (symbol : Nat) (children : List Shape)

mutual

/-- The shape of a tree, with its symbols. -/
def Subtree.shape : Subtree → Shape
  | .inline data => .node data.symbol []
  | .heap data children => .node data.symbol (shapes children)

def shapes : List Subtree → List Shape
  | [] => []
  | t :: ts => t.shape :: shapes ts

end

end TreeSitter.Lib
