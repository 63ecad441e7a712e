import TreeSitter.Lib.TreeCursor

/-!
# TreeSitter.Lib.Node

**Nodes** (`lib/src/node.c`). A node is a subtree with the place where it starts and the alias
that its parent gives it. What is below a node is found by iterating over the children of its
subtree, hidden ones included, and every function here does so in its own way: to find the child
at an index, the parent of a node, its next sibling, and the nodes at a byte or a range.

The iterator is given by the nodes that it yields (`TSNode.children`). The end of a node is the
position of the iterator behind it. A node is told apart from others by its path, the `id`; two
children with the same subtree have different ones.

A node is **relevant** for a function if it is visible, and named if the function asks for that.
-/

namespace TreeSitter.Lib

variable (lang : TreeLanguage)

namespace TSNode

/-- `ts_node_start_byte`. -/
def startByte (node : TSNode) : Nat := node.position.bytes

/-- `ts_node_start_point`. -/
def startPoint (node : TSNode) : Point := node.position.extent

def endPosition (node : TSNode) : Length := node.position.add node.subtree.size

/-- `ts_node_end_byte`. -/
def endByte (node : TSNode) : Nat := addU32 node.startByte node.subtree.size.bytes

/-- `ts_node_end_point`. -/
def endPoint (node : TSNode) : Point := node.startPoint.add node.subtree.size.extent

/-- `ts_node__is_relevant`. -/
def isRelevant (includeAnonymous : Bool) (node : TSNode) : Bool :=
  if includeAnonymous then node.subtree.visible || node.aliasSymbol ≠ 0
  else if node.aliasSymbol ≠ 0 then (lang.symbolMetadata node.aliasSymbol).named
  else node.subtree.visible && node.subtree.named

/-- `ts_node_child_count`. -/
def childCount (node : TSNode) : Nat := node.subtree.visibleChildCount

/-- `ts_node_named_child_count`. -/
def namedChildCount (node : TSNode) : Nat := node.subtree.namedChildCount

/-- `ts_node__relevant_child_count`. -/
def relevantChildCount (includeAnonymous : Bool) (node : TSNode) : Nat :=
  if includeAnonymous then node.subtree.visibleChildCount else node.subtree.namedChildCount

end TSNode

/-- What `ts_node_child_iterator_next` yields from the first of `children` on, with the position
behind the child before it. -/
def childNodes (productionId : Nat) (parentId : List Nat) :
    List SyntaxTree → Length → Nat → Nat → List TSNode
  | [], _, _, _ => []
  | child :: children, position, childIndex, structuralChildIndex =>
    let start := if childIndex > 0 then position.add child.padding else position
    ⟨childIndex :: parentId, child, start, aliasOf lang productionId structuralChildIndex child⟩ ::
      childNodes productionId parentId children (start.add child.size) (childIndex + 1)
        (nextStructuralIndex structuralChildIndex child)

/-- `ts_node_iterate_children`: all that the iterator yields. -/
def TSNode.children (node : TSNode) : List TSNode :=
  childNodes lang node.subtree.productionId node.id node.subtree.children node.position 0 0

/-- `ts_tree_root_node`. -/
def SyntaxTree.rootNode (root : SyntaxTree) : TSNode := ⟨[], root, root.padding, 0⟩

/-! ### The parent -/

/-- The loop over the children in `ts_node_child_with_descendant`, for a node with the children
that are left. The function itself is `recur`. -/
def childWithDescendantFrom (descendant : TSNode) (recur : TSNode → Option TSNode) :
    List TSNode → Option TSNode
  | [] => none
  | child :: children =>
    let isEmpty : Bool := descendant.startByte = descendant.endByte
    if child.startByte > descendant.startByte then none
    else if child.id = descendant.id then some child
    else
      match (if isEmpty && descendant.endByte ≤ child.endByte && child.childCount > 0 then
        recur child else none) with
      | some found => some (if child.isRelevant lang true then child else found)
      | none =>
        if (if isEmpty then child.endByte ≤ descendant.endByte
            else child.endByte < descendant.endByte) ∨ child.childCount = 0 then
          childWithDescendantFrom descendant recur children
        else if child.isRelevant lang true then some child
        else recur child

/-- `ts_node_child_with_descendant`, down to some level. -/
def childWithDescendant (descendant : TSNode) : Nat → TSNode → Option TSNode
  | 0, _ => none
  | fuel + 1, node =>
    childWithDescendantFrom lang descendant (childWithDescendant descendant fuel)
      (node.children lang)

/-- The loop of `ts_node_parent`. -/
def nodeParentFrom (self : TSNode) : Nat → TSNode → TSNode
  | 0, node => node
  | fuel + 1, node =>
    match childWithDescendant lang self node.subtree.height node with
    | none => node
    | some next => if next.id = self.id then node else nodeParentFrom self fuel next

/-- `ts_node_parent`. -/
def nodeParent (root : SyntaxTree) (self : TSNode) : Option TSNode :=
  if root.rootNode.id = self.id then none
  else some (nodeParentFrom lang self root.height root.rootNode)

/-! ### The next sibling -/

/-- What the loop over the children in `ts_node__next_sibling` has found: the child that contains
the target, and a later child with whether it is relevant. -/
structure SiblingScan where
  containing : Option TSNode
  later : Option (TSNode × Bool)

/-- The loop over the children in `ts_node__next_sibling`. -/
def nextSiblingScan (self : TSNode) (includeAnonymous : Bool) :
    List TSNode → Option TSNode → SiblingScan
  | [], containing => ⟨containing, none⟩
  | child :: children, containing =>
    if child.endByte ≤ self.endByte then
      nextSiblingScan self includeAnonymous children containing
    else
      let containsTarget : Bool :=
        if self.startByte = self.endByte then child.startByte < self.startByte
        else child.startByte ≤ self.startByte
      if containsTarget then
        nextSiblingScan self includeAnonymous children
          (if child.id ≠ self.id then some child else containing)
      else if child.isRelevant lang includeAnonymous then ⟨containing, some (child, true)⟩
      else if child.relevantChildCount includeAnonymous > 0 then ⟨containing, some (child, false)⟩
      else nextSiblingScan self includeAnonymous children containing

/-- What one turn of the loop in `ts_node__next_sibling` leads to: the end of the search, or the
next node with the later node that is remembered. -/
inductive SiblingStep where
  | done (result : Option TSNode)
  | goOn (node : TSNode) (later : Option (TSNode × Bool))

/-- One turn of the loop in `ts_node__next_sibling`. -/
def nextSiblingStep (self : TSNode) (includeAnonymous : Bool) (node : TSNode)
    (later : Option (TSNode × Bool)) : SiblingStep :=
  let scan := nextSiblingScan lang self includeAnonymous (node.children lang) none
  match scan.containing, scan.later with
  | some child, some laterChild => .goOn child (some laterChild)
  | some child, none => .goOn child later
  | none, some (laterChild, true) => .done (some laterChild)
  | none, some (laterChild, false) => .goOn laterChild later
  | none, none =>
    match later with
    | some (laterNode, true) => .done (some laterNode)
    | some (laterNode, false) => .goOn laterNode (some (laterNode, false))
    | none => .done none

/-- The loop of `ts_node__next_sibling`: what it returns, if it ends in so many turns. -/
def nextSiblingLoop (self : TSNode) (includeAnonymous : Bool) :
    Nat → TSNode → Option (TSNode × Bool) → Option (Option TSNode)
  | 0, _, _ => none
  | fuel + 1, node, later =>
    match nextSiblingStep lang self includeAnonymous node later with
    | .done result => some result
    | .goOn node later => nextSiblingLoop self includeAnonymous fuel node later

/-- `ts_node__next_sibling`: what it returns, if it ends in so many turns. -/
def nextSibling (root : SyntaxTree) (self : TSNode) (includeAnonymous : Bool) (fuel : Nat) :
    Option (Option TSNode) :=
  match nodeParent lang root self with
  | none => some none
  | some node => nextSiblingLoop lang self includeAnonymous fuel node none

/-! ### Nodes at a place -/

/-- The saved iterator of `ts_node__first_child_for_byte`: the index of the next child, and the
children from it on. -/
structure NodeChildIterator where
  childIndex : Nat
  rest : List TSNode

/-- What the inner loop of `ts_node__first_child_for_byte` ends with. -/
inductive ByteScan where
  | found (child : TSNode)
  | descend (child : TSNode) (last : Option NodeChildIterator)
  | exhausted

/-- The inner loop of `ts_node__first_child_for_byte`, from a child on. -/
def firstChildForByteScan (goal : Nat) (includeAnonymous : Bool)
    (last : Option NodeChildIterator) : Nat → List TSNode → ByteScan
  | _, [] => .exhausted
  | childIndex, child :: children =>
    if child.endByte > goal then
      if child.isRelevant lang includeAnonymous then .found child
      else if child.childCount > 0 then
        .descend child (if childIndex + 1 < child.subtree.children.length then
          some ⟨childIndex + 1, children⟩ else last)
      else firstChildForByteScan goal includeAnonymous last (childIndex + 1) children
    else firstChildForByteScan goal includeAnonymous last (childIndex + 1) children

/-- The loop of `ts_node__first_child_for_byte`, from the state of its iterator on, in so many
turns. -/
def firstChildForByteLoop (goal : Nat) (includeAnonymous : Bool) :
    Nat → NodeChildIterator → Option NodeChildIterator → Option (Option TSNode)
  | 0, _, _ => none
  | fuel + 1, iterator, last =>
    match firstChildForByteScan lang goal includeAnonymous last iterator.childIndex iterator.rest with
    | .found child => some (some child)
    | .descend child last =>
      firstChildForByteLoop goal includeAnonymous fuel ⟨0, child.children lang⟩ last
    | .exhausted =>
      match last with
      | some last => firstChildForByteLoop goal includeAnonymous fuel last none
      | none => some none

/-- `ts_node__first_child_for_byte`: what it returns, if it ends in so many turns. -/
def firstChildForByte (self : TSNode) (goal : Nat) (includeAnonymous : Bool) (fuel : Nat) :
    Option (Option TSNode) :=
  firstChildForByteLoop lang goal includeAnonymous fuel ⟨0, self.children lang⟩ none

/-- The inner loop of `ts_node__descendant_for_byte_range`: the child to enter. -/
def byteRangeChild (rangeStart rangeEnd : Nat) : List TSNode → Option TSNode
  | [] => none
  | child :: children =>
    let nodeEnd := child.endPosition.bytes
    if nodeEnd < rangeEnd then byteRangeChild rangeStart rangeEnd children
    else if (if child.startByte = nodeEnd then nodeEnd < rangeStart else nodeEnd ≤ rangeStart) then
      byteRangeChild rangeStart rangeEnd children
    else if rangeStart < child.startByte then none
    else some child

/-- The inner loop of `ts_node__descendant_for_point_range`: the child to enter. -/
def pointRangeChild (rangeStart rangeEnd : Point) : List TSNode → Option TSNode
  | [] => none
  | child :: children =>
    let nodeEnd := child.endPosition.extent
    if nodeEnd.lt rangeEnd then pointRangeChild rangeStart rangeEnd children
    else if (if child.startPoint = nodeEnd then nodeEnd.lt rangeStart
        else nodeEnd.lte rangeStart) then
      pointRangeChild rangeStart rangeEnd children
    else if rangeStart.lt child.startPoint then none
    else some child

/-- The loop that both functions have: it enters children and keeps the last relevant one. -/
def descendantForRangeFrom (enter : List TSNode → Option TSNode) (includeAnonymous : Bool) :
    Nat → TSNode → TSNode → TSNode
  | 0, _, lastVisibleNode => lastVisibleNode
  | fuel + 1, node, lastVisibleNode =>
    match enter (node.children lang) with
    | none => lastVisibleNode
    | some child =>
      descendantForRangeFrom enter includeAnonymous fuel child
        (if child.isRelevant lang includeAnonymous then child else lastVisibleNode)

/-- `ts_node__descendant_for_byte_range`. -/
def descendantForByteRange (self : TSNode) (rangeStart rangeEnd : Nat)
    (includeAnonymous : Bool) : Option TSNode :=
  if rangeStart > rangeEnd then none
  else
    some (descendantForRangeFrom lang (byteRangeChild rangeStart rangeEnd) includeAnonymous
      self.subtree.height self self)

/-- `ts_node__descendant_for_point_range`. -/
def descendantForPointRange (self : TSNode) (rangeStart rangeEnd : Point)
    (includeAnonymous : Bool) : Option TSNode :=
  if rangeEnd.lt rangeStart then none
  else
    some (descendantForRangeFrom lang (pointRangeChild rangeStart rangeEnd) includeAnonymous
      self.subtree.height self self)

end TreeSitter.Lib
