import TreeSitter.Lib.SyntaxTree

/-!
# TreeSitter.Lib.TreeCursor

**Tree cursors** (`lib/src/tree_cursor.c`). A cursor is a stack of entries, from the node at which
it stands up to the one at which it started, hidden nodes included; here the top is first. An
entry holds its subtree, where it starts, its index among its siblings with and without extras,
and the number of visible nodes before it.

The iterator over the children of an entry is given by the entries that it yields, call after
call (`iteratorEntries`). The subtree that an entry points to is told apart from equal ones by its
path, which is the `id` of a node.
-/

namespace TreeSitter.Lib

/-- `TreeCursorEntry`. -/
structure TreeCursorEntry where
  subtree : SyntaxTree
  position : Length
  childIndex : Nat
  structuralChildIndex : Nat
  descendantIndex : Nat

/-- `TSNode`: the subtree and its path, and the position and the alias of its context. -/
structure TSNode where
  id : List Nat
  subtree : SyntaxTree
  position : Length
  aliasSymbol : Nat

/-- `TreeCursorStep`, with the stack that the step leads to. -/
inductive CursorStep where
  | none
  | hidden (stack : List TreeCursorEntry)
  | visible (stack : List TreeCursorEntry)

variable (lang : TreeLanguage)

def entryAlias (entry parent : TreeCursorEntry) : Nat :=
  aliasOf lang parent.subtree.productionId entry.structuralChildIndex entry.subtree

/-- `ts_tree_cursor_is_entry_visible`, for the top of a stack. -/
def isEntryVisible : List TreeCursorEntry → Bool
  | entry :: parent :: _ => entry.subtree.visible || entryAlias lang entry parent ≠ 0
  | _ => true

/-! ### Iterating over children -/

/-- The position of the iterator behind a child: the next child starts after its padding. -/
def positionAfter (position : Length) (child : SyntaxTree) : List SyntaxTree → Length
  | [] => position.add child.size
  | next :: _ => (position.add child.size).add next.padding

/-- What `ts_tree_cursor_child_iterator_next` yields, from the first of `children` on: entries,
and whether they are visible. -/
def iteratorEntries (productionId : Nat) :
    List SyntaxTree → Length → Nat → Nat → Nat → List (TreeCursorEntry × Bool)
  | [], _, _, _, _ => []
  | child :: children, position, childIndex, structuralChildIndex, descendantIndex =>
    let visible := child.visible || aliasOf lang productionId structuralChildIndex child ≠ 0
    (⟨child, position, childIndex, structuralChildIndex, descendantIndex⟩, visible) ::
      iteratorEntries productionId children (positionAfter position child children)
        (childIndex + 1) (nextStructuralIndex structuralChildIndex child)
        (descendantIndex + child.visibleDescendantCount + if visible then 1 else 0)

/-- `ts_tree_cursor_iterate_children`, for the top of the stack. -/
def iterateChildren : List TreeCursorEntry → List (TreeCursorEntry × Bool)
  | [] => []
  | entry :: rest =>
    iteratorEntries lang entry.subtree.productionId entry.subtree.children entry.position 0 0
      (entry.descendantIndex + if isEntryVisible lang (entry :: rest) then 1 else 0)

/-- The iterator over the siblings of an entry, from the entry itself on. -/
def iterateSiblings (entry parent : TreeCursorEntry) : List (TreeCursorEntry × Bool) :=
  iteratorEntries lang parent.subtree.productionId (parent.subtree.children.drop entry.childIndex)
    entry.position entry.childIndex entry.structuralChildIndex entry.descendantIndex

/-- The step to an entry that the iterator has yielded, if the cursor can stand there or below. -/
def stepTo (stack : List TreeCursorEntry) (found : TreeCursorEntry × Bool) :
    Option CursorStep :=
  if found.2 then some (.visible (found.1 :: stack))
  else if found.1.subtree.visibleChildCount > 0 then some (.hidden (found.1 :: stack))
  else none

/-- `ts_tree_cursor_goto_first_child_internal`. -/
def gotoFirstChildInternal (stack : List TreeCursorEntry) : CursorStep :=
  ((iterateChildren lang stack).findSome? (stepTo stack)).getD .none

/-- The loop of `ts_tree_cursor_goto_first_child` and `ts_tree_cursor_goto_last_child`: as long
as the step leads to a hidden node, it goes on. Whether it ends at a visible node, and where. -/
def descend (step : List TreeCursorEntry → CursorStep) :
    Nat → List TreeCursorEntry → Bool × List TreeCursorEntry
  | 0, stack => (false, stack)
  | fuel + 1, stack =>
    match step stack with
    | .none => (false, stack)
    | .hidden stack => descend step fuel stack
    | .visible stack => (true, stack)

mutual

/-- The number of levels of a tree. -/
def SyntaxTree.height : SyntaxTree → Nat
  | .mk _ children => heights children + 1

/-- The number of levels of some trees. -/
def heights : List SyntaxTree → Nat
  | [] => 0
  | child :: children => max child.height (heights children)

end

/-- More levels than there are below the top of the stack. -/
def stackFuel : List TreeCursorEntry → Nat
  | [] => 0
  | entry :: _ => entry.subtree.height

/-- `ts_tree_cursor_goto_first_child`. -/
def gotoFirstChild (stack : List TreeCursorEntry) : Bool × List TreeCursorEntry :=
  descend (gotoFirstChildInternal lang) (stackFuel stack) stack

/-- The loop of `ts_tree_cursor_goto_sibling_internal` with the forward iterator: at the entry
itself and at its hidden ancestors, it looks for a later sibling. -/
def gotoNextSiblingFrom (isFirst : Bool) : List TreeCursorEntry → CursorStep
  | entry :: parent :: rest =>
    match iterateSiblings lang entry parent with
    | [] => gotoNextSiblingFrom false (parent :: rest)
    | (_, visible) :: later =>
      if visible && !isFirst then .none
      else
        match later.findSome? (stepTo (parent :: rest)) with
        | some step => step
        | none => gotoNextSiblingFrom false (parent :: rest)
  | _ => .none

/-- `ts_tree_cursor_goto_next_sibling_internal`. -/
def gotoNextSiblingInternal (stack : List TreeCursorEntry) : CursorStep :=
  gotoNextSiblingFrom lang true stack

/-- `ts_tree_cursor_goto_next_sibling`. -/
def gotoNextSibling (stack : List TreeCursorEntry) : Bool × List TreeCursorEntry :=
  match gotoNextSiblingInternal lang stack with
  | .none => (false, stack)
  | .hidden stack => (true, (gotoFirstChild lang stack).2)
  | .visible stack => (true, stack)

/-- The nearest visible entry of a stack, with what is above it. -/
def nearestVisible : List TreeCursorEntry → List TreeCursorEntry
  | [] => []
  | entry :: rest =>
    if isEntryVisible lang (entry :: rest) then entry :: rest else nearestVisible rest

/-- `ts_tree_cursor_goto_parent`: the stack afterwards, if there is a parent. -/
def gotoParent : List TreeCursorEntry → Option (List TreeCursorEntry)
  | _ :: parent :: rest => some (nearestVisible lang (parent :: rest))
  | _ => none

/-! ### The current node -/

/-- The path of the top of a stack: the indices of its entries below the first one. -/
def stackPath (stack : List TreeCursorEntry) : List Nat :=
  stack.dropLast.map TreeCursorEntry.childIndex

/-- `ts_tree_cursor_current_node`. -/
def currentNode (rootAliasSymbol : Nat) : List TreeCursorEntry → Option TSNode
  | [] => none
  | [entry] =>
    some ⟨[], entry.subtree, entry.position, if entry.subtree.extra then 0 else rootAliasSymbol⟩
  | entry :: parent :: rest =>
    some ⟨stackPath (entry :: parent :: rest), entry.subtree, entry.position,
      entryAlias lang entry parent⟩

/-- The loop of `ts_tree_cursor_parent_node`. Unlike elsewhere, extras may have an alias, and the
first entry has none. -/
def parentNodeFrom : List TreeCursorEntry → Option TSNode
  | [] => none
  | [entry] => some ⟨[], entry.subtree, entry.position, 0⟩
  | entry :: parent :: rest =>
    let aliasSymbol := lang.aliasAt parent.subtree.productionId entry.structuralChildIndex
    if aliasSymbol ≠ 0 ∨ entry.subtree.visible then
      some ⟨stackPath (entry :: parent :: rest), entry.subtree, entry.position, aliasSymbol⟩
    else parentNodeFrom (parent :: rest)

/-- `ts_tree_cursor_parent_node`. -/
def parentNode (stack : List TreeCursorEntry) : Option TSNode := parentNodeFrom lang stack.tail

/-! ### Fields -/

def fieldOf (productionId structuralChildIndex : Nat) : Option Nat :=
  ((lang.fieldMap productionId).find? fun entry =>
    !entry.inherited && entry.childIndex = structuralChildIndex).map FieldMapEntry.fieldId

/-- The loop of `ts_tree_cursor_current_field_id`. -/
def currentFieldIdFrom (isFirst : Bool) : List TreeCursorEntry → Nat
  | entry :: parent :: rest =>
    if !isFirst && isEntryVisible lang (entry :: parent :: rest) then 0
    else if entry.subtree.extra then 0
    else
      match fieldOf lang parent.subtree.productionId entry.structuralChildIndex with
      | some fieldId => fieldId
      | none => currentFieldIdFrom false (parent :: rest)
  | _ => 0

/-- `ts_tree_cursor_current_field_id`. -/
def currentFieldId (stack : List TreeCursorEntry) : Nat := currentFieldIdFrom lang true stack

/-- What `ts_tree_cursor_current_status` returns. -/
structure CursorStatus where
  fieldId : Nat
  hasLaterSiblings : Bool
  hasLaterNamedSiblings : Bool
  canHaveLaterSiblingsWithThisField : Bool
  supertypes : List Nat

/-- The symbol under which a child is shown. -/
def subtreeSymbol (productionId structuralIndex : Nat) (child : SyntaxTree) : Nat :=
  if aliasOf lang productionId structuralIndex child ≠ 0 then
    aliasOf lang productionId structuralIndex child
  else child.symbol

/-- The loop over later siblings in `ts_tree_cursor_current_status`. -/
def statusOfSiblings (productionId : Nat) :
    List SyntaxTree → Nat → CursorStatus → CursorStatus
  | [], _, status => status
  | sibling :: siblings, structuralIndex, status =>
    let metadata := lang.symbolMetadata (subtreeSymbol lang productionId structuralIndex sibling)
    let next := nextStructuralIndex structuralIndex sibling
    if metadata.visible then
      if metadata.named then
        { status with hasLaterSiblings := true, hasLaterNamedSiblings := true }
      else statusOfSiblings productionId siblings next { status with hasLaterSiblings := true }
    else if sibling.visibleChildCount > 0 then
      if sibling.namedChildCount > 0 then
        { status with hasLaterSiblings := true, hasLaterNamedSiblings := true }
      else statusOfSiblings productionId siblings next { status with hasLaterSiblings := true }
    else statusOfSiblings productionId siblings next status

/-- The siblings behind an entry, unless a named one is known already. -/
def statusOfLevel (entry parent : TreeCursorEntry) (status : CursorStatus) : CursorStatus :=
  if status.hasLaterNamedSiblings then status
  else
    statusOfSiblings lang parent.subtree.productionId
      (parent.subtree.children.drop (entry.childIndex + 1))
      (nextStructuralIndex entry.structuralChildIndex entry.subtree) status

/-- Records a supertype, if there is room for it. -/
def statusOfSupertype (maxSupertypes symbol : Nat) (status : CursorStatus) : CursorStatus :=
  if (lang.symbolMetadata symbol).supertype ∧ status.supertypes.length < maxSupertypes then
    { status with supertypes := status.supertypes ++ [symbol] }
  else status

/-- The field of an entry, and whether later siblings can have it too. -/
def statusOfField (entry parent : TreeCursorEntry) (status : CursorStatus) : CursorStatus :=
  if entry.subtree.extra then status
  else
    let fieldMap := lang.fieldMap parent.subtree.productionId
    let fieldId :=
      if status.fieldId ≠ 0 then status.fieldId
      else (fieldOf lang parent.subtree.productionId entry.structuralChildIndex).getD 0
    { status with
      fieldId
      canHaveLaterSiblingsWithThisField := status.canHaveLaterSiblingsWithThisField ||
        fieldId ≠ 0 && fieldMap.any fun mapEntry =>
          mapEntry.fieldId = fieldId && mapEntry.childIndex > entry.structuralChildIndex }

/-- The loop of `ts_tree_cursor_current_status`: the current node and its hidden ancestors. -/
def currentStatusFrom (maxSupertypes : Nat) (isFirst : Bool) :
    List TreeCursorEntry → CursorStatus → CursorStatus
  | entry :: parent :: rest, status =>
    let symbol := subtreeSymbol lang parent.subtree.productionId entry.structuralChildIndex
      entry.subtree
    if !isFirst && (lang.symbolMetadata symbol).visible then status
    else
      currentStatusFrom maxSupertypes false (parent :: rest)
        (statusOfField lang entry parent (statusOfLevel lang entry parent
            (statusOfSupertype lang maxSupertypes symbol status)))
  | _, status => status

/-- `ts_tree_cursor_current_status`. -/
def currentStatus (maxSupertypes : Nat) (stack : List TreeCursorEntry) : CursorStatus :=
  currentStatusFrom lang maxSupertypes true stack ⟨0, false, false, false, []⟩

end TreeSitter.Lib
