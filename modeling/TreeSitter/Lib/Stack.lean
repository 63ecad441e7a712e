import TreeSitter.Lib.Length

/-!
# TreeSitter.Lib.Stack

The **parse stack** of `stack.c`: a graph of nodes in which every node has links to its
predecessors, each labelled with a subtree, and one head for every version of the stack.

* `Stack.push` adds a node on top of a version;
* `Stack.iter` walks from a head along all links at once, and is what the functions that pop
  subtrees are made of;
* `addLink` adds a link to a node that others share, and merges predecessors that are alike;
  `Stack.merge` joins two versions with it.

Nodes stay in the list `nodes` and are named by their index. The reference counts and the pool of
nodes, which decide when the memory of a node is used again, are left out. A subtree is a handle,
and `SubtreeView` what the stack reads of it. An access outside of an array, a failed assertion and
a loop that takes more turns than the given number are `none`.
-/

namespace TreeSitter.Lib

/-- What the stack reads of a subtree. -/
structure SubtreeView where
  symbol : Nat
  padding : Length
  size : Length
  childCount : Nat
  errorCost : Nat
  visible : Bool
  extra : Bool
  visibleDescendantCount : Nat
  dynamicPrecedence : Int
  externalScannerState : List Nat

namespace SubtreeView

/-- `ts_builtin_sym_error`. -/
def symError : Nat := 2 ^ 16 - 1

/-- `ts_builtin_sym_error_repeat`. -/
def symErrorRepeat : Nat := symError - 1

/-- `ts_subtree_total_size`. -/
def totalSize (tree : SubtreeView) : Length := tree.padding.add tree.size

/-- `ts_subtree_total_bytes`. -/
def totalBytes (tree : SubtreeView) : Nat := tree.totalSize.bytes

/-- `ts_subtree_is_error`. -/
def isError (tree : SubtreeView) : Bool := tree.symbol = symError

/-- `stack__subtree_node_count`. -/
def nodeCount (tree : SubtreeView) : Nat :=
  let count := tree.visibleDescendantCount
  let count := if tree.visible then addU32 count 1 else count
  if tree.symbol = symErrorRepeat then addU32 count 1 else count

end SubtreeView

/-- `StackLink`. -/
structure StackLink (τ : Type) where
  node : Nat
  subtree : Option τ
  isPending : Bool
deriving DecidableEq

/-- `StackNode`. -/
structure StackNode (τ : Type) where
  state : Nat
  position : Length
  links : List (StackLink τ)
  errorCost : Nat
  nodeCount : Nat
  dynamicPrecedence : Int
deriving DecidableEq

/-- `StackStatus`. -/
inductive StackStatus where
  | active
  | paused
  | halted
deriving DecidableEq

/-- `StackSummaryEntry`. -/
structure StackSummaryEntry where
  position : Length
  depth : Nat
  state : Nat
deriving DecidableEq

/-- `StackHead`. -/
structure StackHead (τ : Type) where
  node : Nat
  summary : Option (List StackSummaryEntry)
  nodeCountAtLastError : Nat
  lastExternalToken : Option τ
  lookaheadWhenPaused : Option τ
  status : StackStatus
deriving DecidableEq

/-- `StackSlice`. -/
structure StackSlice (τ : Type) where
  subtrees : List τ
  version : Nat
deriving DecidableEq

/-- `StackIterator`. -/
structure StackIterator (τ : Type) where
  node : Nat
  subtrees : List τ
  subtreeCount : Nat
  isPending : Bool

/-- `Stack`. -/
structure Stack (τ : Type) where
  nodes : List (StackNode τ)
  heads : List (StackHead τ)
  baseNode : Nat
deriving DecidableEq

/-- `MAX_LINK_COUNT`. -/
def maxLinkCount : Nat := 8

/-- `MAX_ITERATOR_COUNT`. -/
def maxIteratorCount : Nat := 64

/-- `ERROR_STATE`. -/
def errorState : Nat := 0

variable {τ : Type} [DecidableEq τ] (view : τ → SubtreeView)

/-! ### Nodes and links -/

/-- `stack_node_new` without a previous node. -/
def StackNode.base (state : Nat) : StackNode τ where
  state := state
  position := .zero
  links := []
  errorCost := 0
  nodeCount := 0
  dynamicPrecedence := 0

/-- `stack_node_new` on top of a previous node, which is given with its index. -/
def StackNode.new (previousIndex : Nat) (previous : StackNode τ) (subtree : Option τ)
    (isPending : Bool) (state : Nat) : StackNode τ :=
  let links := [⟨previousIndex, subtree, isPending⟩]
  match subtree with
  | none =>
    { state, links, position := previous.position, errorCost := previous.errorCost
      nodeCount := previous.nodeCount, dynamicPrecedence := previous.dynamicPrecedence }
  | some tree =>
    { state, links
      position := previous.position.add (view tree).totalSize
      errorCost := addU32 previous.errorCost (view tree).errorCost
      nodeCount := addU32 previous.nodeCount (view tree).nodeCount
      dynamicPrecedence := addI32 previous.dynamicPrecedence (view tree).dynamicPrecedence }

/-- `ts_subtree_external_scanner_state`, which is empty for no subtree. -/
def externalScannerState (subtree : Option τ) : List Nat :=
  match subtree with
  | none => []
  | some tree => (view tree).externalScannerState

/-- `stack__subtree_is_equivalent`. -/
def subtreeIsEquivalent (left right : Option τ) : Bool :=
  if left = right then true
  else
    match left, right with
    | some l, some r =>
      if (view l).symbol ≠ (view r).symbol then false
      else if (view l).errorCost > 0 ∧ (view r).errorCost > 0 then true
      else
        (view l).padding.bytes = (view r).padding.bytes &&
        (view l).size.bytes = (view r).size.bytes &&
        (view l).childCount = (view r).childCount &&
        (view l).extra = (view r).extra &&
        (view l).externalScannerState = (view r).externalScannerState
    | _, _ => false

/-- Two nodes that can be merged: they have the same state, position and error cost. -/
def StackNode.mergeable (node node' : StackNode τ) : Bool :=
  node.state = node'.state && node.position.bytes = node'.position.bytes &&
  node.errorCost = node'.errorCost

/-- The loop of `stack_node_add_link`: the first link with an equivalent subtree that leads to the
same node or to one that can be merged. `source` is the node that the new link leads to. -/
def findLink (nodes : List (StackNode τ)) (link : StackLink τ) (source : StackNode τ) :
    List (StackLink τ) → Nat → Option (Option (Nat × StackLink τ))
  | [], _ => some none
  | existing :: links, i =>
    if subtreeIsEquivalent view existing.subtree link.subtree then
      if existing.node = link.node then some (some (i, existing))
      else do
        let node ← nodes[existing.node]?
        if node.mergeable source then some (some (i, existing))
        else findLink nodes link source links (i + 1)
    else findLink nodes link source links (i + 1)

/-- The dynamic precedence of a node, with that of a link's subtree added. -/
def StackNode.precedenceWith (node : StackNode τ) : Option τ → Int
  | none => node.dynamicPrecedence
  | some tree => addI32 node.dynamicPrecedence (view tree).dynamicPrecedence

/-- The node count of a node, with that of a link's subtree added. -/
def StackNode.countWith (node : StackNode τ) : Option τ → Nat
  | none => node.nodeCount
  | some tree => addU32 node.nodeCount (view tree).nodeCount

/-- The end of `stack_node_add_link`, with no link to merge with. -/
def appendLink (nodes : List (StackNode τ)) (self : Nat) (node source : StackNode τ)
    (link : StackLink τ) : List (StackNode τ) :=
  if node.links.length = maxLinkCount then nodes
  else
    let nodeCount := source.countWith view link.subtree
    let dynamicPrecedence := source.precedenceWith view link.subtree
    nodes.set self { node with
      links := node.links ++ [link]
      nodeCount := if nodeCount > node.nodeCount then nodeCount else node.nodeCount
      dynamicPrecedence :=
        if dynamicPrecedence > node.dynamicPrecedence then dynamicPrecedence
        else node.dynamicPrecedence }

/-- The part of `stack_node_add_link` for two links between the same nodes: the subtree with the
higher dynamic precedence stays. -/
def replaceLink (nodes : List (StackNode τ)) (self : Nat) (node source : StackNode τ) (i : Nat)
    (existing link : StackLink τ) : Option (List (StackNode τ)) := do
  let tree ← link.subtree
  let existingTree ← existing.subtree
  if (view tree).dynamicPrecedence > (view existingTree).dynamicPrecedence then
    some (nodes.set self { node with
      links := node.links.set i { existing with subtree := some tree }
      dynamicPrecedence := addI32 source.dynamicPrecedence (view tree).dynamicPrecedence })
  else some nodes

/-- The part of `stack_node_add_link` after predecessors were merged. -/
def raisePrecedence (nodes : List (StackNode τ)) (self : Nat) (link : StackLink τ) :
    Option (List (StackNode τ)) := do
  let source ← nodes[link.node]?
  let node ← nodes[self]?
  let dynamicPrecedence := source.precedenceWith view link.subtree
  if dynamicPrecedence > node.dynamicPrecedence then
    some (nodes.set self { node with dynamicPrecedence })
  else some nodes

mutual

/-- `stack_node_add_link`. -/
def addLink : Nat → List (StackNode τ) → Nat → StackLink τ → Option (List (StackNode τ))
  | 0, _, _, _ => none
  | fuel + 1, nodes, self, link =>
    if link.node = self then some nodes
    else do
      let node ← nodes[self]?
      let source ← nodes[link.node]?
      match ← findLink view nodes link source node.links 0 with
      | some (i, existing) =>
        if existing.node = link.node then replaceLink view nodes self node source i existing link
        else
          let nodes ← addLinks fuel nodes existing.node link.node 0
          raisePrecedence view nodes self link
      | none => some (appendLink view nodes self node source link)

def addLinks : Nat → List (StackNode τ) → Nat → Nat → Nat → Option (List (StackNode τ))
  | 0, _, _, _, _ => none
  | fuel + 1, nodes, self, source, j => do
      let node ← nodes[source]?
      match node.links[j]? with
      | none => some nodes
      | some link =>
        let nodes ← addLink fuel nodes self link
        addLinks fuel nodes self source (j + 1)

end

/-! ### Walking over the stack -/

def StackIterator.follow (iterator : StackIterator τ) (includeSubtrees : Bool)
    (link : StackLink τ) : StackIterator τ :=
  match link.subtree with
  | some tree =>
    { node := link.node
      subtrees := if includeSubtrees then iterator.subtrees ++ [tree] else iterator.subtrees
      subtreeCount :=
        if (view tree).extra then iterator.subtreeCount else iterator.subtreeCount + 1
      isPending := if !(view tree).extra && !link.isPending then false else iterator.isPending }
  | none =>
    { iterator with
      node := link.node, subtreeCount := iterator.subtreeCount + 1, isPending := false }

/-- The links of a node but the first: each gets an iterator of its own, while there are not too
many. -/
def followLinks (iterator : StackIterator τ) (includeSubtrees : Bool) :
    List (StackLink τ) → List (StackIterator τ) → List (StackIterator τ)
  | [], iterators => iterators
  | link :: links, iterators =>
    if iterators.length ≥ maxIteratorCount then
      followLinks iterator includeSubtrees links iterators
    else
      followLinks iterator includeSubtrees links
        (iterators ++ [iterator.follow view includeSubtrees link])

/-- What a walk changes: the heads, the slices, the iterators and the callback's own data. -/
structure StackWalk (τ σ : Type) where
  heads : List (StackHead τ)
  slices : List (StackSlice τ)
  iterators : List (StackIterator τ)
  payload : σ

/-- `StackCallback`: the new data, whether to pop and whether to stop. -/
def StackCallback (τ σ : Type) : Type :=
  σ → StackNode τ → StackIterator τ → σ × Bool × Bool

/-- `ts_stack__add_version`. -/
def addVersion (heads : List (StackHead τ)) (originalVersion node : Nat) :
    Option (List (StackHead τ)) := do
  let original ← heads[originalVersion]?
  some (heads ++ [{
    node, summary := none, nodeCountAtLastError := original.nodeCountAtLastError
    lastExternalToken := original.lastExternalToken, lookaheadWhenPaused := none
    status := .active }])

/-- The loop of `ts_stack__add_slice`, from the given number of slices down: the slice after which
one with the same node goes. -/
def findSlice (heads : List (StackHead τ)) (slices : List (StackSlice τ)) (node : Nat) :
    Nat → Option (Option (Nat × Nat))
  | 0 => some none
  | i + 1 => do
      let slice ← slices[i]?
      let head ← heads[slice.version]?
      if head.node = node then some (some (i, slice.version))
      else findSlice heads slices node i

/-- `ts_stack__add_slice`. -/
def addSlice (heads : List (StackHead τ)) (slices : List (StackSlice τ))
    (originalVersion node : Nat) (subtrees : List τ) :
    Option (List (StackHead τ) × List (StackSlice τ)) := do
  match ← findSlice heads slices node slices.length with
  | some (i, version) => some (heads, slices.insertIdx (i + 1) ⟨subtrees, version⟩)
  | none =>
    let heads' ← addVersion heads originalVersion node
    some (heads', slices ++ [⟨subtrees, heads.length⟩])

section Iter

variable {σ : Type} (nodes : List (StackNode τ)) (version : Nat) (callback : StackCallback τ σ)
  (includeSubtrees : Bool)

/-- One iterator of a round of `stack__iter`; the flag says that it was removed. -/
def iterOne (walk : StackWalk τ σ) (i : Nat) : Option (StackWalk τ σ × Bool) := do
  let iterator ← walk.iterators[i]?
  let node ← nodes[iterator.node]?
  let (payload, shouldPop, stop) := callback walk.payload node iterator
  let shouldStop := stop || node.links.length = 0
  let (heads, slices) ← (if shouldPop then
      addSlice walk.heads walk.slices version iterator.node iterator.subtrees.reverse
    else some (walk.heads, walk.slices))
  match node.links with
  | [] => some (⟨heads, slices, walk.iterators.eraseIdx i, payload⟩, true)
  | first :: links =>
    if shouldStop then some (⟨heads, slices, walk.iterators.eraseIdx i, payload⟩, true)
    else
      let iterators := followLinks view iterator includeSubtrees links walk.iterators
      let iterators := iterators.set i (iterator.follow view includeSubtrees first)
      some (⟨heads, slices, iterators, payload⟩, false)

/-- A round of `stack__iter`, over the given number of iterators from one on. -/
def iterRound : Nat → StackWalk τ σ → Nat → Option (StackWalk τ σ)
  | 0, walk, _ => some walk
  | count + 1, walk, i => do
      let (walk, removed) ← iterOne view nodes version callback includeSubtrees walk i
      iterRound count walk (if removed then i else i + 1)

/-- The rounds of `stack__iter`. -/
def iterRounds : Nat → StackWalk τ σ → Option (StackWalk τ σ)
  | 0, _ => none
  | fuel + 1, walk =>
    if walk.iterators.length > 0 then do
      let walk ← iterRound view nodes version callback includeSubtrees walk.iterators.length walk 0
      iterRounds fuel walk
    else some walk

end Iter

namespace Stack

/-- `stack__iter`. -/
def iter {σ : Type} (self : Stack τ) (fuel version : Nat) (callback : StackCallback τ σ)
    (payload : σ) (includeSubtrees : Bool) : Option (Stack τ × List (StackSlice τ) × σ) := do
  let head ← self.heads[version]?
  let walk ← iterRounds view self.nodes version callback includeSubtrees fuel
    ⟨self.heads, [], [⟨head.node, [], 0, true⟩], payload⟩
  some ({ self with heads := walk.heads }, walk.slices, walk.payload)

/-! ### The functions of the stack -/

/-- `ts_stack_clear`. -/
def clear (self : Stack τ) : Stack τ :=
  { self with
    heads := [{
      node := self.baseNode, summary := none, nodeCountAtLastError := 0
      lastExternalToken := none, lookaheadWhenPaused := none, status := .active }] }

/-- `ts_stack_new`. -/
def new : Stack τ := clear { nodes := [.base 1], heads := [], baseNode := 0 }

/-- `ts_stack_set_last_external_token`. -/
def setLastExternalToken (self : Stack τ) (version : Nat) (token : Option τ) :
    Option (Stack τ) := do
  let head ← self.heads[version]?
  some { self with heads := self.heads.set version { head with lastExternalToken := token } }

/-- `ts_stack_node_count_since_error`. -/
def nodeCountSinceError (self : Stack τ) (version : Nat) : Option (Stack τ × Nat) := do
  let head ← self.heads[version]?
  let node ← self.nodes[head.node]?
  if node.nodeCount < head.nodeCountAtLastError then
    some ({ self with
      heads := self.heads.set version { head with nodeCountAtLastError := node.nodeCount } }, 0)
  else some (self, node.nodeCount - head.nodeCountAtLastError)

/-- `ts_stack_push`. -/
def push (self : Stack τ) (version : Nat) (subtree : Option τ) (pending : Bool) (state : Nat) :
    Option (Stack τ) := do
  let head ← self.heads[version]?
  let previous ← self.nodes[head.node]?
  let newNode := StackNode.new view head.node previous subtree pending state
  let head :=
    if subtree.isNone then { head with nodeCountAtLastError := newNode.nodeCount } else head
  some { self with
    nodes := self.nodes ++ [newNode]
    heads := self.heads.set version { head with node := self.nodes.length } }

/-- `ts_stack_remove_version`. -/
def removeVersion (self : Stack τ) (version : Nat) : Option (Stack τ) := do
  let _ ← self.heads[version]?
  some { self with heads := self.heads.eraseIdx version }

/-- `ts_stack_renumber_version`. -/
def renumberVersion (self : Stack τ) (v1 v2 : Nat) : Option (Stack τ) :=
  if v1 = v2 then some self
  else if v2 < v1 then do
    let source ← self.heads[v1]?
    let target ← self.heads[v2]?
    let source :=
      if target.summary.isSome && source.summary.isNone then
        { source with summary := target.summary }
      else source
    some { self with heads := (self.heads.set v2 source).eraseIdx v1 }
  else none

/-- `ts_stack_swap_versions`. -/
def swapVersions (self : Stack τ) (v1 v2 : Nat) : Option (Stack τ) := do
  let head1 ← self.heads[v1]?
  let head2 ← self.heads[v2]?
  some { self with heads := (self.heads.set v1 head2).set v2 head1 }

/-- `ts_stack_copy_version`. -/
def copyVersion (self : Stack τ) (version : Nat) : Option (Stack τ × Nat) := do
  let head ← self.heads[version]?
  some ({ self with heads := self.heads ++ [{ head with summary := none }] }, self.heads.length)

/-- `pop_count_callback`. -/
def popCountCallback (count : Nat) : StackCallback τ Unit := fun _ _ iterator =>
  if iterator.subtreeCount = count then ((), true, true) else ((), false, false)

/-- `ts_stack_pop_count`. -/
def popCount (self : Stack τ) (fuel version count : Nat) :
    Option (Stack τ × List (StackSlice τ)) := do
  let (self, slices, _) ← self.iter view fuel version (popCountCallback count) () true
  some (self, slices)

/-- `pop_pending_callback`. -/
def popPendingCallback : StackCallback τ Unit := fun _ _ iterator =>
  if iterator.subtreeCount ≥ 1 then
    if iterator.isPending then ((), true, true) else ((), false, true)
  else ((), false, false)

/-- `ts_stack_pop_pending`. -/
def popPending (self : Stack τ) (fuel version : Nat) :
    Option (Stack τ × List (StackSlice τ)) := do
  let (self, slices, _) ← self.iter view fuel version popPendingCallback () true
  match slices with
  | [] => some (self, [])
  | slice :: slices =>
    let self ← self.renumberVersion slice.version version
    some (self, { slice with version } :: slices)

/-- `pop_error_callback`. -/
def popErrorCallback : StackCallback τ Bool := fun foundError _ iterator =>
  match iterator.subtrees with
  | [] => (foundError, false, false)
  | tree :: _ =>
    if !foundError && (view tree).isError then (true, true, true) else (foundError, false, true)

/-- `ts_stack_pop_error`. -/
def popError (self : Stack τ) (fuel version : Nat) : Option (Stack τ × List τ) := do
  let head ← self.heads[version]?
  let node ← self.nodes[head.node]?
  if node.links.any fun link => link.subtree.any fun tree => (view tree).isError then
    let (self, slices, _) ← self.iter view fuel version (popErrorCallback view) false true
    match slices with
    | [] => some (self, [])
    | [slice] =>
      let self ← self.renumberVersion slice.version version
      some (self, slice.subtrees)
    | _ => none
  else some (self, [])

/-- `pop_all_callback`. -/
def popAllCallback : StackCallback τ Unit := fun _ node _ => ((), node.links.length = 0, false)

/-- `ts_stack_pop_all`. -/
def popAll (self : Stack τ) (fuel version : Nat) : Option (Stack τ × List (StackSlice τ)) := do
  let (self, slices, _) ← self.iter view fuel version popAllCallback () true
  some (self, slices)

/-- The loop of `summarize_stack_callback`, from the last entry: an entry of the same depth and
state. -/
def summaryHas (depth state : Nat) : List StackSummaryEntry → Bool
  | [] => false
  | entry :: entries =>
    if entry.depth < depth then false
    else if entry.depth = depth ∧ entry.state = state then true
    else summaryHas depth state entries

/-- `summarize_stack_callback`; the summary is kept with its last entry first. -/
def summarizeStackCallback (maxDepth : Nat) : StackCallback τ (List StackSummaryEntry) :=
  fun summary node iterator =>
    let depth := iterator.subtreeCount
    if depth > maxDepth then (summary, false, true)
    else if summaryHas depth node.state summary then (summary, false, false)
    else (⟨node.position, depth, node.state⟩ :: summary, false, false)

/-- `ts_stack_record_summary`. -/
def recordSummary (self : Stack τ) (fuel version maxDepth : Nat) : Option (Stack τ) := do
  let (self, _, summary) ←
    self.iter view fuel version (summarizeStackCallback maxDepth) [] false
  let head ← self.heads[version]?
  some { self with
    heads := self.heads.set version { head with summary := some summary.reverse } }

/-- `ts_stack_can_merge`. -/
def canMerge (self : Stack τ) (version1 version2 : Nat) : Option Bool := do
  let head1 ← self.heads[version1]?
  let head2 ← self.heads[version2]?
  let node1 ← self.nodes[head1.node]?
  let node2 ← self.nodes[head2.node]?
  some (head1.status = .active && head2.status = .active && node1.mergeable node2 &&
    externalScannerState view head1.lastExternalToken =
      externalScannerState view head2.lastExternalToken)

/-- `ts_stack_merge`. -/
def merge (self : Stack τ) (fuel version1 version2 : Nat) : Option (Stack τ × Bool) := do
  if ← self.canMerge view version1 version2 then
    let head1 ← self.heads[version1]?
    let head2 ← self.heads[version2]?
    let nodes ← addLinks view fuel self.nodes head1.node head2.node 0
    let node1 ← nodes[head1.node]?
    let head1 :=
      if node1.state = errorState then { head1 with nodeCountAtLastError := node1.nodeCount }
      else head1
    let self ← removeVersion { self with nodes, heads := self.heads.set version1 head1 } version2
    some (self, true)
  else some (self, false)

/-- `ts_stack_halt`. -/
def halt (self : Stack τ) (version : Nat) : Option (Stack τ) := do
  let head ← self.heads[version]?
  some { self with heads := self.heads.set version { head with status := .halted } }

/-- `ts_stack_pause`. -/
def pause (self : Stack τ) (version : Nat) (lookahead : Option τ) : Option (Stack τ) := do
  let head ← self.heads[version]?
  let node ← self.nodes[head.node]?
  some { self with
    heads := self.heads.set version { head with
      status := .paused, lookaheadWhenPaused := lookahead
      nodeCountAtLastError := node.nodeCount } }

/-- `ts_stack_resume`. -/
def resume (self : Stack τ) (version : Nat) : Option (Stack τ × Option τ) := do
  let head ← self.heads[version]?
  if head.status = .paused then
    some ({ self with
      heads := self.heads.set version { head with
        status := .active, lookaheadWhenPaused := none } }, head.lookaheadWhenPaused)
  else none

end Stack

end TreeSitter.Lib
