import TreeSitter.Lib.Language
import TreeSitter.Lib.Subtree
import TreeSitter.Lib.SyntaxTree

/-!
# TreeSitter.Lib.Subtree.Summarize

`ts_subtree_summarize_children` with all the fields that it assigns, and what a **second run** on
the same children changes. Balancing runs it again on nodes that have been summarised before.

The size of the node is read before it is assigned: whether the first child makes the node depend
on its column is decided by the size that the node had before. A second run therefore loses the
first child's dependency if the node spans a line break. Fragility is only ever added, so it stays
whatever it was (`resummarize_iff`).
-/

namespace TreeSitter.Lib

/-- Multiplication of `uint32_t`. -/
def mulU32 (a b : Nat) : Nat := a * b % 2 ^ 32

/-- `TS_TREE_STATE_NONE`. -/
def treeStateNone : Nat := 2 ^ 16 - 1

def errorCostPerRecovery : Nat := 500
def errorCostPerSkippedTree : Nat := 100
def errorCostPerSkippedLine : Nat := 30
def errorCostPerSkippedChar : Nat := 1

/-- What the accessors of `subtree.h` say about a child. -/
structure ChildFacts where
  symbol : Nat
  visible : Bool
  named : Bool
  extra : Bool
  padding : Length
  size : Length
  lookaheadBytes : Nat
  errorCost : Nat
  childCount : Nat
  visibleChildCount : Nat
  namedChildCount : Nat
  visibleDescendantCount : Nat
  dynamicPrecedence : Int
  repeatDepth : Nat
  hasExternalTokens : Bool
  hasExternalScannerStateChange : Bool
  dependsOnColumn : Bool
  fragileLeft : Bool
  fragileRight : Bool
  leafSymbol : Nat
  leafParseState : Nat
deriving DecidableEq

/-- `ts_subtree_total_size`. -/
def ChildFacts.totalSize (child : ChildFacts) : Length := child.padding.add child.size

/-- `ts_subtree_is_error`. -/
def ChildFacts.isError (child : ChildFacts) : Bool := child.symbol == builtinSymError

/-- `SubtreeHeapData` of an inner node, of what is read or assigned. -/
structure InnerNode where
  symbol : Nat
  productionId : Nat
  visible : Bool
  named : Bool
  parseState : Nat
  padding : Length
  size : Length
  lookaheadBytes : Nat
  errorCost : Nat
  fragileLeft : Bool
  fragileRight : Bool
  hasExternalTokens : Bool
  hasExternalScannerStateChange : Bool
  dependsOnColumn : Bool
  visibleChildCount : Nat
  namedChildCount : Nat
  visibleDescendantCount : Nat
  dynamicPrecedence : Int
  repeatDepth : Nat
  firstLeafSymbol : Nat
  firstLeafParseState : Nat

namespace InnerNode

variable (lang : TreeLanguage)

/-- Whether the node is `ERROR` or `_ERROR`. -/
def isErrorNode (node : InnerNode) : Bool :=
  node.symbol == builtinSymError || node.symbol == builtinSymErrorRepeat

/-- `ts_subtree__error_extent_cost`. -/
def errorExtentCost (size : Length) : Nat :=
  addU32 (addU32 errorCostPerRecovery (mulU32 errorCostPerSkippedChar size.bytes))
    (mulU32 errorCostPerSkippedLine size.extent.row)

/-- The fields that are reset first. -/
def reset (node : InnerNode) : InnerNode :=
  { node with
    namedChildCount := 0, visibleChildCount := 0, errorCost := 0, repeatDepth := 0
    visibleDescendantCount := 0, hasExternalTokens := false, dependsOnColumn := false
    hasExternalScannerStateChange := false, dynamicPrecedence := 0 }

def errorCostWith (node : InnerNode) (child : ChildFacts) : Nat :=
  if child.symbol = builtinSymErrorRepeat then
    addU32 node.errorCost (subU32 child.errorCost (errorExtentCost child.size))
  else
    let errorCost := addU32 node.errorCost child.errorCost
    if node.isErrorNode ∧ ¬ child.extra ∧ ¬ (child.isError ∧ child.childCount = 0) then
      if child.visible then addU32 errorCost errorCostPerSkippedTree
      else if child.childCount > 0 then
        addU32 errorCost (mulU32 errorCostPerSkippedTree child.visibleChildCount)
      else errorCost
    else errorCost

/-- The counts with those of a child: of visible and named children and of visible descendants. -/
def countsWith (node : InnerNode) (structuralIndex : Nat) (child : ChildFacts) : Nat × Nat × Nat :=
  let descendants := addU32 node.visibleDescendantCount child.visibleDescendantCount
  let childAlias := lang.aliasAt node.productionId structuralIndex
  if ¬ child.extra ∧ child.symbol ≠ 0 ∧ childAlias ≠ 0 then
    (addU32 node.visibleChildCount 1,
      if (lang.symbolMetadata childAlias).named then addU32 node.namedChildCount 1
      else node.namedChildCount,
      addU32 descendants 1)
  else if child.visible then
    (addU32 node.visibleChildCount 1,
      if child.named then addU32 node.namedChildCount 1 else node.namedChildCount,
      addU32 descendants 1)
  else if child.childCount > 0 then
    (addU32 node.visibleChildCount child.visibleChildCount,
      addU32 node.namedChildCount child.namedChildCount, descendants)
  else (node.visibleChildCount, node.namedChildCount, descendants)

end InnerNode

/-- The variables of the loop: the node and two locals. -/
structure SummaryLoop where
  node : InnerNode
  structuralIndex : Nat
  lookaheadEndByte : Nat

namespace SummaryLoop

variable (lang : TreeLanguage)

/-- The body of the loop; the first child gives its padding and size to the node. -/
def addChild (isFirst : Bool) (loop : SummaryLoop) (child : ChildFacts) : SummaryLoop :=
  let node := loop.node
  let padding := if isFirst then child.padding else node.padding
  let size := if isFirst then child.size else node.size.add child.totalSize
  let childLookaheadEndByte := addU32 (addU32 padding.bytes size.bytes) child.lookaheadBytes
  let (visibleChildCount, namedChildCount, visibleDescendantCount) :=
    node.countsWith lang loop.structuralIndex child
  { node := { node with
      -- The size is the one that the node had before this child.
      dependsOnColumn :=
        node.dependsOnColumn || (node.size.extent.row == 0 && child.dependsOnColumn)
      hasExternalScannerStateChange :=
        node.hasExternalScannerStateChange || child.hasExternalScannerStateChange
      padding
      size
      errorCost := node.errorCostWith child
      dynamicPrecedence := addI32 node.dynamicPrecedence child.dynamicPrecedence
      visibleChildCount
      namedChildCount
      visibleDescendantCount
      hasExternalTokens := node.hasExternalTokens || child.hasExternalTokens
      fragileLeft := node.fragileLeft || child.isError
      fragileRight := node.fragileRight || child.isError
      parseState := if child.isError then treeStateNone else node.parseState }
    structuralIndex :=
      if child.extra then loop.structuralIndex else loop.structuralIndex + 1
    lookaheadEndByte := max loop.lookaheadEndByte childLookaheadEndByte }

end SummaryLoop

namespace InnerNode

variable (lang : TreeLanguage)

/-- What is assigned behind the loop. -/
def finish (first last : ChildFacts) (childCount : Nat) (loop : SummaryLoop) : InnerNode :=
  let node := loop.node
  { node with
    lookaheadBytes := subU32 (subU32 loop.lookaheadEndByte node.size.bytes) node.padding.bytes
    errorCost :=
      if node.isErrorNode then addU32 node.errorCost (errorExtentCost node.size)
      else node.errorCost
    firstLeafSymbol := first.leafSymbol
    firstLeafParseState := first.leafParseState
    fragileLeft := node.fragileLeft || first.fragileLeft
    fragileRight := node.fragileRight || last.fragileRight
    repeatDepth :=
      if childCount ≥ 2 ∧ ¬ node.visible ∧ ¬ node.named ∧ first.symbol = node.symbol then
        if first.repeatDepth > last.repeatDepth then (first.repeatDepth + 1) % 2 ^ 16
        else (last.repeatDepth + 1) % 2 ^ 16
      else node.repeatDepth }

/-- `ts_subtree_summarize_children`, of a node with children. -/
def summarizeChildren (node : InnerNode) (first : ChildFacts) (rest : List ChildFacts) :
    InnerNode :=
  finish first ((first :: rest).getLast (List.cons_ne_nil _ _)) (rest.length + 1)
    (rest.foldl (SummaryLoop.addChild lang false)
      (SummaryLoop.addChild lang true ⟨node.reset, 0, 0⟩ first))

/-- The data of a new node, with its size and all counts 0. -/
def initial (symbol productionId : Nat) (visible named fragile : Bool) : InnerNode where
  symbol := symbol
  productionId := productionId
  visible := visible
  named := named
  parseState := 0
  padding := .zero
  size := .zero
  lookaheadBytes := 0
  errorCost := 0
  fragileLeft := fragile
  fragileRight := fragile
  hasExternalTokens := false
  hasExternalScannerStateChange := false
  dependsOnColumn := false
  visibleChildCount := 0
  namedChildCount := 0
  visibleDescendantCount := 0
  dynamicPrecedence := 0
  repeatDepth := 0
  firstLeafSymbol := 0
  firstLeafParseState := 0

/-- `ts_subtree_new_node`, of a node with children. -/
def new (symbol productionId : Nat) (first : ChildFacts) (rest : List ChildFacts) : InnerNode :=
  let metadata := lang.symbolMetadata symbol
  summarizeChildren lang
    (initial symbol productionId metadata.visible metadata.named
      (symbol == builtinSymError || symbol == builtinSymErrorRepeat)) first rest

end InnerNode

/-! ### Parts of the loop

`Lib.summarizeChildren` has the lengths, and `summarizeChildrenFrom` the counts as numbers. -/

/-- What is said of a child is what it has, of the fields that editing reads. -/
structure ChildFacts.OfSubtree (facts : ChildFacts) (child : Subtree) : Prop where
  padding : facts.padding = child.padding
  size : facts.size = child.size
  lookaheadBytes : facts.lookaheadBytes = child.lookaheadBytes

/-- What is said of a child is what it has, of the fields that are read to show it. -/
structure ChildFacts.OfSyntaxTree (facts : ChildFacts) (child : SyntaxTree) : Prop where
  symbol : facts.symbol = child.symbol
  visible : facts.visible = child.visible
  named : facts.named = child.named
  extra : facts.extra = child.extra
  childCount : facts.childCount = child.children.length
  visibleChildCount : facts.visibleChildCount = child.data.visibleChildCount
  namedChildCount : facts.namedChildCount = child.data.namedChildCount
  visibleDescendantCount : facts.visibleDescendantCount = child.visibleDescendantCount

namespace SummaryLoop

variable {lang : TreeLanguage}

/-- The lengths so far. -/
def lengths (loop : SummaryLoop) : Summary :=
  ⟨loop.node.padding, loop.node.size, loop.lookaheadEndByte⟩

theorem lengths_addChild {loop : SummaryLoop} {facts : ChildFacts} {child : Subtree}
    (h : facts.OfSubtree child) :
    (loop.addChild lang false facts).lengths = loop.lengths.addChild child := by
  simp [lengths, addChild, Summary.addChild, ChildFacts.totalSize, Subtree.totalSize, h.padding,
    h.size, h.lookaheadBytes]

/-- **The lengths of a node** are those that `Lib.summarizeChildren` has. -/
theorem lengths_eq_summarizeChildren (node : InnerNode) {first : ChildFacts}
    {rest : List ChildFacts} {child : Subtree} {children : List Subtree}
    (hfirst : first.OfSubtree child) (hrest : List.Forall₂ ChildFacts.OfSubtree rest children) :
    (rest.foldl (addChild lang false) (addChild lang true ⟨node, 0, 0⟩ first)).lengths =
      summarizeChildren child children := by
  have hfold : ∀ loop : SummaryLoop, (rest.foldl (addChild lang false) loop).lengths =
      children.foldl Summary.addChild loop.lengths := by
    induction hrest with
    | nil => exact fun _ => rfl
    | cons hchild _ ih =>
      intro loop
      rw [List.foldl_cons, ih, lengths_addChild hchild, List.foldl_cons]
  rw [hfold, summarizeChildren]
  simp [lengths, addChild, hfirst.padding, hfirst.size, hfirst.lookaheadBytes]

/-- The counts so far. -/
def counts (loop : SummaryLoop) : ChildCounts :=
  ⟨loop.node.visibleChildCount, loop.node.namedChildCount, loop.node.visibleDescendantCount⟩

theorem counts_addChild {isFirst : Bool} {loop : SummaryLoop} {facts : ChildFacts}
    {child : SyntaxTree} (h : facts.OfSyntaxTree child)
    (hfits : (loop.counts.addChild lang loop.node.productionId loop.structuralIndex child).Fits) :
    (loop.addChild lang isFirst facts).counts =
        loop.counts.addChild lang loop.node.productionId loop.structuralIndex child ∧
      (loop.addChild lang isFirst facts).structuralIndex =
        nextStructuralIndex loop.structuralIndex child := by
  refine ⟨?_, by rw [nextStructuralIndex, ← h.extra]; rfl⟩
  simp only [ChildCounts.addChild, aliasOf, ← h.symbol, ← h.visible, ← h.named, ← h.extra,
    ← h.visibleDescendantCount, SyntaxTree.visibleChildCount, SyntaxTree.namedChildCount,
    ← h.childCount, ← h.visibleChildCount, ← h.namedChildCount] at hfits ⊢
  simp only [counts, addChild, InnerNode.countsWith] at hfits ⊢
  -- An alias counts as one child, a visible child as one, and a hidden one as its children.
  cases hextra : facts.extra <;> simp only [hextra, if_true, Bool.false_eq_true, if_false, ne_eq,
      not_true_eq_false, not_false_eq_true, and_false, false_and, true_and] at hfits ⊢ <;>
    split_ifs at hfits ⊢ <;> simp only [ChildCounts.Fits] at hfits <;>
    simp (disch := omega) only [addU32_of_lt, Nat.add_zero]

theorem counts_foldl {facts : List ChildFacts} {children : List SyntaxTree}
    (h : List.Forall₂ ChildFacts.OfSyntaxTree facts children) (loop : SummaryLoop)
    (hfits : (summarizeChildrenFrom lang loop.node.productionId loop.structuralIndex loop.counts
      children).Fits) :
    (facts.foldl (addChild lang false) loop).counts =
      summarizeChildrenFrom lang loop.node.productionId loop.structuralIndex loop.counts
        children := by
  induction h generalizing loop with
  | nil => rfl
  | @cons fact child facts children hchild _ ih =>
    obtain ⟨hcounts, hindex⟩ := @counts_addChild lang false loop _ _ hchild
      (ChildCounts.Fits.of_summarizeChildrenFrom hfits)
    rw [List.foldl_cons, ih (loop.addChild lang false fact), hcounts, hindex]
    · rfl
    · rw [hcounts, hindex]
      exact hfits

/-- **The counts of a node** are those that `summarizeChildrenFrom` has, if none wraps around. -/
theorem counts_eq_summarizeChildrenFrom (node : InnerNode) {first : ChildFacts}
    {rest : List ChildFacts} {child : SyntaxTree} {children : List SyntaxTree}
    (hfirst : first.OfSyntaxTree child)
    (hrest : List.Forall₂ ChildFacts.OfSyntaxTree rest children)
    (hfits : (summarizeChildrenFrom lang node.productionId 0 ⟨0, 0, 0⟩ (child :: children)).Fits) :
    (rest.foldl (addChild lang false) (addChild lang true ⟨node.reset, 0, 0⟩ first)).counts =
      summarizeChildrenFrom lang node.productionId 0 ⟨0, 0, 0⟩ (child :: children) := by
  obtain ⟨hcounts, hindex⟩ := @counts_addChild lang true ⟨node.reset, 0, 0⟩ _ _ hfirst
    (ChildCounts.Fits.of_summarizeChildrenFrom hfits)
  rw [counts_foldl hrest, hcounts, hindex]
  · rfl
  · rw [hcounts, hindex]
    exact hfits

end SummaryLoop

/-! ### What is read of the node -/

/-- The size of some children together, the padding of the first one apart. -/
def childrenSize (first : ChildFacts) (rest : List ChildFacts) : Length :=
  rest.foldl (fun size child => size.add child.totalSize) first.size

/-- Whether one of some children depends on its column, and those before it end in the first row of
the node; `size` is the size of those before all of them. -/
def laterDependsOnColumn : Length → List ChildFacts → Bool
  | _, [] => false
  | size, child :: rest =>
    (size.extent.row == 0 && child.dependsOnColumn) ||
      laterDependsOnColumn (size.add child.totalSize) rest

/-- The fields that the loop leaves alone or only adds to. -/
structure KeptFields where
  dependsOnColumn : Bool
  fragileLeft : Bool
  fragileRight : Bool
  parseState : Nat
  lookaheadBytes : Nat
  firstLeafSymbol : Nat
  firstLeafParseState : Nat

namespace KeptFields

def addChild (kept : KeptFields) (size : Length) (child : ChildFacts) : KeptFields :=
  { kept with
    dependsOnColumn := kept.dependsOnColumn || (size.extent.row == 0 && child.dependsOnColumn)
    fragileLeft := kept.fragileLeft || child.isError
    fragileRight := kept.fragileRight || child.isError
    parseState := if child.isError then treeStateNone else kept.parseState }

def addChildren (kept : KeptFields) (size : Length) (children : List ChildFacts) : KeptFields :=
  { kept with
    dependsOnColumn := kept.dependsOnColumn || laterDependsOnColumn size children
    fragileLeft := kept.fragileLeft || children.any ChildFacts.isError
    fragileRight := kept.fragileRight || children.any ChildFacts.isError
    parseState := if children.any ChildFacts.isError then treeStateNone else kept.parseState }

theorem addChildren_cons (kept : KeptFields) (size : Length) (child : ChildFacts)
    (rest : List ChildFacts) :
    (kept.addChild size child).addChildren (size.add child.totalSize) rest =
      kept.addChildren size (child :: rest) := by
  simp only [addChildren, addChild, laterDependsOnColumn, List.any_cons, Bool.or_assoc]
  by_cases herror : child.isError
  · simp [herror]
  · simp [herror]

end KeptFields

namespace InnerNode

def withKept (node : InnerNode) (kept : KeptFields) : InnerNode :=
  { node with
    dependsOnColumn := kept.dependsOnColumn
    fragileLeft := kept.fragileLeft
    fragileRight := kept.fragileRight
    parseState := kept.parseState
    lookaheadBytes := kept.lookaheadBytes
    firstLeafSymbol := kept.firstLeafSymbol
    firstLeafParseState := kept.firstLeafParseState }

/-- The node with nothing in it but what it is. -/
def blank (node : InnerNode) : InnerNode :=
  initial node.symbol node.productionId node.visible node.named false

end InnerNode

namespace SummaryLoop

variable (lang : TreeLanguage)

/-- The loop with these fields in its node. -/
def withKept (loop : SummaryLoop) (kept : KeptFields) : SummaryLoop :=
  { loop with node := loop.node.withKept kept }

theorem addChild_withKept (isFirst : Bool) (loop : SummaryLoop) (kept : KeptFields)
    (child : ChildFacts) :
    (loop.withKept kept).addChild lang isFirst child =
      (loop.addChild lang isFirst child).withKept (kept.addChild loop.node.size child) := rfl

theorem foldl_addChild_withKept (loop : SummaryLoop) (kept : KeptFields)
    (children : List ChildFacts) :
    children.foldl (addChild lang false) (loop.withKept kept) =
      (children.foldl (addChild lang false) loop).withKept
        (kept.addChildren loop.node.size children) := by
  induction children generalizing loop kept with
  | nil => simp [KeptFields.addChildren, laterDependsOnColumn]
  | cons child children ih =>
    rw [List.foldl_cons, addChild_withKept, ih, List.foldl_cons,
      ← KeptFields.addChildren_cons]
    rfl

theorem foldl_addChild_size (loop : SummaryLoop) (children : List ChildFacts) :
    (children.foldl (addChild lang false) loop).node.size =
      children.foldl (fun size child => size.add child.totalSize) loop.node.size := by
  induction children generalizing loop with
  | nil => rfl
  | cons child children ih => exact ih (loop.addChild lang false child)

theorem foldl_addChild_blank (loop : SummaryLoop) (children : List ChildFacts) :
    (children.foldl (addChild lang false) loop).node.blank = loop.node.blank := by
  induction children generalizing loop with
  | nil => rfl
  | cons child children ih => exact ih (loop.addChild lang false child)

end SummaryLoop

namespace InnerNode

variable (lang : TreeLanguage)

/-- The node with what a summary adds to what was there before. -/
def withMarks (node : InnerNode) (dependsOnColumn fragileLeft fragileRight : Bool)
    (parseState : Nat) : InnerNode :=
  { node with dependsOnColumn, fragileLeft, fragileRight, parseState }

def anyError (first : ChildFacts) (rest : List ChildFacts) : Bool :=
  first.isError || rest.any ChildFacts.isError

/-- All that a summary has from the node, apart from its symbol and production. -/
theorem summarizeChildren_eq (node : InnerNode) (first : ChildFacts) (rest : List ChildFacts) :
    node.summarizeChildren lang first rest =
      (node.blank.summarizeChildren lang first rest).withMarks
        ((node.size.extent.row == 0 && first.dependsOnColumn) ||
          laterDependsOnColumn first.size rest)
        (node.fragileLeft || anyError first rest || first.fragileLeft)
        (node.fragileRight || anyError first rest ||
          ((first :: rest).getLast (List.cons_ne_nil _ _)).fragileRight)
        (if anyError first rest then treeStateNone else node.parseState) := by
  have hfirst (node : InnerNode) :
      SummaryLoop.addChild lang true ⟨node.reset, 0, 0⟩ first =
        (SummaryLoop.addChild lang true ⟨node.blank.reset, 0, 0⟩ first).withKept
          (KeptFields.addChild ⟨false, node.fragileLeft, node.fragileRight, node.parseState,
            node.lookaheadBytes, node.firstLeafSymbol, node.firstLeafParseState⟩ node.size
            first) := rfl
  rw [summarizeChildren, hfirst, SummaryLoop.foldl_addChild_withKept, summarizeChildren]
  have hsize : (SummaryLoop.addChild lang true ⟨node.blank, 0, 0⟩ first).node.size =
      first.size := rfl
  have hblank : node.blank.reset = node.blank := rfl
  simp only [finish, SummaryLoop.withKept, withKept, withMarks, KeptFields.addChildren,
    KeptFields.addChild, anyError, hblank, hsize, isErrorNode, Bool.false_or, Bool.or_assoc]
  by_cases herror : first.isError
  · simp [herror]
  · simp [herror]

/-! ### Running it again -/

theorem summarizeChildren_blank (node : InnerNode) (first : ChildFacts) (rest : List ChildFacts) :
    (node.summarizeChildren lang first rest).blank = node.blank := by
  have h := SummaryLoop.foldl_addChild_blank lang
    (SummaryLoop.addChild lang true ⟨node.reset, 0, 0⟩ first) rest
  exact h

theorem summarizeChildren_size (node : InnerNode) (first : ChildFacts) (rest : List ChildFacts) :
    (node.summarizeChildren lang first rest).size = childrenSize first rest :=
  SummaryLoop.foldl_addChild_size lang
    (SummaryLoop.addChild lang true ⟨node.reset, 0, 0⟩ first) rest

/-- A second run on the same children changes nothing. -/
def Idempotent (node : InnerNode) (first : ChildFacts) (rest : List ChildFacts) : Prop :=
  (node.summarizeChildren lang first rest).summarizeChildren lang first rest =
    node.summarizeChildren lang first rest

/-- The summary in a node: all but the parse state, which is the parser's. -/
def summary (node : InnerNode) : InnerNode := { node with parseState := 0 }

/-- The new summary has nothing of the one before: a node of the same symbol, with its metadata, and
the same production gets the same one, whatever else is stored in it. -/
def OnlyOfChildren (node : InnerNode) (first : ChildFacts) (rest : List ChildFacts) : Prop :=
  ∀ node' : InnerNode, node'.blank = node.blank →
    (node'.summarizeChildren lang first rest).summary =
      (node.summarizeChildren lang first rest).summary

/-- The children make both sides of the node fragile. -/
def FragileChildren (first : ChildFacts) (rest : List ChildFacts) : Prop :=
  anyError first rest = true ∨ first.fragileLeft = true ∧
    ((first :: rest).getLast (List.cons_ne_nil _ _)).fragileRight = true

variable {lang}

variable {node : InnerNode}

theorem withMarks_inj {depends left right depends' left' right' : Bool}
    {parseState parseState' : Nat} :
    node.withMarks depends left right parseState =
        node.withMarks depends' left' right' parseState' ↔
      depends = depends' ∧ left = left' ∧ right = right' ∧ parseState = parseState' := by
  simp [withMarks]
  tauto

theorem dependsOnColumn_eq_iff {row row' : Nat} {depends later : Bool} :
    ((row == 0 && depends) || later) = ((row' == 0 && depends) || later) ↔
      (depends = false ∨ later = true) ∨ (row' = 0 ↔ row = 0) := by
  cases depends <;> cases later <;> by_cases h : row = 0 <;> by_cases h' : row' = 0 <;>
    simp [h, h']

variable {rest : List ChildFacts} {first : ChildFacts}

theorem idempotent_iff :
    node.Idempotent lang first rest ↔
      (first.dependsOnColumn = false ∨ laterDependsOnColumn first.size rest = true) ∨
        (node.size.extent.row = 0 ↔ (childrenSize first rest).extent.row = 0) := by
  have hmarks := summarizeChildren_eq lang node first rest
  have hagain := summarizeChildren_eq lang (node.summarizeChildren lang first rest) first rest
  rw [summarizeChildren_blank, summarizeChildren_size, hmarks] at hagain
  rw [Idempotent, hmarks, hagain, withMarks_inj, dependsOnColumn_eq_iff]
  refine and_iff_left ⟨?_, ?_, ?_⟩
  · cases node.fragileLeft <;> cases anyError first rest <;> cases first.fragileLeft <;> rfl
  · generalize ((first :: rest).getLast (List.cons_ne_nil _ _)).fragileRight = right
    cases node.fragileRight <;> cases anyError first rest <;> cases right <;> rfl
  · split <;> rfl

theorem summary_withMarks_inj {depends left right depends' left' right' : Bool}
    {parseState parseState' : Nat} :
    (node.withMarks depends left right parseState).summary =
        (node.withMarks depends' left' right' parseState').summary ↔
      depends = depends' ∧ left = left' ∧ right = right' := by
  simp [withMarks, summary]
  tauto

theorem or_or_eq_iff {stored stored' error side : Bool} :
    (stored' || error || side) = (stored || error || side) ↔
      (error = true ∨ side = true) ∨ stored' = stored := by
  cases stored <;> cases stored' <;> cases error <;> cases side <;> decide

/-- Two nodes of one symbol and production may get different summaries only through their sizes and
their fragility. -/
theorem summary_summarizeChildren_eq_iff {node' : InnerNode} (h : node'.blank = node.blank) :
    (node'.summarizeChildren lang first rest).summary =
        (node.summarizeChildren lang first rest).summary ↔
      ((first.dependsOnColumn = false ∨ laterDependsOnColumn first.size rest = true) ∨
        (node.size.extent.row = 0 ↔ node'.size.extent.row = 0)) ∧
      ((anyError first rest = true ∨ first.fragileLeft = true) ∨
        node'.fragileLeft = node.fragileLeft) ∧
      ((anyError first rest = true ∨
          ((first :: rest).getLast (List.cons_ne_nil _ _)).fragileRight = true) ∨
        node'.fragileRight = node.fragileRight) := by
  rw [summarizeChildren_eq lang node', summarizeChildren_eq lang node, h, summary_withMarks_inj,
    dependsOnColumn_eq_iff, or_or_eq_iff, or_or_eq_iff]

/-- What was stored before is left out exactly if the dependency of the first child does not matter
and the children are fragile anyway. -/
theorem onlyOfChildren_iff :
    node.OnlyOfChildren lang first rest ↔
      (first.dependsOnColumn = false ∨ laterDependsOnColumn first.size rest = true) ∧
        FragileChildren first rest := by
  constructor
  · intro h
    -- Nodes that differ in whether the size spans a line break, and in what is fragile.
    let row := if node.size.extent.row = 0 then 1 else 0
    have hsize : { node with size := ⟨0, ⟨row, 0⟩⟩ }.blank = node.blank := rfl
    have hleft : { node with fragileLeft := !node.fragileLeft }.blank = node.blank := rfl
    have hright : { node with fragileRight := !node.fragileRight }.blank = node.blank := rfl
    replace hsize := (summary_summarizeChildren_eq_iff hsize).mp (h _ hsize)
    replace hleft := (summary_summarizeChildren_eq_iff hleft).mp (h _ hleft)
    replace hright := (summary_summarizeChildren_eq_iff hright).mp (h _ hright)
    refine ⟨hsize.1.resolve_right fun hiff => ?_, ?_⟩
    · by_cases hzero : node.size.extent.row = 0
      · simp [row, hzero] at hiff
      · simp [row, hzero] at hiff
    · have hleft' := hleft.2.1.resolve_right (by simp)
      have hright' := hright.2.2.resolve_right (by simp)
      rw [FragileChildren, or_and_left]
      exact ⟨hleft', hright'⟩
  · rintro ⟨hdepends, hfragile⟩ node' hsame
    rw [FragileChildren, or_and_left] at hfragile
    exact (summary_summarizeChildren_eq_iff hsame).mpr
      ⟨.inl hdepends, .inl hfragile.1, .inl hfragile.2⟩

/-- **Summarising again.** A second run on the same children changes nothing exactly if the first
child does not depend on its column, or one that does follows children that end in the first row,
or the size that the node had and that of its children agree on whether they span a line break. In
the first two cases, if the children make the node fragile on both sides, and in no others, nothing
of what was stored is left in the new summary. -/
theorem resummarize_iff {node : InnerNode} {first : ChildFacts} {rest : List ChildFacts} :
    (node.Idempotent lang first rest ↔
      (first.dependsOnColumn = false ∨ laterDependsOnColumn first.size rest = true) ∨
        (node.size.extent.row = 0 ↔ (childrenSize first rest).extent.row = 0)) ∧
    (node.OnlyOfChildren lang first rest ↔
      (first.dependsOnColumn = false ∨ laterDependsOnColumn first.size rest = true) ∧
        FragileChildren first rest) :=
  ⟨idempotent_iff, onlyOfChildren_iff⟩

/-- A leaf of one byte that depends on its column. -/
def columnLeaf : ChildFacts where
  symbol := 1
  visible := true
  named := true
  extra := false
  padding := .zero
  size := ⟨1, ⟨0, 1⟩⟩
  lookaheadBytes := 1
  errorCost := 0
  childCount := 0
  visibleChildCount := 0
  namedChildCount := 0
  visibleDescendantCount := 0
  dynamicPrecedence := 0
  repeatDepth := 0
  hasExternalTokens := true
  hasExternalScannerStateChange := false
  dependsOnColumn := true
  fragileLeft := false
  fragileRight := false
  leafSymbol := 1
  leafParseState := 1

/-- A new node of a leaf that depends on its column and one in the next row loses the dependency
when it is summarised again. -/
theorem exists_new_not_idempotent : ∃ (lang : TreeLanguage) (first last : ChildFacts),
    (new lang 2 0 first [last]).dependsOnColumn = true ∧
      ((new lang 2 0 first [last]).summarizeChildren lang first [last]).dependsOnColumn = false ∧
      ¬ (initial 2 0 false false false).Idempotent lang first [last] := by
  refine ⟨⟨0, fun _ => 0, fun _ => ⟨false, false, false⟩, fun _ => []⟩, columnLeaf,
    { columnLeaf with padding := ⟨1, ⟨1, 0⟩⟩, dependsOnColumn := false }, rfl, rfl, fun h => ?_⟩
  exact absurd (congrArg dependsOnColumn h) (by decide)

end InnerNode

end TreeSitter.Lib
