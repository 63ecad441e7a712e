import TreeSitter.Lib.Subtree.Summarize

/-!
# TreeSitter.Lib.Subtree.ErrorGroups

Skipped trees may be **grouped**: consecutive children of an `ERROR` node, or of an `_ERROR` node
inside of it, are wrapped in an `_ERROR` node. What the `ERROR` node says about its children as a
whole does not depend on that.

Its numbers are sums over the children (`Accumulates`). A group adds to a sum what its own children
would add; for the error cost this is what the refund of the group's extent penalty is for. The
sums are modulo `2 ^ 32`, so that only the refund itself and the rows of the extents need the
numbers to fit into 32 bits.
-/

namespace TreeSitter.Lib

open List

/-! ### Groups -/

namespace InnerNode

/-- What the accessors say about a node with children, which is not an extra. -/
def facts (node : InnerNode) (childCount : Nat) : ChildFacts where
  symbol := node.symbol
  visible := node.visible
  named := node.named
  extra := false
  padding := node.padding
  size := node.size
  lookaheadBytes := node.lookaheadBytes
  errorCost := node.errorCost
  childCount := childCount
  visibleChildCount := node.visibleChildCount
  namedChildCount := node.namedChildCount
  visibleDescendantCount := node.visibleDescendantCount
  dynamicPrecedence := node.dynamicPrecedence
  repeatDepth := node.repeatDepth
  hasExternalTokens := node.hasExternalTokens
  hasExternalScannerStateChange := node.hasExternalScannerStateChange
  dependsOnColumn := node.dependsOnColumn
  fragileLeft := node.fragileLeft
  fragileRight := node.fragileRight
  leafSymbol := node.firstLeafSymbol
  leafParseState := node.firstLeafParseState

end InnerNode

variable (lang : TreeLanguage)

/-- An `_ERROR` node of some children. -/
def errorRepeatOf (first : ChildFacts) (rest : List ChildFacts) : ChildFacts :=
  (InnerNode.new lang builtinSymErrorRepeat 0 first rest).facts (rest.length + 1)

/-- Runs of children have been wrapped in `_ERROR` nodes, one after the other; a run may have such
nodes in it. -/
inductive Grouped (children : List ChildFacts) : List ChildFacts → Prop where
  | same : Grouped children children
  | wrap {front rest back : List ChildFacts} {first : ChildFacts}
      (h : Grouped children (front ++ first :: (rest ++ back))) :
      Grouped children (front ++ errorRepeatOf lang first rest :: back)

/-- The numbers of the node are the same. -/
structure SameNumbers (node node' : InnerNode) : Prop where
  errorCost : node.errorCost = node'.errorCost
  size : node.size = node'.size
  padding : node.padding = node'.padding
  visibleChildCount : node.visibleChildCount = node'.visibleChildCount
  namedChildCount : node.namedChildCount = node'.namedChildCount
  visibleDescendantCount : node.visibleDescendantCount = node'.visibleDescendantCount

/-- The refund for an `_ERROR` child is not more than its cost. -/
def ChildFacts.Refundable (child : ChildFacts) : Prop :=
  child.symbol = builtinSymErrorRepeat → InnerNode.errorExtentCost child.size ≤ child.errorCost

/-! ### What a child adds -/

namespace ChildFacts

/-- What a child adds to the cost of an error node. -/
def skipCost (child : ChildFacts) : Nat :=
  if child.symbol = builtinSymErrorRepeat then
    subU32 child.errorCost (InnerNode.errorExtentCost child.size)
  else
    child.errorCost +
      if ¬ child.extra ∧ ¬ (child.isError ∧ child.childCount = 0) then
        if child.visible then errorCostPerSkippedTree
        else if child.childCount > 0 then errorCostPerSkippedTree * child.visibleChildCount
        else 0
      else 0

def visibleWeight (child : ChildFacts) : Nat :=
  if child.visible then 1 else if child.childCount > 0 then child.visibleChildCount else 0

def namedWeight (child : ChildFacts) : Nat :=
  if child.visible then if child.named then 1 else 0
  else if child.childCount > 0 then child.namedChildCount
  else 0

/-- What a child adds to the count of visible descendants. -/
def descendantWeight (child : ChildFacts) : Nat :=
  child.visibleDescendantCount + if child.visible then 1 else 0

def totalBytes (child : ChildFacts) : Nat := child.padding.bytes + child.size.bytes

def totalRows (child : ChildFacts) : Nat := child.padding.extent.row + child.size.extent.row

end ChildFacts

def sumOf (weight : ChildFacts → Nat) (children : List ChildFacts) : Nat :=
  (children.map weight).sum

@[simp] theorem sumOf_cons (weight : ChildFacts → Nat) (child : ChildFacts)
    (children : List ChildFacts) :
    sumOf weight (child :: children) = weight child + sumOf weight children := by
  simp [sumOf]

@[simp] theorem sumOf_append (weight : ChildFacts → Nat) (children children' : List ChildFacts) :
    sumOf weight (children ++ children') = sumOf weight children + sumOf weight children' := by
  simp [sumOf]

/-- The bytes behind the padding of the first child. -/
def spanBytes : List ChildFacts → Nat
  | [] => 0
  | first :: rest => first.size.bytes + sumOf ChildFacts.totalBytes rest

/-- The rows behind the padding of the first child. -/
def spanRows : List ChildFacts → Nat
  | [] => 0
  | first :: rest => first.size.extent.row + sumOf ChildFacts.totalRows rest

/-- The cost of an error node of the children fits into 32 bits. -/
def CostFits (children : List ChildFacts) : Prop :=
  errorCostPerRecovery + errorCostPerSkippedChar * spanBytes children +
    errorCostPerSkippedLine * spanRows children + sumOf ChildFacts.skipCost children < 2 ^ 32

/-! ### Numbers that are sums -/

/-- A number of an error node that each child adds something to. -/
structure Accumulates (number : InnerNode → Nat) (weight : ChildFacts → Nat) : Prop where
  reset : ∀ node : InnerNode, number node.reset = 0
  add : ∀ (isFirst : Bool) (loop : SummaryLoop) (child : ChildFacts),
    loop.node.isErrorNode = true → loop.node.productionId = 0 →
    number (loop.addChild lang isFirst child).node ≡ number loop.node + weight child [MOD 2 ^ 32]
  lt : ∀ (isFirst : Bool) (loop : SummaryLoop) (child : ChildFacts),
    number loop.node < 2 ^ 32 → number (loop.addChild lang isFirst child).node < 2 ^ 32

variable {lang}

theorem addU32_modEq (a b : Nat) : addU32 a b ≡ a + b [MOD 2 ^ 32] := Nat.mod_modEq _ _

theorem mulU32_modEq (a b : Nat) : mulU32 a b ≡ a * b [MOD 2 ^ 32] := Nat.mod_modEq _ _

theorem addU32_lt_twoPow (a b : Nat) : addU32 a b < 2 ^ 32 := Nat.mod_lt _ (by decide)

variable {weight : ChildFacts → Nat} {number : InnerNode → Nat}

theorem Accumulates.foldl (h : Accumulates lang number weight) (loop : SummaryLoop)
    (children : List ChildFacts) (herror : loop.node.isErrorNode = true)
    (hproduction : loop.node.productionId = 0) (hlt : number loop.node < 2 ^ 32) :
    number (children.foldl (SummaryLoop.addChild lang false) loop).node =
      (number loop.node + sumOf weight children) % 2 ^ 32 := by
  induction children generalizing loop with
  | nil => exact (Nat.mod_eq_of_lt hlt).symm
  | cons child children ih =>
    rw [foldl_cons, ih (loop.addChild lang false child) herror hproduction
      (h.lt false loop child hlt), sumOf_cons, ← Nat.add_assoc]
    exact (h.add false loop child herror hproduction).add_right _

theorem errorCost_accumulates :
    Accumulates lang InnerNode.errorCost ChildFacts.skipCost where
  reset := fun _ => rfl
  add := by
    intro isFirst loop child herror hproduction
    have hcost : (loop.addChild lang isFirst child).node.errorCost =
        loop.node.errorCostWith child := rfl
    rw [hcost, InnerNode.errorCostWith, ChildFacts.skipCost]
    simp only [herror, true_and]
    split_ifs
    · exact addU32_modEq _ _
    · exact (addU32_modEq _ _).trans (by
        rw [← Nat.add_assoc]; exact (addU32_modEq _ _).add_right _)
    · refine (addU32_modEq _ _).trans ?_
      rw [← Nat.add_assoc]
      exact (addU32_modEq _ _).add (mulU32_modEq _ _)
    · exact addU32_modEq _ _
    · exact addU32_modEq _ _
  lt := by
    intro isFirst loop child hlt
    have hcost : (loop.addChild lang isFirst child).node.errorCost =
        loop.node.errorCostWith child := rfl
    rw [hcost, InnerNode.errorCostWith]
    split_ifs <;> exact addU32_lt_twoPow _ _

theorem countsWith_eq {node : InnerNode} (hproduction : node.productionId = 0)
    (structuralIndex : Nat) (child : ChildFacts) :
    node.countsWith lang structuralIndex child =
      let descendants := addU32 node.visibleDescendantCount child.visibleDescendantCount
      if child.visible then
        (addU32 node.visibleChildCount 1,
          if child.named then addU32 node.namedChildCount 1 else node.namedChildCount,
          addU32 descendants 1)
      else if child.childCount > 0 then
        (addU32 node.visibleChildCount child.visibleChildCount,
          addU32 node.namedChildCount child.namedChildCount, descendants)
      else (node.visibleChildCount, node.namedChildCount, descendants) := by
  rw [InnerNode.countsWith, hproduction]
  exact if_neg fun halias => halias.2.2 rfl

theorem countsWith_modEq {node : InnerNode} (hproduction : node.productionId = 0)
    (structuralIndex : Nat) (child : ChildFacts) :
    (node.countsWith lang structuralIndex child).1 ≡
        node.visibleChildCount + child.visibleWeight [MOD 2 ^ 32] ∧
      (node.countsWith lang structuralIndex child).2.1 ≡
        node.namedChildCount + child.namedWeight [MOD 2 ^ 32] ∧
      (node.countsWith lang structuralIndex child).2.2 ≡
        node.visibleDescendantCount + child.descendantWeight [MOD 2 ^ 32] := by
  have hdescendants := addU32_modEq node.visibleDescendantCount child.visibleDescendantCount
  rw [countsWith_eq hproduction, ChildFacts.visibleWeight, ChildFacts.namedWeight,
    ChildFacts.descendantWeight]
  by_cases hvisible : child.visible
  · simp only [if_pos hvisible]
    refine ⟨addU32_modEq _ _, ?_, ?_⟩
    · split
      · exact addU32_modEq _ _
      · exact Nat.ModEq.rfl
    · rw [← Nat.add_assoc]
      exact (addU32_modEq _ _).trans (hdescendants.add_right _)
  · simp only [if_neg hvisible]
    by_cases hcount : child.childCount > 0
    · simp only [if_pos hcount]
      exact ⟨addU32_modEq _ _, addU32_modEq _ _, hdescendants⟩
    · simp only [if_neg hcount]
      exact ⟨Nat.ModEq.rfl, Nat.ModEq.rfl, hdescendants⟩

theorem countsWith_lt (node : InnerNode) (structuralIndex : Nat) (child : ChildFacts) :
    (node.visibleChildCount < 2 ^ 32 → (node.countsWith lang structuralIndex child).1 < 2 ^ 32) ∧
      (node.namedChildCount < 2 ^ 32 → (node.countsWith lang structuralIndex child).2.1 < 2 ^ 32) ∧
      (node.countsWith lang structuralIndex child).2.2 < 2 ^ 32 := by
  have hadd := addU32_lt_twoPow
  rw [InnerNode.countsWith]
  split_ifs
  · exact ⟨fun _ => hadd _ _, fun _ => hadd _ _, hadd _ _⟩
  · exact ⟨fun _ => hadd _ _, id, hadd _ _⟩
  · exact ⟨fun _ => hadd _ _, fun _ => hadd _ _, hadd _ _⟩
  · exact ⟨fun _ => hadd _ _, id, hadd _ _⟩
  · exact ⟨fun _ => hadd _ _, fun _ => hadd _ _, hadd _ _⟩
  · exact ⟨id, id, hadd _ _⟩

theorem visibleChildCount_accumulates :
    Accumulates lang InnerNode.visibleChildCount ChildFacts.visibleWeight where
  reset := fun _ => rfl
  add := fun _ loop child _ hproduction =>
    (countsWith_modEq hproduction loop.structuralIndex child).1
  lt := fun _ loop child => (countsWith_lt loop.node loop.structuralIndex child).1

theorem namedChildCount_accumulates :
    Accumulates lang InnerNode.namedChildCount ChildFacts.namedWeight where
  reset := fun _ => rfl
  add := fun _ loop child _ hproduction =>
    (countsWith_modEq hproduction loop.structuralIndex child).2.1
  lt := fun _ loop child => (countsWith_lt loop.node loop.structuralIndex child).2.1

theorem visibleDescendantCount_accumulates :
    Accumulates lang InnerNode.visibleDescendantCount ChildFacts.descendantWeight where
  reset := fun _ => rfl
  add := fun _ loop child _ hproduction =>
    (countsWith_modEq hproduction loop.structuralIndex child).2.2
  lt := fun _ loop child _ => (countsWith_lt loop.node loop.structuralIndex child).2.2

/-! ### The numbers of an error node -/

/-- A new error node, before its children are looked at. -/
def errorInitial (lang : TreeLanguage) (symbol : Nat) : InnerNode :=
  InnerNode.initial symbol 0 (lang.symbolMetadata symbol).visible (lang.symbolMetadata symbol).named
    (symbol == builtinSymError || symbol == builtinSymErrorRepeat)

def errorLoop (lang : TreeLanguage) (symbol : Nat) (first : ChildFacts) (rest : List ChildFacts) :
    SummaryLoop :=
  rest.foldl (SummaryLoop.addChild lang false)
    (SummaryLoop.addChild lang true ⟨(errorInitial lang symbol).reset, 0, 0⟩ first)

/-- `ERROR` and `_ERROR`. -/
def IsErrorSymbol (symbol : Nat) : Prop :=
  symbol = builtinSymError ∨ symbol = builtinSymErrorRepeat

variable {symbol : Nat}

theorem isErrorNode_errorInitial (hsymbol : IsErrorSymbol symbol) :
    (errorInitial lang symbol).reset.isErrorNode = true := by
  have hnode : (errorInitial lang symbol).reset.symbol = symbol := rfl
  rw [InnerNode.isErrorNode, hnode]
  simpa [IsErrorSymbol] using hsymbol

theorem Accumulates.errorLoop (h : Accumulates lang number weight)
    (hsymbol : IsErrorSymbol symbol) (first : ChildFacts) (rest : List ChildFacts) :
    number (errorLoop lang symbol first rest).node =
      sumOf weight (first :: rest) % 2 ^ 32 := by
  have herror := @isErrorNode_errorInitial lang symbol hsymbol
  have hzero : number (errorInitial lang symbol).reset = 0 := h.reset _
  have hfirst := h.add true ⟨(errorInitial lang symbol).reset, 0, 0⟩ first herror rfl
  have hlt := h.lt true ⟨(errorInitial lang symbol).reset, 0, 0⟩ first (by rw [hzero]; decide)
  rw [TreeSitter.Lib.errorLoop, h.foldl _ rest herror rfl hlt, sumOf_cons]
  rw [hzero, Nat.zero_add] at hfirst
  exact hfirst.add_right _

theorem new_eq_finish (symbol : Nat) (first : ChildFacts) (rest : List ChildFacts) :
    InnerNode.new lang symbol 0 first rest =
      InnerNode.finish first ((first :: rest).getLast (cons_ne_nil _ _)) (rest.length + 1)
        (errorLoop lang symbol first rest) := rfl

theorem errorLoop_size (symbol : Nat) (first : ChildFacts) (rest : List ChildFacts) :
    (errorLoop lang symbol first rest).node.size = childrenSize first rest :=
  SummaryLoop.foldl_addChild_size lang _ rest

theorem errorLoop_padding (symbol : Nat) (first : ChildFacts) (rest : List ChildFacts) :
    (errorLoop lang symbol first rest).node.padding = first.padding := by
  have hfoldl (loop : SummaryLoop) :
      (rest.foldl (SummaryLoop.addChild lang false) loop).node.padding = loop.node.padding := by
    induction rest generalizing loop with
    | nil => rfl
    | cons child rest ih => exact ih (loop.addChild lang false child)
  exact hfoldl _

theorem new_errorCost (hsymbol : IsErrorSymbol symbol) (first : ChildFacts)
    (rest : List ChildFacts) :
    (InnerNode.new lang symbol 0 first rest).errorCost =
      addU32 (sumOf ChildFacts.skipCost (first :: rest) % 2 ^ 32)
        (InnerNode.errorExtentCost (childrenSize first rest)) := by
  have hblank := SummaryLoop.foldl_addChild_blank lang (SummaryLoop.addChild lang true
    ⟨(errorInitial lang symbol).reset, 0, 0⟩ first) rest
  have hkept : (errorLoop lang symbol first rest).node.symbol = symbol :=
    congrArg InnerNode.symbol hblank
  have herror : (errorLoop lang symbol first rest).node.isErrorNode = true := by
    rw [InnerNode.isErrorNode, hkept]
    simpa [IsErrorSymbol] using hsymbol
  rw [new_eq_finish, InnerNode.finish]
  simp only [herror, if_true]
  rw [errorCost_accumulates.errorLoop hsymbol, errorLoop_size]

/-! ### What a group adds -/

theorem errorRepeatOf_symbol (first : ChildFacts) (rest : List ChildFacts) :
    (errorRepeatOf lang first rest).symbol = builtinSymErrorRepeat :=
  congrArg InnerNode.symbol
    (InnerNode.summarizeChildren_blank lang (errorInitial lang builtinSymErrorRepeat) first rest)

theorem errorRepeatOf_visible (first : ChildFacts) (rest : List ChildFacts) :
    (errorRepeatOf lang first rest).visible =
      (lang.symbolMetadata builtinSymErrorRepeat).visible :=
  congrArg InnerNode.visible
    (InnerNode.summarizeChildren_blank lang (errorInitial lang builtinSymErrorRepeat) first rest)

theorem errorRepeatOf_size (first : ChildFacts) (rest : List ChildFacts) :
    (errorRepeatOf lang first rest).size = childrenSize first rest :=
  errorLoop_size builtinSymErrorRepeat first rest

theorem errorRepeatOf_padding (first : ChildFacts) (rest : List ChildFacts) :
    (errorRepeatOf lang first rest).padding = first.padding :=
  errorLoop_padding builtinSymErrorRepeat first rest

theorem errorRepeatOf_errorCost (first : ChildFacts) (rest : List ChildFacts) :
    (errorRepeatOf lang first rest).errorCost =
      addU32 (sumOf ChildFacts.skipCost (first :: rest) % 2 ^ 32)
        (InnerNode.errorExtentCost (childrenSize first rest)) :=
  new_errorCost (.inr rfl) first rest

theorem subU32_addU32 {a b : Nat} (ha : a < 2 ^ 32) (hb : b < 2 ^ 32) :
    subU32 (addU32 a b) b = a := by
  rw [subU32, addU32]
  split <;> omega

theorem errorRepeatOf_skipCost (first : ChildFacts) (rest : List ChildFacts) :
    (errorRepeatOf lang first rest).skipCost =
      sumOf ChildFacts.skipCost (first :: rest) % 2 ^ 32 := by
  rw [ChildFacts.skipCost, if_pos (errorRepeatOf_symbol first rest), errorRepeatOf_errorCost,
    errorRepeatOf_size]
  exact subU32_addU32 (Nat.mod_lt _ (by decide)) (addU32_lt_twoPow _ _)

section

variable (hhidden : (lang.symbolMetadata builtinSymErrorRepeat).visible = false)

include hhidden

theorem errorRepeatOf_visibleWeight (first : ChildFacts) (rest : List ChildFacts) :
    (errorRepeatOf lang first rest).visibleWeight =
      sumOf ChildFacts.visibleWeight (first :: rest) % 2 ^ 32 := by
  have hvisible := (errorRepeatOf_visible first rest).trans hhidden
  have hcount : (errorRepeatOf lang first rest).childCount > 0 := Nat.succ_pos rest.length
  rw [ChildFacts.visibleWeight, if_neg (by simp [hvisible]), if_pos hcount]
  exact visibleChildCount_accumulates.errorLoop (.inr rfl) first rest

theorem errorRepeatOf_namedWeight (first : ChildFacts) (rest : List ChildFacts) :
    (errorRepeatOf lang first rest).namedWeight =
      sumOf ChildFacts.namedWeight (first :: rest) % 2 ^ 32 := by
  have hvisible := (errorRepeatOf_visible first rest).trans hhidden
  have hcount : (errorRepeatOf lang first rest).childCount > 0 := Nat.succ_pos rest.length
  rw [ChildFacts.namedWeight, if_neg (by simp [hvisible]), if_pos hcount]
  exact namedChildCount_accumulates.errorLoop (.inr rfl) first rest

theorem errorRepeatOf_descendantWeight (first : ChildFacts) (rest : List ChildFacts) :
    (errorRepeatOf lang first rest).descendantWeight =
      sumOf ChildFacts.descendantWeight (first :: rest) % 2 ^ 32 := by
  have hvisible := (errorRepeatOf_visible first rest).trans hhidden
  rw [ChildFacts.descendantWeight, if_neg (by simp [hvisible])]
  exact visibleDescendantCount_accumulates.errorLoop (.inr rfl) first rest

end

theorem Grouped.sumOf_modEq {children grouped : List ChildFacts} (hweight : ∀ first rest, weight
      (errorRepeatOf lang first rest) = sumOf weight (first :: rest) % 2 ^ 32)
    (h : Grouped lang children grouped) :
    sumOf weight grouped ≡ sumOf weight children [MOD 2 ^ 32] := by
  induction h with
  | same => exact Nat.ModEq.rfl
  | @wrap front rest back first h ih =>
    refine Nat.ModEq.trans ?_ ih
    have hgroup : weight (errorRepeatOf lang first rest) ≡ sumOf weight (first :: rest)
        [MOD 2 ^ 32] := by
      rw [hweight]
      exact Nat.mod_modEq _ _
    rw [sumOf_append, sumOf_append, ← cons_append, sumOf_append, sumOf_cons]
    exact (hgroup.add_right _).add_left _

/-- Groups do not make a sum greater, if none adds more than its children add. -/
theorem Grouped.sumOf_le {children grouped : List ChildFacts} (hweight : ∀ first rest, weight
      (errorRepeatOf lang first rest) ≤ sumOf weight (first :: rest))
    (h : Grouped lang children grouped) :
    sumOf weight grouped ≤ sumOf weight children := by
  induction h with
  | same => exact le_rfl
  | @wrap front rest back first h ih =>
    refine le_trans ?_ ih
    have hgroup := hweight first rest
    rw [sumOf_append, sumOf_append, ← cons_append, sumOf_append, sumOf_cons]
    omega

theorem Accumulates.grouped (h : Accumulates lang number weight) (hweight : ∀ first rest, weight
      (errorRepeatOf lang first rest) = sumOf weight (first :: rest) % 2 ^ 32)
    {first first' : ChildFacts} {rest rest' : List ChildFacts}
    (hgrouped : Grouped lang (first :: rest) (first' :: rest')) :
    number (TreeSitter.Lib.errorLoop lang builtinSymError first' rest').node =
      number (TreeSitter.Lib.errorLoop lang builtinSymError first rest).node := by
  rw [h.errorLoop (.inl rfl), h.errorLoop (.inl rfl)]
  exact hgrouped.sumOf_modEq hweight

/-! ### The extents -/

def addTotals (front : Length) (children : List ChildFacts) : Length :=
  children.foldl (fun size child => size.add child.totalSize) front

theorem Length.add_bytes_le (a b : Length) : (a.add b).bytes ≤ a.bytes + b.bytes := Nat.mod_le _ _

theorem Length.add_row_le (a b : Length) :
    (a.add b).extent.row ≤ a.extent.row + b.extent.row := by
  rw [Length.add, Point.add]
  split
  · exact Nat.mod_le _ _
  · exact Nat.le_add_right _ _

theorem addTotals_le {measure : Length → Nat}
    (hadd : ∀ a b : Length, measure (a.add b) ≤ measure a + measure b)
    (front : Length) (children : List ChildFacts) :
    measure (addTotals front children) ≤
      measure front + sumOf (fun child => measure child.padding + measure child.size) children := by
  induction children generalizing front with
  | nil => exact le_rfl
  | cons child children ih =>
    have hfront := hadd front child.totalSize
    have hchild := hadd child.padding child.size
    have hrest := ih (front.add child.totalSize)
    rw [sumOf_cons]
    rw [ChildFacts.totalSize] at hfront hrest
    exact le_trans hrest (by omega)

theorem addU32_assoc (a b c : Nat) : addU32 (addU32 a b) c = addU32 a (addU32 b c) := by
  rw [addU32, addU32, addU32, addU32]
  omega

theorem Length.add_assoc' (a : Length) {b c : Length}
    (hrows : b.extent.row + c.extent.row < 2 ^ 32) :
    (a.add b).add c = a.add (b.add c) := by
  have hbytes : addU32 (addU32 a.bytes b.bytes) c.bytes = addU32 a.bytes (addU32 b.bytes c.bytes) :=
    addU32_assoc _ _ _
  have hextent : (a.extent.add b.extent).add c.extent = a.extent.add (b.extent.add c.extent) := by
    simp only [Point.add]
    by_cases hc : c.extent.row > 0
    · have hsum : addU32 b.extent.row c.extent.row > 0 := by
        rw [addU32_of_lt hrows]
        omega
      simp only [if_pos hc, if_pos hsum]
      by_cases hb : b.extent.row > 0
      · simp only [if_pos hb, addU32_assoc]
      · have hzero : b.extent.row = 0 := by omega
        have hsmall : addU32 0 c.extent.row = c.extent.row := by
          rw [addU32_of_lt (by omega), Nat.zero_add]
        rw [if_neg hb, hzero, hsmall]
    · simp only [if_neg hc]
      by_cases hb : b.extent.row > 0
      · simp only [if_pos hb]
      · simp only [if_neg hb, addU32_assoc]
  rw [Length.add, Length.add, Length.add, Length.add, hextent]
  exact congrArg (Length.mk · _) hbytes

theorem add_addTotals (front : Length) {size : Length} {children : List ChildFacts}
    (hrows : size.extent.row + sumOf ChildFacts.totalRows children < 2 ^ 32) :
    front.add (addTotals size children) = addTotals (front.add size) children := by
  induction children generalizing size with
  | nil => rfl
  | cons child children ih =>
    have hchild := child.padding.add_row_le child.size
    have hadd := size.add_row_le child.totalSize
    rw [sumOf_cons, ChildFacts.totalRows] at hrows
    rw [ChildFacts.totalSize] at hadd
    have hrest : (size.add child.totalSize).extent.row +
        sumOf ChildFacts.totalRows children < 2 ^ 32 := by
      rw [ChildFacts.totalSize]
      omega
    have hassoc : (front.add size).add child.totalSize =
        front.add (size.add child.totalSize) := by
      refine front.add_assoc' ?_
      rw [ChildFacts.totalSize]
      omega
    have htotals (size : Length) : addTotals size (child :: children) =
        addTotals (size.add child.totalSize) children := rfl
    rw [htotals, htotals, ih hrest, hassoc]

theorem add_totalSize_errorRepeatOf (front : Length) {first : ChildFacts}
    {rest : List ChildFacts}
    (hrows : first.totalRows + sumOf ChildFacts.totalRows rest < 2 ^ 32) :
    front.add (errorRepeatOf lang first rest).totalSize =
      addTotals (front.add first.totalSize) rest := by
  have hsize : (errorRepeatOf lang first rest).size = addTotals first.size rest :=
    errorRepeatOf_size first rest
  rw [ChildFacts.totalRows] at hrows
  have hadd := first.padding.add_row_le first.size
  rw [ChildFacts.totalSize, errorRepeatOf_padding, hsize, add_addTotals _ (by omega),
    ← ChildFacts.totalSize, add_addTotals]
  rw [ChildFacts.totalSize]
  omega

theorem errorRepeatOf_size_le (first : ChildFacts) (rest : List ChildFacts) :
    (errorRepeatOf lang first rest).size.bytes ≤ spanBytes (first :: rest) ∧
      (errorRepeatOf lang first rest).size.extent.row ≤ spanRows (first :: rest) := by
  rw [errorRepeatOf_size]
  exact ⟨addTotals_le Length.add_bytes_le _ _,
    @addTotals_le (fun length => length.extent.row) Length.add_row_le _ _⟩

theorem errorRepeatOf_totalBytes_le (first : ChildFacts) (rest : List ChildFacts) :
    (errorRepeatOf lang first rest).totalBytes ≤ sumOf ChildFacts.totalBytes (first :: rest) := by
  have hsize := (@errorRepeatOf_size_le lang first rest).1
  rw [spanBytes] at hsize
  rw [ChildFacts.totalBytes, errorRepeatOf_padding, sumOf_cons, ChildFacts.totalBytes]
  omega

theorem errorRepeatOf_totalRows_le (first : ChildFacts) (rest : List ChildFacts) :
    (errorRepeatOf lang first rest).totalRows ≤ sumOf ChildFacts.totalRows (first :: rest) := by
  have hsize := (@errorRepeatOf_size_le lang first rest).2
  rw [spanRows] at hsize
  rw [ChildFacts.totalRows, errorRepeatOf_padding, sumOf_cons, ChildFacts.totalRows]
  omega

/-- The extent that some children have together. -/
structure SpanLe (children children' : List ChildFacts) : Prop where
  bytes : spanBytes children ≤ spanBytes children'
  rows : spanRows children ≤ spanRows children'

theorem Grouped.spanLe {children grouped : List ChildFacts} (h : Grouped lang children grouped) :
    SpanLe grouped children := by
  induction h with
  | same => exact ⟨le_rfl, le_rfl⟩
  | @wrap front rest back first h ih =>
    have hbytes := ih.bytes
    have hrows := ih.rows
    cases front with
    | nil =>
      have hsize := @errorRepeatOf_size_le lang first rest
      rw [spanBytes, spanRows] at hsize
      constructor
      · refine le_trans ?_ hbytes
        simp only [nil_append, spanBytes, sumOf_append]
        omega
      · refine le_trans ?_ hrows
        simp only [nil_append, spanRows, sumOf_append]
        omega
    | cons head front =>
      have htotalBytes := @errorRepeatOf_totalBytes_le lang first rest
      have htotalRows := @errorRepeatOf_totalRows_le lang first rest
      rw [sumOf_cons] at htotalBytes htotalRows
      constructor
      · refine le_trans ?_ hbytes
        simp only [cons_append, spanBytes, sumOf_append, sumOf_cons]
        omega
      · refine le_trans ?_ hrows
        simp only [cons_append, spanRows, sumOf_append, sumOf_cons]
        omega

/-- The size and the padding that an error node of some children gets. -/
def paddingAndSize : List ChildFacts → Option (Length × Length)
  | [] => none
  | first :: rest => some (first.padding, childrenSize first rest)

theorem Grouped.paddingAndSize_eq {children grouped : List ChildFacts}
    (hrows : spanRows children < 2 ^ 32) (h : Grouped lang children grouped) :
    paddingAndSize grouped = paddingAndSize children := by
  induction h with
  | same => rfl
  | @wrap front rest back first h ih =>
    rw [← ih]
    cases front with
    | nil =>
      have hsize := @errorRepeatOf_size lang first rest
      simp only [nil_append, paddingAndSize, errorRepeatOf_padding, childrenSize,
        foldl_append, hsize]
    | cons head front =>
      have hspan := h.spanLe.rows.trans_lt hrows
      simp only [cons_append, spanRows, sumOf_append, sumOf_cons] at hspan
      have hgroup := @add_totalSize_errorRepeatOf lang (addTotals head.size front) first rest
        (by omega)
      simp only [cons_append, paddingAndSize, childrenSize, foldl_append, foldl_cons]
      exact congrArg (fun size => some (head.padding, addTotals size back)) hgroup

/-! ### The refund -/

theorem errorExtentCost_le (size : Length) :
    InnerNode.errorExtentCost size ≤ errorCostPerRecovery + errorCostPerSkippedChar * size.bytes +
      errorCostPerSkippedLine * size.extent.row := by
  have hbytes : mulU32 errorCostPerSkippedChar size.bytes ≤ errorCostPerSkippedChar * size.bytes :=
    Nat.mod_le _ _
  have hrows : mulU32 errorCostPerSkippedLine size.extent.row ≤
      errorCostPerSkippedLine * size.extent.row := Nat.mod_le _ _
  have hsum := Nat.mod_le (errorCostPerRecovery + mulU32 errorCostPerSkippedChar size.bytes)
    (2 ^ 32)
  refine le_trans (Nat.mod_le _ _) ?_
  rw [addU32]
  omega

theorem CostFits.run {front rest back : List ChildFacts} {first : ChildFacts}
    (h : CostFits (front ++ first :: (rest ++ back))) : CostFits (first :: rest) := by
  rw [CostFits] at h ⊢
  cases front with
  | nil =>
    simp only [nil_append, spanBytes, spanRows, sumOf_append, sumOf_cons,
      errorCostPerSkippedChar, errorCostPerSkippedLine] at h ⊢
    omega
  | cons head front =>
    simp only [cons_append, spanBytes, spanRows, sumOf_append, sumOf_cons,
      errorCostPerSkippedChar, errorCostPerSkippedLine] at h ⊢
    rw [ChildFacts.totalBytes, ChildFacts.totalRows] at h
    omega

theorem errorRepeatOf_refundable {first : ChildFacts} {rest : List ChildFacts}
    (h : CostFits (first :: rest)) : (errorRepeatOf lang first rest).Refundable := by
  intro _
  have hextent := errorExtentCost_le (childrenSize first rest)
  have hsize := @errorRepeatOf_size_le lang first rest
  have hmod := Nat.mod_le (sumOf ChildFacts.skipCost (first :: rest)) (2 ^ 32)
  rw [errorRepeatOf_size] at hsize
  rw [CostFits] at h
  rw [errorRepeatOf_size, errorRepeatOf_errorCost, addU32_of_lt]
  · exact Nat.le_add_left _ _
  · simp only [errorCostPerSkippedChar, errorCostPerSkippedLine] at hextent h
    omega

theorem Grouped.costFits {children grouped : List ChildFacts} (hfits : CostFits children)
    (h : Grouped lang children grouped) : CostFits grouped := by
  have hspan := h.spanLe
  have hcost := h.sumOf_le fun first rest =>
    (errorRepeatOf_skipCost first rest).trans_le (Nat.mod_le _ _)
  have hbytes := hspan.bytes
  have hrows := hspan.rows
  rw [CostFits] at hfits ⊢
  simp only [errorCostPerSkippedChar, errorCostPerSkippedLine] at hfits ⊢
  omega

theorem Grouped.refundable {children grouped : List ChildFacts} (hfits : CostFits children)
    (h : Grouped lang children grouped) :
    ∀ child ∈ grouped, (child ∈ children → child.Refundable) → child.Refundable := by
  induction h with
  | same => exact fun child hchild hrefundable => hrefundable hchild
  | @wrap front rest back first h ih =>
    intro child hchild hrefundable
    rcases mem_append.mp hchild with hchild | hchild
    · exact ih child (mem_append_left _ hchild) hrefundable
    · rcases mem_cons.mp hchild with rfl | hchild
      · exact errorRepeatOf_refundable (h.costFits hfits).run
      · have hback : child ∈ first :: (rest ++ back) :=
          mem_cons_of_mem _ (mem_append_right _ hchild)
        exact ih child (mem_append_right _ hback) hrefundable

/-! ### The `ERROR` node -/

/-- **Grouping is neutral.** Where the cost of an `ERROR` node of some children fits into 32 bits,
its cost, extent and counts stay the same when runs of its children are wrapped in `_ERROR` nodes,
nested to any depth, and no refund for such a node is more than its cost. -/
theorem new_error_grouped (hhidden : (lang.symbolMetadata builtinSymErrorRepeat).visible = false)
    {first : ChildFacts} {rest grouped : List ChildFacts} (hfits : CostFits (first :: rest))
    (h : Grouped lang (first :: rest) grouped) :
    (∀ child ∈ grouped, (child ∈ first :: rest → child.Refundable) → child.Refundable) ∧
      ∃ first' rest', grouped = first' :: rest' ∧
        SameNumbers (InnerNode.new lang builtinSymError 0 first' rest')
          (InnerNode.new lang builtinSymError 0 first rest) := by
  refine ⟨h.refundable hfits, ?_⟩
  have hrows : spanRows (first :: rest) < 2 ^ 32 := by
    rw [CostFits] at hfits
    simp only [errorCostPerSkippedLine] at hfits
    omega
  have hextent := h.paddingAndSize_eq hrows
  cases grouped with
  | nil => cases hextent
  | cons first' rest' =>
    obtain ⟨hpadding, hsize⟩ := Prod.mk.inj (Option.some.inj hextent)
    refine ⟨first', rest', rfl, ⟨?_, ?_, ?_, ?_, ?_, ?_⟩⟩
    · rw [new_errorCost (.inl rfl), new_errorCost (.inl rfl), hsize,
        h.sumOf_modEq errorRepeatOf_skipCost]
    · exact (errorLoop_size _ _ _).trans (hsize.trans (errorLoop_size _ _ _).symm)
    · exact (errorLoop_padding _ _ _).trans (hpadding.trans (errorLoop_padding _ _ _).symm)
    · exact visibleChildCount_accumulates.grouped (errorRepeatOf_visibleWeight hhidden) h
    · exact namedChildCount_accumulates.grouped (errorRepeatOf_namedWeight hhidden) h
    · exact visibleDescendantCount_accumulates.grouped (errorRepeatOf_descendantWeight hhidden) h

/-- A language that has no symbols of its own. -/
def builtinLanguage : TreeLanguage :=
  ⟨0, fun _ => 0, fun symbol => ⟨symbol == builtinSymError, symbol == builtinSymError, false⟩,
    fun _ => []⟩

open InnerNode in
/-- Three leaves, one of which is in a group inside of a group. -/
theorem new_error_grouped_twoLeaves :
    SameNumbers
      (InnerNode.new builtinLanguage builtinSymError 0 columnLeaf
        [errorRepeatOf builtinLanguage (errorRepeatOf builtinLanguage columnLeaf []) [columnLeaf]])
      (InnerNode.new builtinLanguage builtinSymError 0 columnLeaf [columnLeaf, columnLeaf]) := by
  have hfits : CostFits [columnLeaf, columnLeaf, columnLeaf] := by
    rw [CostFits]
    decide
  have hinner : Grouped builtinLanguage [columnLeaf, columnLeaf, columnLeaf]
      ([columnLeaf] ++ errorRepeatOf builtinLanguage columnLeaf [] :: [columnLeaf]) :=
    .wrap .same
  have houter : Grouped builtinLanguage [columnLeaf, columnLeaf, columnLeaf]
      ([columnLeaf] ++ errorRepeatOf builtinLanguage (errorRepeatOf builtinLanguage columnLeaf [])
        [columnLeaf] :: []) :=
    .wrap hinner
  obtain ⟨-, first, rest, heq, hsame⟩ := new_error_grouped rfl hfits houter
  cases heq
  exact hsame

end TreeSitter.Lib
