import TreeSitter.Lib.Node.Layout
import TreeSitter.Lib.TreeCursor.Status

/-!
# TreeSitter.Lib.Node.Shown

**The visible children of a node**, as nodes. They are the shown children of its subtree, in
order, and the counts that the subtree stores are theirs: of all of them, and of the relevant ones
(`TSNode.relevantChildCount_eq`).
-/

namespace TreeSitter.Lib

open List

variable (lang : TreeLanguage)

mutual

/-- The visible children of a subtree at a place. -/
def SyntaxTree.shownNodes : SyntaxTree → List Nat → Length → List TSNode
  | .mk data children, id, position =>
    shownNodesFrom data.productionId id children position 0 0

/-- The visible ones of the children from an index on, with those of the hidden ones. -/
def shownNodesFrom (productionId : Nat) (parentId : List Nat) :
    List SyntaxTree → Length → Nat → Nat → List TSNode
  | [], _, _, _ => []
  | child :: children, position, childIndex, structuralChildIndex =>
    let start := if childIndex > 0 then position.add child.padding else position
    let childAlias := aliasOf lang productionId structuralChildIndex child
    (if child.visible || childAlias ≠ 0 then [⟨childIndex :: parentId, child, start, childAlias⟩]
      else child.shownNodes (childIndex :: parentId) start) ++
    shownNodesFrom productionId parentId children (start.add child.size) (childIndex + 1)
      (nextStructuralIndex structuralChildIndex child)

end

/-- The visible children of a node. -/
def TSNode.shown (node : TSNode) : List TSNode :=
  node.subtree.shownNodes lang node.id node.position

/-- The second node is hidden, and hidden nodes lead from the first one down to it. -/
inductive TSNode.HiddenBelow : TSNode → TSNode → Prop where
  | child {node child : TSNode} (h : child ∈ node.children lang)
      (hidden : child.isRelevant lang true = false) : HiddenBelow node child
  | step {node child descendant : TSNode} (h : child ∈ node.children lang)
      (hidden : child.isRelevant lang true = false) (hbelow : HiddenBelow child descendant) :
      HiddenBelow node descendant

variable {lang}

theorem TSNode.isRelevant_true (node : TSNode) :
    node.isRelevant lang true = (node.subtree.visible || decide (node.aliasSymbol ≠ 0)) := rfl

variable {node : TSNode}

theorem TSNode.isRelevant_of_false (h : node.isRelevant lang false = true) :
    node.isRelevant lang true = true := by
  rw [isRelevant_true]
  rw [isRelevant, if_neg Bool.false_ne_true] at h
  split at h
  · rename_i halias
    simp [halias]
  · rw [Bool.and_eq_true] at h
    simp [h.1]

theorem TSNode.isRelevant_mono {includeAnonymous : Bool}
    (h : node.isRelevant lang includeAnonymous = true) : node.isRelevant lang true = true := by
  cases includeAnonymous with
  | false => exact isRelevant_of_false h
  | true => exact h

theorem shownNodesFrom_eq (productionId : Nat) (parentId : List Nat) (children : List SyntaxTree)
    (position : Length) (childIndex structuralIndex : Nat) :
    shownNodesFrom lang productionId parentId children position childIndex structuralIndex =
      (childNodes lang productionId parentId children position childIndex
        structuralIndex).flatMap fun child =>
          if child.isRelevant lang true then [child] else child.shown lang := by
  induction children generalizing position childIndex structuralIndex with
  | nil => rfl
  | cons child children ih =>
    rw [shownNodesFrom, childNodes, flatMap_cons, ← ih]
    rfl

/-- Visible children are children, or visible children of hidden ones. -/
theorem TSNode.shown_eq (node : TSNode) :
    node.shown lang = (node.children lang).flatMap fun child =>
      if child.isRelevant lang true then [child] else child.shown lang := by
  obtain ⟨id, ⟨data, children⟩, position, aliasSymbol⟩ := node
  rw [shown, SyntaxTree.shownNodes, shownNodesFrom_eq]
  rfl

variable {shown : TSNode}

theorem TSNode.mem_shown :
    shown ∈ node.shown lang ↔ ∃ child ∈ node.children lang,
      (child.isRelevant lang true = true ∧ shown = child) ∨
      (child.isRelevant lang true = false ∧ shown ∈ child.shown lang) := by
  rw [shown_eq, mem_flatMap]
  constructor
  · intro h
    obtain ⟨child, hchild, hmem⟩ := h
    refine ⟨child, hchild, ?_⟩
    split at hmem
    · rename_i hrelevant
      exact Or.inl ⟨hrelevant, mem_singleton.mp hmem⟩
    · rename_i hrelevant
      exact Or.inr ⟨Bool.eq_false_iff.mpr hrelevant, hmem⟩
  · intro h
    obtain ⟨child, hchild, ⟨hrelevant, rfl⟩ | ⟨hrelevant, hmem⟩⟩ := h
    · exact ⟨shown, hchild, by simp [hrelevant]⟩
    · exact ⟨child, hchild, by simpa [hrelevant] using hmem⟩

/-- What holds of a visible child follows along the hidden nodes that lead to it. -/
@[elab_as_elim]
theorem TSNode.shown_induction {motive : (node : TSNode) → shown ∈ node.shown lang → Prop} (child
      : ∀ (node : TSNode) (hmem : shown ∈ node.shown lang), shown ∈ node.children lang →
      shown.isRelevant lang true = true → motive node hmem) (step : ∀ (node kid : TSNode) (hmem :
      shown ∈ node.shown lang) (hkid : shown ∈ kid.shown lang), kid ∈ node.children lang →
      kid.isRelevant lang true = false → motive kid hkid → motive node hmem)
    (h : shown ∈ node.shown lang) : motive node h := by
  induction hheight : node.subtree.height using Nat.strong_induction_on generalizing node with
  | _ height ih =>
    obtain ⟨kid, hkid, ⟨hrelevant, heq⟩ | ⟨hrelevant, hmem⟩⟩ := mem_shown.mp h
    · exact child node h (heq ▸ hkid) (heq ▸ hrelevant)
    · exact step node kid h hmem hkid hrelevant (ih _ (hheight ▸ height_lt hkid) hmem rfl)

theorem TSNode.below_of_mem_shown (h : shown ∈ node.shown lang) :
    node.Below lang shown := by
  induction h using TSNode.shown_induction with
  | child node _ hkid _ => exact .child hkid
  | step node kid _ _ hkid _ ih => exact .step hkid ih

theorem TSNode.isRelevant_of_mem_shown (h : shown ∈ node.shown lang) :
    shown.isRelevant lang true = true := by
  induction h using TSNode.shown_induction with
  | child node _ _ hrelevant => exact hrelevant
  | step node kid _ _ _ _ ih => exact ih

theorem TSNode.Below.shown_ne_nil {descendant : TSNode} (h : node.Below lang descendant)
    (hrelevant : descendant.isRelevant lang true = true) : node.shown lang ≠ [] := by
  induction h with
  | child hchild =>
    exact ne_nil_of_mem (mem_shown.mpr ⟨_, hchild, Or.inl ⟨hrelevant, rfl⟩⟩)
  | @step node child descendant hchild _ ih =>
    by_cases hvisible : child.isRelevant lang true = true
    · exact ne_nil_of_mem (mem_shown.mpr ⟨_, hchild, Or.inl ⟨hvisible, rfl⟩⟩)
    · obtain ⟨shown, hshown⟩ := exists_mem_of_ne_nil _ (ih hrelevant)
      exact ne_nil_of_mem
        (mem_shown.mpr ⟨_, hchild, Or.inr ⟨Bool.eq_false_iff.mpr hvisible, hshown⟩⟩)

/-- The visible children that a child contributes. -/
def TSNode.shownSelf (lang : TreeLanguage) (node : TSNode) : List TSNode :=
  if node.isRelevant lang true then [node] else node.shown lang

theorem TSNode.shown_eq_shownSelf (node : TSNode) :
    node.shown lang = (node.children lang).flatMap (TSNode.shownSelf lang) :=
  node.shown_eq

theorem TSNode.within_of_mem_shownSelf (h : shown ∈ node.shownSelf lang) :
    node.Within lang shown := by
  rw [shownSelf] at h
  split at h
  · exact Or.inl (mem_singleton.mp h)
  · exact Or.inr (below_of_mem_shown h)

theorem TSNode.shown_of_split {child : TSNode} {front back : List TSNode}
    (h : node.children lang = front ++ child :: back) : node.shown lang =
      front.flatMap (TSNode.shownSelf lang) ++
        (child.shownSelf lang ++ back.flatMap (TSNode.shownSelf lang)) := by
  rw [TSNode.shown_eq_shownSelf, h, flatMap_append, flatMap_cons]

/-! ### Hidden nodes below -/

variable {hidden : TSNode}

theorem TSNode.HiddenBelow.toBelow (h : node.HiddenBelow lang hidden) :
    node.Below lang hidden := by
  induction h with
  | child hchild _ => exact .child hchild
  | step hchild _ _ ih => exact .step hchild ih

theorem TSNode.HiddenBelow.shown_subset (h : node.HiddenBelow lang hidden) :
    ∀ shown ∈ hidden.shown lang, shown ∈ node.shown lang := by
  induction h with
  | child hchild hhidden =>
    exact fun shown hshown => mem_shown.mpr ⟨_, hchild, Or.inr ⟨hhidden, hshown⟩⟩
  | step hchild hhidden _ ih =>
    exact fun shown hshown => mem_shown.mpr ⟨_, hchild, Or.inr ⟨hhidden, ih shown hshown⟩⟩

theorem TSNode.HiddenBelow.exists_child (h : node.HiddenBelow lang hidden) :
    ∃ child ∈ node.children lang,
      child.isRelevant lang true = false ∧
        (hidden = child ∨ child.HiddenBelow lang hidden) := by
  cases h with
  | child hchild hhidden => exact ⟨hidden, hchild, hhidden, Or.inl rfl⟩
  | step hchild hhidden hbelow => exact ⟨_, hchild, hhidden, Or.inr hbelow⟩

theorem TSNode.forall_hiddenBelow_iff {P : TSNode → Prop} :
    (∀ child ∈ node.children lang, child.isRelevant lang true = false → P child ∧
        ∀ hidden : TSNode, child.HiddenBelow lang hidden → P hidden) ↔
      ∀ hidden : TSNode, node.HiddenBelow lang hidden → P hidden := by
  constructor
  · intro h hidden hhidden
    obtain ⟨child, hchild, hchildHidden, hplace⟩ := hhidden.exists_child
    obtain ⟨hself, hbelow⟩ := h child hchild hchildHidden
    rcases hplace with rfl | hplace
    · exact hself
    · exact hbelow hidden hplace
  · exact fun h child hchild hhidden => ⟨h child (.child hchild hhidden),
      fun hidden hbelow => h hidden (.step hchild hhidden hbelow)⟩

/-! ### The stored counts -/

mutual

theorem SyntaxTree.shownNodes_map (tree : SyntaxTree) (id : List Nat) (position : Length) :
    (tree.shownNodes lang id position).map (fun node => Shown.mk node.subtree node.aliasSymbol) =
      tree.shown lang := by
  cases tree with
  | mk data children =>
    rw [SyntaxTree.shownNodes, SyntaxTree.shown]
    exact shownNodesFrom_map data.productionId id children position 0 0

theorem shownNodesFrom_map (productionId : Nat) (parentId : List Nat)
    (children : List SyntaxTree) (position : Length) (childIndex structuralIndex : Nat) :
    (shownNodesFrom lang productionId parentId children position childIndex structuralIndex).map
      (fun node => Shown.mk node.subtree node.aliasSymbol) =
      shownFrom lang productionId structuralIndex children := by
  cases children with
  | nil => rfl
  | cons child children =>
    rw [shownNodesFrom, shownFrom, map_append, shownNodesFrom_map]
    congr 1
    by_cases h : child.visible ∨ aliasOf lang productionId structuralIndex child ≠ 0
    · rw [if_pos h, if_pos (by simpa using h)]
      rfl
    · rw [if_neg h, if_neg (by simpa using h)]
      exact child.shownNodes_map _ _

end

theorem TSNode.shown_map (node : TSNode) :
    (node.shown lang).map (fun node => Shown.mk node.subtree node.aliasSymbol) =
      node.subtree.shown lang :=
  SyntaxTree.shownNodes_map _ _ _

theorem TSNode.relevantChildCount_eq (h : node.subtree.Counted lang) (includeAnonymous : Bool) :
    node.relevantChildCount includeAnonymous =
      (node.shown lang).countP (isRelevant lang includeAnonymous) := by
  cases includeAnonymous with
  | true =>
    have hall : (node.shown lang).countP (isRelevant lang true) = (node.shown lang).length :=
      countP_eq_length.mpr fun shown hshown => isRelevant_of_mem_shown hshown
    rw [relevantChildCount, if_pos rfl, h.visible, hall, ← shown_map, length_map]
  | false =>
    rw [relevantChildCount, if_neg Bool.false_ne_true, h.named, ← shown_map, countP_map]
    refine countP_congr fun shown hshown => ?_
    have hvisible := isRelevant_of_mem_shown hshown
    rw [isRelevant_true] at hvisible
    by_cases halias : shown.aliasSymbol = 0
    · have hv : shown.subtree.visible = true := by simpa [halias] using hvisible
      simp [isRelevant, Shown.named, halias, hv]
    · simp [isRelevant, Shown.named, halias]

theorem TSNode.childCount_eq (h : node.subtree.Counted lang) :
    node.childCount = (node.shown lang).length := by
  rw [childCount, h.visible, ← shown_map, length_map]

/-- A node that counts relevant children has one among its children, or a hidden child that
counts one. -/
theorem TSNode.exists_of_relevantChildCount_pos {includeAnonymous : Bool}
    (h : node.subtree.Counted lang)
    (hchildren : ∀ child ∈ node.children lang, child.subtree.Counted lang)
    (hpos : node.relevantChildCount includeAnonymous > 0) :
    ∃ child ∈ node.children lang, child.isRelevant lang includeAnonymous = true ∨
      child.relevantChildCount includeAnonymous > 0 := by
  rw [relevantChildCount_eq h, gt_iff_lt, countP_pos_iff] at hpos
  obtain ⟨shown, hshown, hrelevant⟩ := hpos
  obtain ⟨child, hchild, ⟨_, rfl⟩ | ⟨_, hmem⟩⟩ := mem_shown.mp hshown
  · exact ⟨shown, hchild, Or.inl hrelevant⟩
  · refine ⟨child, hchild, Or.inr ?_⟩
    rw [relevantChildCount_eq (hchildren child hchild), gt_iff_lt, countP_pos_iff]
    exact ⟨shown, hmem, hrelevant⟩

/-! ### Trees over one row

Trees whose leaves have widths and no paddings: what a concrete tree comes down to. -/

/-- Symbol 1 is named, symbol 2 anonymous; all others are hidden. -/
def rowLanguage : TreeLanguage where
  maxAliasSequenceLength := 0
  aliasSequences := fun _ => 0
  symbolMetadata := fun symbol => ⟨symbol == 1 || symbol == 2, symbol == 1, false⟩
  fieldMap := fun _ => []

def rowText (width : Nat) : List UInt8 := List.replicate width 0

def rowTree (symbol width : Nat) (children : List SyntaxTree) : SyntaxTree :=
  let metadata := rowLanguage.symbolMetadata symbol
  let counts := summarizeChildrenFrom rowLanguage 0 0 ⟨0, 0, 0⟩ children
  .mk ⟨symbol, metadata.visible, metadata.named, false, 0, Length.zero, ⟨width, 0, width⟩,
    counts.visible, counts.named, counts.descendants⟩ children

def rowNode (symbol : Nat) (children : List SyntaxTree) : SyntaxTree :=
  rowTree symbol (children.map fun child => child.size.bytes).sum children

@[simp] theorem rowTree_symbol (symbol width : Nat) (children : List SyntaxTree) :
    (rowTree symbol width children).symbol = symbol := rfl

@[simp] theorem rowNode_symbol (symbol : Nat) (children : List SyntaxTree) :
    (rowNode symbol children).symbol = symbol := rfl

/-- The tree is well formed and spells a row. -/
structure IsRow (tree : SyntaxTree) : Prop where
  wellFormed : tree.WellFormed rowLanguage
  spells : tree.Spells (fun l w => l = lengthOf w) [] (rowText tree.size.bytes)
  noEnd : ∀ child ∈ tree.children, child.symbol ≠ 0

theorem lengthOf_rowText (width : Nat) : lengthOf (rowText width) = ⟨width, 0, width⟩ := by
  have hpoint : pointOf (rowText width) = ⟨0, width⟩ := by
    induction width with
    | zero => rfl
    | succ width ih =>
      rw [rowText, replicate_succ, pointOf, if_neg (by decide)]
      rw [rowText] at ih
      rw [ih, if_pos rfl]
  rw [lengthOf, hpoint, rowText, length_replicate]

theorem rowTree_wellFormed {symbol width : Nat} {children : List SyntaxTree}
    (h : ∀ child ∈ children, IsRow child) :
    (rowTree symbol width children).WellFormed rowLanguage :=
  .mk ⟨rfl, rfl, fun _ => rfl⟩ (fun child hchild => (h child hchild).wellFormed)
    fun child hchild => (h child hchild).noEnd

@[simp] theorem isRow_leaf (symbol width : Nat) : IsRow (rowTree symbol width []) where
  wellFormed := rowTree_wellFormed fun _ hchild => absurd hchild not_mem_nil
  spells := ⟨rfl, (lengthOf_rowText width).symm, fun h => absurd rfl h⟩
  noEnd _ hchild := absurd hchild not_mem_nil

theorem isRow_node {symbol : Nat} {children : List SyntaxTree}
    (h : ∀ child ∈ children, IsRow child ∧ child.symbol ≠ 0) : IsRow (rowNode symbol children) where
  wellFormed := rowTree_wellFormed fun child hchild => (h child hchild).1
  spells := by
    refine ⟨rfl, (lengthOf_rowText _).symm, fun _ => ?_⟩
    have hspells : ∀ (children : List SyntaxTree) (childIndex : Nat),
        (∀ child ∈ children, IsRow child) →
        SpellsFrom (fun l w => l = lengthOf w) childIndex children
          (rowText (children.map fun child => child.size.bytes).sum) := by
      intro children
      induction children with
      | nil =>
        intro childIndex _
        rw [SpellsFrom]
        rfl
      | cons child children ih =>
        intro childIndex hrow
        rw [forall_mem_cons] at hrow
        rw [SpellsFrom]
        refine ⟨[], _, _, hrow.1.spells, ih (childIndex + 1) hrow.2, ?_⟩
        rw [ite_self, nil_append, rowText, rowText, rowText, map_cons, sum_cons, replicate_add]
    exact hspells children 0 fun child hchild => (h child hchild).1
  noEnd child hchild := (h child hchild).2

end TreeSitter.Lib
