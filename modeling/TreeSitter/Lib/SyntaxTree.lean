import TreeSitter.Lib.Length

/-!
# TreeSitter.Lib.SyntaxTree

**Syntax trees as they are shown.** A subtree is hidden or visible, and the production of its
parent may give it an alias, which makes it visible under another name. What a user sees are the
**shown children** of a node: its visible and aliased children, with those of its hidden children
in their place.

The counts that a node stores about its children (`ts_subtree_summarize_children`) are the counts
of these lists. They are added up from the stored counts of the children, one level at a time,
and here they are data of the node, which a **well formed** tree has right.
-/

namespace TreeSitter.Lib

/-- `TSSymbolMetadata`. -/
structure SymbolMetadata where
  visible : Bool
  named : Bool
  supertype : Bool

/-- `TSFieldMapEntry`. -/
structure FieldMapEntry where
  fieldId : Nat
  childIndex : Nat
  inherited : Bool

/-- `TSLanguage`, of what is read to show a tree. -/
structure TreeLanguage where
  maxAliasSequenceLength : Nat
  aliasSequences : Nat → Nat
  symbolMetadata : Nat → SymbolMetadata
  fieldMap : Nat → List FieldMapEntry

/-- `ts_language_alias_at`. Production 0 has no aliases. -/
def TreeLanguage.aliasAt (lang : TreeLanguage) (productionId childIndex : Nat) : Nat :=
  if productionId = 0 then 0
  else lang.aliasSequences (productionId * lang.maxAliasSequenceLength + childIndex)

/-- What is stored in a subtree, apart from its children. -/
structure NodeData where
  symbol : Nat
  visible : Bool
  named : Bool
  extra : Bool
  productionId : Nat
  padding : Length
  size : Length
  visibleChildCount : Nat
  namedChildCount : Nat
  visibleDescendantCount : Nat

/-- `Subtree`. -/
inductive SyntaxTree where
  | mk (data : NodeData) (children : List SyntaxTree)

namespace SyntaxTree

def data : SyntaxTree → NodeData
  | mk data _ => data

def children : SyntaxTree → List SyntaxTree
  | mk _ children => children

def symbol (tree : SyntaxTree) : Nat := tree.data.symbol
def visible (tree : SyntaxTree) : Bool := tree.data.visible
def named (tree : SyntaxTree) : Bool := tree.data.named
def extra (tree : SyntaxTree) : Bool := tree.data.extra
def productionId (tree : SyntaxTree) : Nat := tree.data.productionId
def padding (tree : SyntaxTree) : Length := tree.data.padding
def size (tree : SyntaxTree) : Length := tree.data.size

/-- `ts_subtree_visible_child_count`. -/
def visibleChildCount (tree : SyntaxTree) : Nat :=
  if tree.children.length > 0 then tree.data.visibleChildCount else 0

/-- `named_child_count`, of a node with children. -/
def namedChildCount (tree : SyntaxTree) : Nat :=
  if tree.children.length > 0 then tree.data.namedChildCount else 0

/-- `ts_subtree_visible_descendant_count`. -/
def visibleDescendantCount (tree : SyntaxTree) : Nat :=
  if tree.children.length > 0 then tree.data.visibleDescendantCount else 0

end SyntaxTree

variable (lang : TreeLanguage)

/-- The alias of a child: extras have none. -/
def aliasOf (productionId structuralIndex : Nat) (child : SyntaxTree) : Nat :=
  if child.extra then 0 else lang.aliasAt productionId structuralIndex

/-- The structural index behind a child: extras are not counted. -/
def nextStructuralIndex (structuralIndex : Nat) (child : SyntaxTree) : Nat :=
  if child.extra then structuralIndex else structuralIndex + 1

/-! ### Counts -/

/-- The counts of a node, as far as its children have been looked at, as numbers that do not wrap
around. -/
structure ChildCounts where
  visible : Nat
  named : Nat
  descendants : Nat
deriving DecidableEq

/-- One turn of the loop in `ts_subtree_summarize_children`. The end of the input, which has the
symbol 0, is not aliased. -/
def ChildCounts.addChild (productionId structuralIndex : Nat) (counts : ChildCounts)
    (child : SyntaxTree) : ChildCounts :=
  let descendants := counts.descendants + child.visibleDescendantCount
  let childAlias := aliasOf lang productionId structuralIndex child
  if child.symbol ≠ 0 ∧ childAlias ≠ 0 then
    { visible := counts.visible + 1
      named := counts.named + (if (lang.symbolMetadata childAlias).named then 1 else 0)
      descendants := descendants + 1 }
  else if child.visible then
    { visible := counts.visible + 1
      named := counts.named + (if child.named then 1 else 0)
      descendants := descendants + 1 }
  else
    { visible := counts.visible + child.visibleChildCount
      named := counts.named + child.namedChildCount
      descendants }

/-- The loop of `ts_subtree_summarize_children`, of what is modelled here. -/
def summarizeChildrenFrom (productionId : Nat) : Nat → ChildCounts → List SyntaxTree → ChildCounts
  | _, counts, [] => counts
  | structuralIndex, counts, child :: children =>
    summarizeChildrenFrom productionId (nextStructuralIndex structuralIndex child)
      (counts.addChild lang productionId structuralIndex child) children

/-- No count wraps around. -/
def ChildCounts.Fits (counts : ChildCounts) : Prop :=
  counts.visible < 2 ^ 32 ∧ counts.named < 2 ^ 32 ∧ counts.descendants < 2 ^ 32

variable {lang} in
theorem ChildCounts.Fits.of_addChild {productionId structuralIndex : Nat} {counts : ChildCounts}
    {child : SyntaxTree} (h : (counts.addChild lang productionId structuralIndex child).Fits) :
    counts.Fits := by
  simp only [addChild] at h
  split at h
  · simp only [Fits] at h ⊢
    omega
  · split at h <;> simp only [Fits] at h ⊢ <;> omega

variable {lang} in
theorem ChildCounts.Fits.of_summarizeChildrenFrom {productionId : Nat} {children : List SyntaxTree} :
    ∀ {structuralIndex : Nat} {counts : ChildCounts},
      (summarizeChildrenFrom lang productionId structuralIndex counts children).Fits →
        counts.Fits := by
  induction children with
  | nil => exact fun h => h
  | cons child children ih => exact fun h => (ih h).of_addChild

/-! ### What is shown -/

/-- A child as it is shown: the tree, and its alias or 0. -/
structure Shown where
  tree : SyntaxTree
  aliasSymbol : Nat

/-- Whether the child counts as named. -/
def Shown.named (shown : Shown) : Bool :=
  if shown.aliasSymbol ≠ 0 then (lang.symbolMetadata shown.aliasSymbol).named else shown.tree.named

mutual

/-- The shown children of a node. -/
def SyntaxTree.shown : SyntaxTree → List Shown
  | .mk data children => shownFrom data.productionId 0 children

/-- The shown ones of the children of a production from a structural index on. -/
def shownFrom (productionId : Nat) : Nat → List SyntaxTree → List Shown
  | _, [] => []
  | structuralIndex, child :: children =>
    (if child.visible ∨ aliasOf lang productionId structuralIndex child ≠ 0 then
      [⟨child, aliasOf lang productionId structuralIndex child⟩]
    else child.shown) ++
    shownFrom productionId (nextStructuralIndex structuralIndex child) children

end

/-- The language shows its aliases. -/
def TreeLanguage.AliasesVisible : Prop :=
  ∀ productionId i, lang.aliasAt productionId i ≠ 0 →
    (lang.symbolMetadata (lang.aliasAt productionId i)).visible

/-- The node has been made for its symbol and its children. -/
structure SyntaxTree.Summarized (tree : SyntaxTree) : Prop where
  visible : tree.visible = (lang.symbolMetadata tree.symbol).visible
  named : tree.named = (lang.symbolMetadata tree.symbol).named
  counts : tree.children ≠ [] →
    summarizeChildrenFrom lang tree.productionId 0 ⟨0, 0, 0⟩ tree.children =
      ⟨tree.data.visibleChildCount, tree.data.namedChildCount, tree.data.visibleDescendantCount⟩

/-- Every node has been made for its symbol and its children, and only the first one may have the
end of the input as a child. -/
inductive SyntaxTree.WellFormed : SyntaxTree → Prop where
  | mk {tree : SyntaxTree} (summarized : tree.Summarized lang)
      (children : ∀ child ∈ tree.children, WellFormed child)
      (noEnd : ∀ child ∈ tree.children, ∀ grandchild ∈ child.children, grandchild.symbol ≠ 0) :
      WellFormed tree

variable {lang}

theorem SyntaxTree.WellFormed.summarized {tree : SyntaxTree} (h : tree.WellFormed lang) :
    tree.Summarized lang := by
  cases h with
  | mk summarized _ _ => exact summarized

theorem SyntaxTree.WellFormed.child {tree child : SyntaxTree} (h : tree.WellFormed lang)
    (hchild : child ∈ tree.children) : child.WellFormed lang := by
  cases h with
  | mk _ children _ => exact children child hchild

theorem SyntaxTree.WellFormed.noEnd {tree child grandchild : SyntaxTree} (h : tree.WellFormed lang)
    (hchild : child ∈ tree.children) (hgrandchild : grandchild ∈ child.children) :
    grandchild.symbol ≠ 0 := by
  cases h with
  | mk _ _ noEnd => exact noEnd child hchild grandchild hgrandchild

theorem SyntaxTree.shown_eq (tree : SyntaxTree) :
    tree.shown lang = shownFrom lang tree.productionId 0 tree.children := by
  cases tree with
  | mk data children => rw [shown, productionId, SyntaxTree.data, SyntaxTree.children]

theorem SyntaxTree.shown_of_children_eq_nil {tree : SyntaxTree} (h : tree.children = []) :
    tree.shown lang = [] := by
  rw [shown_eq, h, shownFrom]

/-! ### Stored counts count what is shown -/

/-- The stored counts of a tree are those of its shown children. -/
structure SyntaxTree.Counted (lang : TreeLanguage) (tree : SyntaxTree) : Prop where
  visible : tree.visibleChildCount = (tree.shown lang).length
  named : tree.namedChildCount = (tree.shown lang).countP (Shown.named lang)

theorem summarizeChildrenFrom_eq (productionId : Nat) {children : List SyntaxTree}
    (hcounted : ∀ child ∈ children, child.Counted lang)
    (hend : ∀ child ∈ children, child.symbol = 0 → child.extra = true) (structuralIndex : Nat)
    (counts : ChildCounts) :
    (summarizeChildrenFrom lang productionId structuralIndex counts children).visible =
      counts.visible + (shownFrom lang productionId structuralIndex children).length ∧
    (summarizeChildrenFrom lang productionId structuralIndex counts children).named =
      counts.named +
        (shownFrom lang productionId structuralIndex children).countP (Shown.named lang) := by
  induction children generalizing structuralIndex counts with
  | nil => simp [summarizeChildrenFrom, shownFrom]
  | cons child children ih =>
    rw [List.forall_mem_cons] at hcounted hend
    obtain ⟨hvisible, hnamed⟩ := ih hcounted.2 hend.2
      (nextStructuralIndex structuralIndex child)
      (counts.addChild lang productionId structuralIndex child)
    have hchild := hcounted.1
    rw [summarizeChildrenFrom, shownFrom, hvisible, hnamed, List.length_append,
      List.countP_append]
    simp only [ChildCounts.addChild]
    by_cases halias : aliasOf lang productionId structuralIndex child = 0
    · by_cases hv : child.visible
      · simp [halias, hv, Shown.named, List.countP_cons]
        omega
      · simp [halias, hv, hchild.visible, hchild.named]
        omega
    · have hsymbol : child.symbol ≠ 0 := fun h => halias (if_pos (hend.1 h))
      simp [halias, hsymbol, Shown.named, List.countP_cons]
      omega

theorem SyntaxTree.WellFormed.counted_of_extra {tree : SyntaxTree} (h : tree.WellFormed lang)
    (hend : ∀ child ∈ tree.children, child.symbol = 0 → child.extra = true) :
    tree.Counted lang := by
  induction h with
  | @mk tree hsummarized hchildren hnoEnd ih =>
    by_cases hnil : tree.children = []
    · constructor <;> simp [visibleChildCount, namedChildCount, shown_of_children_eq_nil hnil, hnil]
    · have hcounted : ∀ child ∈ tree.children, child.Counted lang :=
        fun child hchild => ih child hchild fun grandchild hgrandchild hzero =>
          absurd hzero (hnoEnd child hchild grandchild hgrandchild)
      obtain ⟨hvisible, hnamed⟩ :=
        summarizeChildrenFrom_eq tree.productionId hcounted hend 0 ⟨0, 0, 0⟩
      rw [hsummarized.counts hnil] at hvisible hnamed
      have hpos : tree.children.length > 0 := List.length_pos_iff.mpr hnil
      constructor
      · rw [visibleChildCount, if_pos hpos, shown_eq]
        simpa using hvisible
      · rw [namedChildCount, if_pos hpos, shown_eq]
        simpa using hnamed

theorem SyntaxTree.WellFormed.counted {tree : SyntaxTree} (h : tree.WellFormed lang)
    (hsymbol : ∀ child ∈ tree.children, child.symbol ≠ 0) : tree.Counted lang :=
  h.counted_of_extra fun child hchild hzero => absurd hzero (hsymbol child hchild)

end TreeSitter.Lib
