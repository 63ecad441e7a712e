import TreeSitter.Lib.Subtree.Compare

/-!
# TreeSitter.Lib.Parser.SelectChildren

**Ambiguities.** A reduction may find several lists of children for its new node. Of each two,
`ts_parser__select_children` keeps one: that with the lower error cost, else with the higher dynamic
precedence, else the one that comes first in the order of subtrees.

Without errors the outcome does not depend on the order in which the lists are looked at: what is
kept is one with the highest precedence that is minimal in the order (`selectLoop_best`).
-/

namespace TreeSitter.Lib

open List

/-- `SubtreeHeapData` as it is read by the accessors. -/
def InnerNode.toFacts (node : InnerNode) (childCount : Nat) : ChildFacts where
  symbol := node.symbol
  visible := node.visible
  named := node.named
  extra := false
  padding := node.padding
  size := node.size
  lookaheadBytes := node.lookaheadBytes
  errorCost := node.errorCost
  childCount := childCount
  visibleChildCount := node.visibleChildCount
  namedChildCount := node.namedChildCount
  visibleDescendantCount := if childCount = 0 then 0 else node.visibleDescendantCount
  dynamicPrecedence := if childCount = 0 then 0 else node.dynamicPrecedence
  repeatDepth := node.repeatDepth
  hasExternalTokens := node.hasExternalTokens
  hasExternalScannerStateChange := node.hasExternalScannerStateChange
  dependsOnColumn := node.dependsOnColumn
  fragileLeft := node.fragileLeft
  fragileRight := node.fragileRight
  leafSymbol := if childCount = 0 then node.symbol else node.firstLeafSymbol
  leafParseState := if childCount = 0 then node.parseState else node.firstLeafParseState

namespace ParsedTree

variable (lang : TreeLanguage)

/-- `ts_subtree_new_node`. -/
def newNode (symbol productionId : Nat) (children : List ParsedTree) : ParsedTree :=
  match children with
  | [] =>
    let metadata := lang.symbolMetadata symbol
    mk ((InnerNode.initial symbol productionId metadata.visible metadata.named
      (symbol == builtinSymError || symbol == builtinSymErrorRepeat)).toFacts 0) []
  | first :: rest =>
    mk ((InnerNode.new lang symbol productionId first.facts (rest.map facts)).toFacts
      (rest.length + 1)) (first :: rest)

/-- `ts_parser__select_tree`, of two trees: whether the right one is to replace the left one. -/
def selectTree (left right : ParsedTree) : Option Bool :=
  if right.errorCost < left.errorCost then some true
  else if left.errorCost < right.errorCost then some false
  else if right.dynamicPrecedence > left.dynamicPrecedence then some true
  else if left.dynamicPrecedence > right.dynamicPrecedence then some false
  else if left.errorCost > 0 then some true
  else do
    let comparison ← left.compare right
    some (comparison = 1)

/-- `ts_parser__select_children`. The scratch node has no production. -/
def selectChildren (left : ParsedTree) (children : List ParsedTree) : Option Bool :=
  selectTree left (newNode lang left.symbol 0 children)

/-- `ts_subtree_array_remove_trailing_extras`: what is left, and what is removed. -/
def removeTrailingExtras (trees : List ParsedTree) : List ParsedTree × List ParsedTree :=
  (trees.rdropWhile extra, trees.rtakeWhile extra)

/-- The new node of `ts_parser__reduce`, and the extra trees behind it. -/
structure Selection where
  parent : ParsedTree
  trailingExtras : List ParsedTree

/-- The node for the first of the slices of a version. -/
def Selection.first (symbol productionId : Nat) (subtrees : List ParsedTree) : Selection :=
  ⟨newNode lang symbol productionId (removeTrailingExtras subtrees).1,
    (removeTrailingExtras subtrees).2⟩

/-- A turn of the inner loop of `ts_parser__reduce`, over the other slices of the version. -/
def Selection.next (symbol productionId : Nat) (selection : Selection)
    (subtrees : List ParsedTree) : Option Selection := do
  if ← selectChildren lang selection.parent (removeTrailingExtras subtrees).1 then
    some (Selection.first lang symbol productionId subtrees)
  else some selection

def selectLoop (symbol productionId : Nat) (first : List ParsedTree)
    (rest : List (List ParsedTree)) : Option Selection :=
  rest.foldlM (Selection.next lang symbol productionId)
    (Selection.first lang symbol productionId first)

/-! ### What is compared -/

/-- The dynamic precedence of some children together, as an `int32_t`. -/
def totalPrecedence (children : List ParsedTree) : Int :=
  children.foldl (fun total child => addI32 total child.dynamicPrecedence) 0

/-- There is no error in the tree: it has no error cost, which an `_ERROR` node always has. -/
def ErrorFree (tree : ParsedTree) : Prop :=
  tree.errorCost = 0 ∧ tree.symbol ≠ builtinSymErrorRepeat

variable {lang}

theorem newNode_symbol (symbol productionId : Nat) (children : List ParsedTree) :
    (newNode lang symbol productionId children).symbol = symbol := by
  cases children with
  | nil => rfl
  | cons first rest =>
    have h := InnerNode.summarizeChildren_blank lang (InnerNode.initial symbol productionId
      (lang.symbolMetadata symbol).visible (lang.symbolMetadata symbol).named
      (symbol == builtinSymError || symbol == builtinSymErrorRepeat)) first.facts (rest.map facts)
    exact congrArg InnerNode.symbol h

@[simp] theorem newNode_children (symbol productionId : Nat) (children : List ParsedTree) :
    (newNode lang symbol productionId children).children = children := by
  cases children <;> rfl

theorem newNode_preorder (symbol productionId : Nat) (children : List ParsedTree) :
    (newNode lang symbol productionId children).preorder =
      toLex (symbol, children.length) :: preorders children := by
  have hpreorder (tree : ParsedTree) :
      tree.preorder = toLex (tree.symbol, tree.children.length) :: preorders tree.children := by
    obtain ⟨data, children⟩ := tree
    rw [preorder]
    rfl
  rw [hpreorder, newNode_symbol, newNode_children]

/-- A turn of the summary adds a precedence, and without errors it adds no error cost. -/
theorem addChild_keys {isFirst : Bool} {loop : SummaryLoop} {child : ChildFacts}
    (hnode : loop.node.isErrorNode = false) (hcost : loop.node.errorCost = 0)
    (hfree : child.errorCost = 0 ∧ child.symbol ≠ builtinSymErrorRepeat) :
    (loop.addChild lang isFirst child).node.dynamicPrecedence =
        addI32 loop.node.dynamicPrecedence child.dynamicPrecedence ∧
      (loop.addChild lang isFirst child).node.errorCost = 0 ∧
      (loop.addChild lang isFirst child).node.isErrorNode = false := by
  refine ⟨rfl, ?_, hnode⟩
  change loop.node.errorCostWith child = 0
  rw [InnerNode.errorCostWith, if_neg hfree.2, hnode, hfree.1, hcost]
  rfl

theorem foldl_addChild_keys {loop : SummaryLoop} {children : List ChildFacts}
    (hnode : loop.node.isErrorNode = false) (hcost : loop.node.errorCost = 0)
    (hfree : ∀ child ∈ children, child.errorCost = 0 ∧ child.symbol ≠ builtinSymErrorRepeat) :
    (children.foldl (SummaryLoop.addChild lang false) loop).node.dynamicPrecedence =
        children.foldl (fun total child => addI32 total child.dynamicPrecedence)
          loop.node.dynamicPrecedence ∧
      (children.foldl (SummaryLoop.addChild lang false) loop).node.errorCost = 0 ∧
      (children.foldl (SummaryLoop.addChild lang false) loop).node.isErrorNode = false := by
  induction children generalizing loop with
  | nil => exact ⟨rfl, hcost, hnode⟩
  | cons child children ih =>
    obtain ⟨hprecedence, hcost', hnode'⟩ :=
      @addChild_keys lang false _ _ hnode hcost (hfree child (mem_cons_self ..))
    rw [foldl_cons, foldl_cons, ← hprecedence]
    exact ih hnode' hcost' fun other hother => hfree other (mem_cons_of_mem _ hother)

variable {symbol : Nat}

/-- **The keys of a new node**: no error cost, and the precedences of its children together. -/
theorem newNode_keys (productionId : Nat) {children : List ParsedTree}
    (hsymbol : symbol ≠ builtinSymError ∧ symbol ≠ builtinSymErrorRepeat)
    (hfree : ∀ child ∈ children, ErrorFree child) :
    (newNode lang symbol productionId children).errorCost = 0 ∧
      (newNode lang symbol productionId children).dynamicPrecedence =
        totalPrecedence children := by
  cases children with
  | nil => exact ⟨rfl, rfl⟩
  | cons first rest =>
    have hfacts : ∀ child ∈ rest.map facts,
        child.errorCost = 0 ∧ child.symbol ≠ builtinSymErrorRepeat := by
      intro child hchild
      obtain ⟨tree, htree, rfl⟩ := mem_map.mp hchild
      exact hfree tree (mem_cons_of_mem _ htree)
    have hfirst : first.facts.errorCost = 0 ∧ first.facts.symbol ≠ builtinSymErrorRepeat :=
      hfree first (mem_cons_self ..)
    have hbuiltin : (symbol == builtinSymError || symbol == builtinSymErrorRepeat) = false := by
      rw [Bool.or_eq_false_iff, beq_eq_false_iff_ne, beq_eq_false_iff_ne]
      exact hsymbol
    obtain ⟨hprecedence, hcost, hnode⟩ := @addChild_keys lang true
      ⟨(InnerNode.initial symbol productionId (lang.symbolMetadata symbol).visible
        (lang.symbolMetadata symbol).named
        (symbol == builtinSymError || symbol == builtinSymErrorRepeat)).reset, 0, 0⟩
      first.facts hbuiltin rfl hfirst
    obtain ⟨hprecedence', hcost', hnode'⟩ := foldl_addChild_keys hnode hcost hfacts
    refine ⟨?_, ?_⟩
    · change (if InnerNode.isErrorNode _ then _ else _) = 0
      rw [if_neg (by rw [hnode']; exact Bool.false_ne_true)]
      exact hcost'
    · change (SummaryLoop.node _).dynamicPrecedence = _
      refine hprecedence'.trans ?_
      rw [hprecedence, foldl_map]
      rfl

/-! ### The choice -/

/-- What decides between lists of children: a high precedence first, then the order of subtrees. -/
def rank (symbol : Nat) (children : List ParsedTree) : Int ×ₗ List (Nat ×ₗ Nat) :=
  toLex (-totalPrecedence children, toLex (symbol, children.length) :: preorders children)

theorem rank_lt {children kept : List ParsedTree} : rank symbol children < rank symbol kept ↔
      totalPrecedence kept < totalPrecedence children ∨
      totalPrecedence kept = totalPrecedence children ∧
        toLex (symbol, children.length) :: preorders children <
          toLex (symbol, kept.length) :: preorders kept := by
  rw [rank, rank, Prod.Lex.toLex_lt_toLex, neg_lt_neg_iff, neg_inj, eq_comm]

theorem selectChildren_spec (productionId : Nat) {kept children : List ParsedTree}
    (hsymbol : symbol ≠ builtinSymError ∧ symbol ≠ builtinSymErrorRepeat)
    (hkept : ∀ child ∈ kept, ErrorFree child) (hchildren : ∀ child ∈ children, ErrorFree child) :
    ∃ replaces, selectChildren lang (newNode lang symbol productionId kept) children =
        some replaces ∧
      (replaces = true ↔ rank symbol children < rank symbol kept) := by
  obtain ⟨hcost, hprecedence⟩ := @newNode_keys lang symbol productionId kept hsymbol hkept
  obtain ⟨hcost', hprecedence'⟩ := @newNode_keys lang symbol 0 children hsymbol hchildren
  rw [selectChildren, newNode_symbol, selectTree, hcost, hcost', hprecedence, hprecedence',
    if_neg (lt_irrefl 0), if_neg (lt_irrefl 0), if_neg (lt_irrefl 0), compare_eq,
    newNode_preorder, newNode_preorder, rank_lt]
  rcases lt_trichotomy (totalPrecedence kept) (totalPrecedence children) with hlt | heq | hgt
  · exact ⟨true, if_pos hlt, fun _ => .inl hlt, fun _ => rfl⟩
  · rw [heq, if_neg (lt_irrefl _), if_neg (lt_irrefl _), or_iff_right (lt_irrefl _),
      and_iff_right rfl]
    exact ⟨_, rfl, decide_eq_true_iff.trans sign_eq_one⟩
  · refine ⟨false, ?_, fun h => absurd h Bool.false_ne_true, fun h => ?_⟩
    · rw [if_neg (not_lt.mpr hgt.le), if_pos hgt]
    · rcases h with hlt | ⟨heq, -⟩
      · exact absurd hlt hgt.not_gt
      · exact absurd heq hgt.ne'

/-- The lists of children that are looked at. -/
def trimmed (subtrees : List ParsedTree) : List ParsedTree := (removeTrailingExtras subtrees).1

theorem trimmed_errorFree {subtrees : List ParsedTree}
    (h : ∀ tree ∈ subtrees, ErrorFree tree) : ∀ child ∈ trimmed subtrees, ErrorFree child :=
  fun child hchild => h child ((List.rdropWhile_prefix _ _).mem hchild)

theorem foldlM_next {symbol productionId : Nat}
    (hsymbol : symbol ≠ builtinSymError ∧ symbol ≠ builtinSymErrorRepeat)
    {rest : List (List ParsedTree)} {kept extras : List ParsedTree}
    (hkept : ∀ child ∈ kept, ErrorFree child)
    (hrest : ∀ subtrees ∈ rest, ∀ tree ∈ subtrees, ErrorFree tree) :
    ∃ children extras', rest.foldlM (Selection.next lang symbol productionId)
        ⟨newNode lang symbol productionId kept, extras⟩ =
          some ⟨newNode lang symbol productionId children, extras'⟩ ∧
      children ∈ kept :: rest.map trimmed ∧
      ∀ other ∈ kept :: rest.map trimmed, rank symbol children ≤ rank symbol other := by
  induction rest generalizing kept extras with
  | nil =>
    refine ⟨kept, extras, rfl, mem_cons_self .., fun other hother => ?_⟩
    rw [mem_singleton.mp hother]
  | cons subtrees rest ih =>
    have hsubtrees := trimmed_errorFree (hrest subtrees (mem_cons_self ..))
    have hrest' : ∀ subtrees ∈ rest, ∀ tree ∈ subtrees, ErrorFree tree :=
      fun other hother => hrest other (mem_cons_of_mem _ hother)
    obtain ⟨replaces, hselect, hreplaces⟩ :=
      @selectChildren_spec lang symbol productionId kept _ hsymbol hkept hsubtrees
    have hnext : Selection.next lang symbol productionId
        ⟨newNode lang symbol productionId kept, extras⟩ subtrees =
        if replaces then some (Selection.first lang symbol productionId subtrees)
        else some ⟨newNode lang symbol productionId kept, extras⟩ := by
      rw [Selection.next]
      change (selectChildren lang (newNode lang symbol productionId kept) (trimmed subtrees)).bind
        _ = _
      rw [hselect]
      rfl
    rw [foldlM_cons, map_cons, hnext]
    cases replaces with
    | true =>
      obtain ⟨children, extras', hfold, hmem, hle⟩ :=
        @ih (trimmed subtrees) (removeTrailingExtras subtrees).2 hsubtrees hrest'
      refine ⟨children, extras', hfold, mem_cons_of_mem _ hmem, fun other hother => ?_⟩
      rcases mem_cons.mp hother with rfl | hother
      · exact (hle _ (mem_cons_self ..)).trans (hreplaces.mp rfl).le
      · exact hle other hother
    | false =>
      obtain ⟨children, extras', hfold, hmem, hle⟩ := @ih kept extras hkept hrest'
      refine ⟨children, extras', hfold, ?_, fun other hother => ?_⟩
      · rcases mem_cons.mp hmem with rfl | hmem
        · exact mem_cons_self ..
        · exact mem_cons_of_mem _ (mem_cons_of_mem _ hmem)
      · rcases mem_cons.mp hother with rfl | hother
        · exact hle _ (mem_cons_self ..)
        rcases mem_cons.mp hother with rfl | hother
        · have hnot : ¬ rank symbol (trimmed subtrees) < rank symbol kept :=
            fun hlt => Bool.false_ne_true (hreplaces.mpr hlt)
          exact (hle _ (mem_cons_self ..)).trans (not_lt.mp hnot)
        · exact hle other (mem_cons_of_mem _ hother)

variable (lang)

/-- The one list of children is as good as the other: it has a higher precedence, or the same and
the order does not put the other one first. -/
def AsGood (symbol productionId : Nat) (children other : List ParsedTree) : Prop :=
  totalPrecedence other < totalPrecedence children ∨
    totalPrecedence other = totalPrecedence children ∧
      (newNode lang symbol productionId children).compare
        (newNode lang symbol productionId other) ≠ some 1

variable {lang}

theorem asGood_iff {symbol productionId : Nat} {children other : List ParsedTree} :
    AsGood lang symbol productionId children other ↔ rank symbol children ≤ rank symbol other := by
  rw [← not_lt, rank_lt, AsGood, compare_eq, newNode_preorder, newNode_preorder, ne_eq,
    Option.some.injEq, sign_eq_one]
  rcases lt_trichotomy (totalPrecedence children) (totalPrecedence other) with hlt | heq | hgt
  · exact iff_of_false
      (fun h => h.elim (fun hgt => hgt.not_gt hlt) fun h => hlt.ne' h.1) (fun h => h (.inl hlt))
  · rw [heq, or_iff_right (lt_irrefl _), or_iff_right (lt_irrefl _), and_iff_right rfl,
      and_iff_right rfl]
  · exact iff_of_true (.inl hgt) fun h => h.elim hgt.not_gt fun h => hgt.ne' h.1

theorem selectLoop_spec {symbol productionId : Nat}
    (hsymbol : symbol ≠ builtinSymError ∧ symbol ≠ builtinSymErrorRepeat)
    {first : List ParsedTree} {rest : List (List ParsedTree)}
    (hfree : ∀ subtrees ∈ first :: rest, ∀ tree ∈ subtrees, ErrorFree tree) :
    ∃ children extras, selectLoop lang symbol productionId first rest =
        some ⟨newNode lang symbol productionId children, extras⟩ ∧
      children ∈ (first :: rest).map trimmed ∧
      ∀ other ∈ (first :: rest).map trimmed, rank symbol children ≤ rank symbol other :=
  foldlM_next hsymbol (trimmed_errorFree (hfree first (mem_cons_self ..)))
    fun subtrees hsubtrees => hfree subtrees (mem_cons_of_mem _ hsubtrees)

variable (lang)

/-- **Ambiguity resolution does not depend on the order.** The comparison of subtrees is that of
their sequences of symbols and numbers of children, a total preorder. Of any lists of children
without errors, one is kept that is as good as all of them; another order of the lists gives one
that has the same precedence and is equal by the comparison. -/
theorem selectLoop_best :
    (∀ left right : ParsedTree, left.compare right = some (sign left.preorder right.preorder)) ∧
    (IsPreorder ParsedTree fun left right => left.compare right ≠ some 1) ∧
    (∀ left right : ParsedTree, left.compare right ≠ some 1 ∨ right.compare left ≠ some 1) ∧
    ∀ (symbol productionId : Nat), symbol ≠ builtinSymError ∧ symbol ≠ builtinSymErrorRepeat →
      ∀ first rest, (∀ subtrees ∈ first :: rest, ∀ tree ∈ subtrees, ErrorFree tree) →
        ∃ selection, selectLoop lang symbol productionId first rest = some selection ∧
          selection.parent.children ∈ (first :: rest).map trimmed ∧
          (∀ children ∈ (first :: rest).map trimmed,
            AsGood lang symbol productionId selection.parent.children children) ∧
          ∀ first' rest', (first' :: rest').Perm (first :: rest) →
            ∃ selection', selectLoop lang symbol productionId first' rest' = some selection' ∧
              totalPrecedence selection'.parent.children =
                totalPrecedence selection.parent.children ∧
              selection'.parent.compare selection.parent = some 0 := by
  have hle (left right : ParsedTree) :
      left.compare right ≠ some 1 ↔ left.preorder ≤ right.preorder := by
    rw [compare_eq, ne_eq, Option.some.injEq, sign_eq_one, not_lt]
  refine ⟨compare_eq, ?_, fun left right => ?_, fun symbol productionId hsymbol first rest hfree =>
    ?_⟩
  · simp only [hle]
    exact { refl := fun tree => le_refl _, trans := fun _ _ _ h h' => le_trans h h' }
  · rw [hle, hle]
    exact le_total _ _
  · obtain ⟨children, extras, hloop, hmem, hbest⟩ :=
      @selectLoop_spec lang symbol productionId hsymbol first rest hfree
    refine ⟨_, hloop, ?_, fun other hother => ?_, fun first' rest' hperm => ?_⟩
    · rwa [newNode_children]
    · rw [newNode_children]
      exact asGood_iff.mpr (hbest other hother)
    · obtain ⟨children', extras', hloop', hmem', hbest'⟩ :=
        @selectLoop_spec lang symbol productionId hsymbol first' rest'
          fun subtrees hsubtrees => hfree subtrees (hperm.mem_iff.mp hsubtrees)
      have hsame {x : List ParsedTree} :
          x ∈ (first' :: rest').map trimmed ↔ x ∈ (first :: rest).map trimmed :=
        (hperm.map trimmed).mem_iff
      have heq : rank symbol children' = rank symbol children :=
        le_antisymm (hbest' _ (hsame.mpr hmem)) (hbest _ (hsame.mp hmem'))
      have hpair := congrArg ofLex heq
      simp only [rank, ofLex_toLex, Prod.mk.injEq, neg_inj] at hpair
      refine ⟨_, hloop', ?_, ?_⟩
      · rw [newNode_children, newNode_children]
        exact hpair.1
      · rw [compare_eq, newNode_preorder, newNode_preorder, hpair.2, sign_self]

def leafTree (symbol : Nat) : ParsedTree :=
  mk ((InnerNode.initial symbol 0 true true false).toFacts 0) []

theorem leafTree_errorFree : ∀ subtrees ∈ [[leafTree 4], [leafTree 3]], ∀ tree ∈ subtrees,
    ErrorFree tree := by
  intro subtrees hsubtrees tree htree
  rcases mem_cons.mp hsubtrees with rfl | hsubtrees
  · obtain rfl := mem_singleton.mp htree
    exact ⟨rfl, by decide⟩
  · obtain rfl := mem_singleton.mp hsubtrees
    obtain rfl := mem_singleton.mp htree
    exact ⟨rfl, by decide⟩

/-- A language without aliases. -/
def plainLanguage : TreeLanguage where
  maxAliasSequenceLength := 0
  aliasSequences _ := 0
  symbolMetadata _ := ⟨true, true, false⟩
  fieldMap _ := []

theorem selectLoop_best_leaves : ∃ selection,
    selectLoop plainLanguage 5 0 [leafTree 4] [[leafTree 3]] = some selection ∧
      selection.parent.children = [leafTree 3] ∧
      AsGood plainLanguage 5 0 selection.parent.children [leafTree 4] := by
  obtain ⟨-, -, -, hselect⟩ := selectLoop_best plainLanguage
  obtain ⟨selection, hloop, -, hbest, -⟩ :=
    hselect 5 0 (by decide) [leafTree 4] [[leafTree 3]] leafTree_errorFree
  have hkept : selectLoop plainLanguage 5 0 [leafTree 4] [[leafTree 3]] =
      some ⟨newNode plainLanguage 5 0 [leafTree 3], []⟩ := rfl
  cases hloop.symm.trans hkept
  exact ⟨_, rfl, rfl, hbest _ (mem_cons_self ..)⟩

end ParsedTree

end TreeSitter.Lib
