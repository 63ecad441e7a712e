import TreeSitter.Lib.TreeCursor

/-!
# TreeSitter.Lib.TreeCursor.Status

What a query is told about the current node (`ts_tree_cursor_current_status`,
`ts_tree_cursor_parent_node`) **against what the moves of the cursor say**.

All of these functions walk up the hidden ancestors of the current node, each with rules of its
own. They agree about later siblings. The field and the parent they agree about only in part:
an extra stops the search for a field in one walk and not in the other, and the walk to the parent
gives extras the alias of the child that follows them, and the first node none
(`statusAgrees_iff`).
-/

namespace TreeSitter.Lib

open List

/-- Each entry is the child of the next one that its index says. -/
def IsPath : List TreeCursorEntry → Prop
  | entry :: parent :: rest =>
    parent.subtree.children[entry.childIndex]? = some entry.subtree ∧ IsPath (parent :: rest)
  | [_] => True
  | [] => False

variable (lang : TreeLanguage)

/-- The language shows its aliases, and no field has the number 0. -/
structure TreeLanguage.Ok : Prop where
  aliasesVisible : lang.AliasesVisible
  fieldIds : ∀ productionId, ∀ entry ∈ lang.fieldMap productionId, entry.fieldId ≠ 0

/-- The visible siblings behind the current node: those in the hidden nodes that it is in, up to
the nearest visible one. -/
def laterSiblings (isFirst : Bool) : List TreeCursorEntry → List Shown
  | entry :: parent :: rest =>
    if !isFirst && isEntryVisible lang (entry :: parent :: rest) then []
    else
      shownFrom lang parent.subtree.productionId
        (nextStructuralIndex entry.structuralChildIndex entry.subtree)
        (parent.subtree.children.drop (entry.childIndex + 1)) ++
      laterSiblings false (parent :: rest)
  | _ => []

/-- The facts about the current node agree with the moves of the cursor. -/
structure StatusAgrees (rootAliasSymbol maxSupertypes : Nat) (stack : List TreeCursorEntry) :
    Prop where
  hasLaterSiblings : (currentStatus lang maxSupertypes stack).hasLaterSiblings =
    (gotoNextSibling lang stack).1
  hasLaterNamedSiblings : (currentStatus lang maxSupertypes stack).hasLaterNamedSiblings =
    (laterSiblings lang true stack).any (Shown.named lang)
  fieldId : (currentStatus lang maxSupertypes stack).fieldId = currentFieldId lang stack
  parent : parentNode lang stack = (gotoParent lang stack).bind (currentNode lang rootAliasSymbol)

/-! ### When they do -/

/-- The current node and its hidden ancestors, from the inside: whether they are extras, and the
field that each has itself, or 0. -/
def fieldLevels (isFirst : Bool) : List TreeCursorEntry → List (Bool × Nat)
  | entry :: parent :: rest =>
    if !isFirst && isEntryVisible lang (entry :: parent :: rest) then []
    else
      (entry.subtree.extra, if entry.subtree.extra then 0
        else (fieldOf lang parent.subtree.productionId entry.structuralChildIndex).getD 0) ::
      fieldLevels false (parent :: rest)
  | _ => []

/-- There is a field inside of all extras, or none outside of them. -/
def FieldInsideExtras (levels : List (Bool × Nat)) : Prop :=
  (∃ level ∈ levels.takeWhile (!·.1), level.2 ≠ 0) ∨
    ∀ level ∈ levels.dropWhile (!·.1), level.2 = 0

/-- From the parent up to the nearest visible entry, no extra stands before a child with an alias;
and if that is the first entry, it has no alias. -/
def PlainParent (rootAliasSymbol : Nat) : List TreeCursorEntry → Prop
  | [] => True
  | [entry] => entry.subtree.extra = true ∨ rootAliasSymbol = 0
  | entry :: parent :: rest =>
    ¬ (entry.subtree.extra = true ∧
      lang.aliasAt parent.subtree.productionId entry.structuralChildIndex ≠ 0) ∧
    (isEntryVisible lang (entry :: parent :: rest) = false →
      PlainParent rootAliasSymbol (parent :: rest))

variable {lang}

/-! ### The entries of a path are well formed -/

variable {rest : List TreeCursorEntry} {parent entry : TreeCursorEntry}

theorem IsPath.tail (h : IsPath (entry :: parent :: rest)) : IsPath (parent :: rest) := h.2

theorem IsPath.drop_eq (h : IsPath (entry :: parent :: rest)) :
    parent.subtree.children.drop entry.childIndex =
      entry.subtree :: parent.subtree.children.drop (entry.childIndex + 1) := by
  obtain ⟨hlt, heq⟩ := List.getElem?_eq_some_iff.mp h.1
  rw [List.drop_eq_getElem_cons hlt, heq]

theorem IsPath.wellFormed (h : IsPath (entry :: rest))
    (hroot : ∀ root, (entry :: rest).getLast? = some root → root.subtree.WellFormed lang) :
    entry.subtree.WellFormed lang := by
  induction rest generalizing entry with
  | nil => exact hroot entry rfl
  | cons parent rest ih =>
    have hparent : parent.subtree.WellFormed lang :=
      ih h.tail fun root hlast => hroot root (by simpa [getLast?_cons_cons] using hlast)
    exact hparent.child (mem_of_getElem? h.1)

variable {child : SyntaxTree}

theorem SyntaxTree.WellFormed.counted_child {tree : SyntaxTree} (h : tree.WellFormed lang)
    (hchild : child ∈ tree.children) : child.Counted lang :=
  (h.child hchild).counted fun _ hgrandchild => h.noEnd hchild hgrandchild

/-! ### Later siblings -/

variable {productionId : Nat}

theorem shownFrom_cons_eq_nil {structuralIndex : Nat} {children : List SyntaxTree} :
    shownFrom lang productionId structuralIndex (child :: children) = [] ↔
      child.visible = false ∧ aliasOf lang productionId structuralIndex child = 0 ∧
        child.shown lang = [] ∧
        shownFrom lang productionId (nextStructuralIndex structuralIndex child) children = [] := by
  rw [shownFrom, append_eq_nil_iff]
  by_cases hv : child.visible
  · simp [hv]
  · by_cases ha : aliasOf lang productionId structuralIndex child = 0
    · simp [hv, ha]
    · simp [hv, ha]

theorem findSome?_iteratorEntries {children : List SyntaxTree}
    (hcounted : ∀ child ∈ children, child.Counted lang) (stack : List TreeCursorEntry)
    (position : Length) (childIndex structuralIndex descendantIndex : Nat) :
    (iteratorEntries lang productionId children position childIndex structuralIndex
      descendantIndex).findSome? (stepTo stack) = none ↔
      shownFrom lang productionId structuralIndex children = [] := by
  induction children generalizing position childIndex structuralIndex descendantIndex with
  | nil => simp [iteratorEntries, shownFrom]
  | cons child children ih =>
    rw [forall_mem_cons] at hcounted
    rw [iteratorEntries, findSome?_eq_none_iff, forall_mem_cons,
      ← findSome?_eq_none_iff, ih hcounted.2, shownFrom_cons_eq_nil]
    have hshown : child.visibleChildCount = 0 ↔ child.shown lang = [] := by
      rw [hcounted.1.visible, length_eq_zero_iff]
    by_cases hv : child.visible
    · simp [stepTo, hv]
    · by_cases ha : aliasOf lang productionId structuralIndex child = 0
      · simp [stepTo, hv, ha, ← hshown]
      · simp [stepTo, hv, ha]

/-- The step of a sibling move is not `none`. -/
def CursorStep.isStep : CursorStep → Bool
  | .none => false
  | _ => true

variable {stack : List TreeCursorEntry}

theorem stepTo_isStep {found : TreeCursorEntry × Bool} {step : CursorStep}
    (h : stepTo stack found = some step) : step.isStep = true := by
  simp only [stepTo] at h
  split at h
  · cases h
    rfl
  · split at h <;> cases h
    rfl

theorem gotoNextSiblingFrom_isStep (h : IsPath stack)
    (hroot : ∀ root, stack.getLast? = some root → root.subtree.WellFormed lang) (isFirst : Bool) :
    (gotoNextSiblingFrom lang isFirst stack).isStep =
      !(laterSiblings lang isFirst stack).isEmpty := by
  induction stack generalizing isFirst with
  | nil => cases h
  | cons entry stack ih =>
    cases stack with
    | nil => rfl
    | cons parent rest =>
      have hroot' : ∀ root, (parent :: rest).getLast? = some root →
          root.subtree.WellFormed lang :=
        fun root hlast => hroot root (by simpa [getLast?_cons_cons] using hlast)
      have hparent := h.tail.wellFormed hroot'
      have hcounted : ∀ child ∈ parent.subtree.children.drop (entry.childIndex + 1),
          child.Counted lang :=
        fun child hchild => hparent.counted_child (mem_of_mem_drop hchild)
      rw [gotoNextSiblingFrom, iterateSiblings, h.drop_eq, iteratorEntries, laterSiblings]
      dsimp only
      have hvisible : isEntryVisible lang (entry :: parent :: rest) =
          (entry.subtree.visible || aliasOf lang parent.subtree.productionId
            entry.structuralChildIndex entry.subtree ≠ 0) := rfl
      rw [← hvisible]
      rw [Bool.and_comm]
      by_cases hstop : (!isFirst && isEntryVisible lang (entry :: parent :: rest)) = true
      · rw [if_pos hstop, if_pos hstop]
        rfl
      · rw [if_neg hstop, if_neg hstop]
        split
        next step hstep =>
          obtain ⟨found, _, hfound⟩ := exists_of_findSome?_eq_some hstep
          have hne : shownFrom lang parent.subtree.productionId
              (nextStructuralIndex entry.structuralChildIndex entry.subtree)
              (parent.subtree.children.drop (entry.childIndex + 1)) ≠ [] := by
            rw [Ne, ← findSome?_iteratorEntries hcounted (parent :: rest), hstep]
            simp
          simp [stepTo_isStep hfound, hne]
        next hnone =>
          rw [findSome?_iteratorEntries hcounted] at hnone
          rw [ih h.tail hroot' false, hnone]
          simp

theorem gotoNextSibling_fst (stack : List TreeCursorEntry) :
    (gotoNextSibling lang stack).1 = (gotoNextSiblingFrom lang true stack).isStep := by
  simp only [gotoNextSibling, gotoNextSiblingInternal]
  split <;> simp_all [CursorStep.isStep]

/-! ### The walk of the status -/

theorem metadata_visible (productionId structuralIndex : Nat) (hlang : lang.Ok)
    (h : child.Summarized lang) :
    (lang.symbolMetadata (subtreeSymbol lang productionId structuralIndex child)).visible =
      (child.visible || aliasOf lang productionId structuralIndex child ≠ 0) := by
  rw [subtreeSymbol]
  split
  next halias =>
    have hextra : child.extra = false := by
      by_contra hextra
      simp [aliasOf, hextra] at halias
    have heq : aliasOf lang productionId structuralIndex child =
        lang.aliasAt productionId structuralIndex := by simp [aliasOf, hextra]
    rw [heq] at halias ⊢
    simp [halias, hlang.aliasesVisible productionId structuralIndex halias]
  next halias => simpa [halias] using h.visible.symm

theorem metadata_named (productionId structuralIndex : Nat) (h : child.Summarized lang) :
    (lang.symbolMetadata (subtreeSymbol lang productionId structuralIndex child)).named =
      Shown.named lang ⟨child, aliasOf lang productionId structuralIndex child⟩ := by
  rw [subtreeSymbol, Shown.named]
  split
  · rfl
  · exact h.named.symm

theorem statusOfSiblings_eq {siblings : List SyntaxTree} (hlang : lang.Ok)
    (hsummarized : ∀ sibling ∈ siblings, sibling.Summarized lang)
    (hcounted : ∀ sibling ∈ siblings, sibling.Counted lang) (structuralIndex : Nat)
    (status : CursorStatus) (hnamed : status.hasLaterNamedSiblings = false) :
    statusOfSiblings lang productionId siblings structuralIndex status =
      { status with
        hasLaterSiblings := status.hasLaterSiblings ||
          !(shownFrom lang productionId structuralIndex siblings).isEmpty
        hasLaterNamedSiblings :=
          (shownFrom lang productionId structuralIndex siblings).any (Shown.named lang) } := by
  induction siblings generalizing structuralIndex status with
  | nil =>
    cases status
    simp_all [statusOfSiblings, shownFrom]
  | cons sibling siblings ih =>
    rw [forall_mem_cons] at hsummarized hcounted
    have hvisible := metadata_visible productionId structuralIndex hlang hsummarized.1
    have hname := metadata_named productionId structuralIndex hsummarized.1
    have ih := fun status => ih hsummarized.2 hcounted.2
      (nextStructuralIndex structuralIndex sibling) status
    rw [statusOfSiblings, shownFrom, hvisible, hname]
    by_cases hshown : sibling.visible ∨ aliasOf lang productionId structuralIndex sibling ≠ 0
    · rw [if_pos (by simpa using hshown), if_pos hshown]
      split
      next hnamed' => simp [hnamed']
      next hnamed' =>
        rw [ih { status with hasLaterSiblings := true } hnamed]
        simp [hnamed']
    · rw [if_neg (by simpa using hshown), if_neg hshown]
      have hcount := hcounted.1.visible
      have hcount' := hcounted.1.named
      by_cases hpos : sibling.visibleChildCount > 0
      · rw [if_pos hpos]
        have hne : sibling.shown lang ≠ [] := by
          rw [hcount] at hpos
          exact length_pos_iff.mp hpos
        split
        next hpos' =>
          have hany : (sibling.shown lang).any (Shown.named lang) = true := by
            rw [hcount', gt_iff_lt, countP_pos_iff] at hpos'
            exact any_eq_true.mpr hpos'
          simp [hne, hany]
        next hpos' =>
          have hany : (sibling.shown lang).any (Shown.named lang) = false := by
            rw [hcount', gt_iff_lt, countP_pos_iff] at hpos'
            rw [Bool.eq_false_iff, Ne, any_eq_true]
            exact hpos'
          rw [ih { status with hasLaterSiblings := true } hnamed]
          simp [hne, hany]
      · rw [if_neg hpos]
        have hnil : sibling.shown lang = [] := by
          rw [← length_eq_zero_iff, ← hcount]
          omega
        rw [ih _ hnamed, hnil]
        simp

def firstField (levels : List (Bool × Nat)) : Nat :=
  ((levels.map Prod.snd).find? (· ≠ 0)).getD 0

theorem firstField_cons (level : Bool × Nat) (levels : List (Bool × Nat)) :
    firstField (level :: levels) = if level.2 ≠ 0 then level.2 else firstField levels := by
  rw [firstField, map_cons, find?_cons]
  by_cases h : level.2 = 0
  · simp [h, firstField]
  · simp [h]

theorem statusOfField_fieldId (entry parent : TreeCursorEntry) (status : CursorStatus) :
    (statusOfField lang entry parent status).fieldId =
      if status.fieldId ≠ 0 then status.fieldId
      else if entry.subtree.extra then 0
      else (fieldOf lang parent.subtree.productionId entry.structuralChildIndex).getD 0 := by
  rw [statusOfField]
  by_cases hextra : entry.subtree.extra
  · by_cases hfield : status.fieldId = 0
    · simp [hextra, hfield]
    · simp [hextra, hfield]
  · simp [hextra]

theorem statusOfField_siblings (lang : TreeLanguage) (entry parent : TreeCursorEntry)
    (status : CursorStatus) :
    (statusOfField lang entry parent status).hasLaterSiblings = status.hasLaterSiblings ∧
      (statusOfField lang entry parent status).hasLaterNamedSiblings =
        status.hasLaterNamedSiblings := by
  rw [statusOfField]
  split <;> exact ⟨rfl, rfl⟩

theorem statusOfLevel_eq (entry : TreeCursorEntry) (hlang : lang.Ok)
    (hparent : parent.subtree.WellFormed lang) (status : CursorStatus)
    (hnamed : status.hasLaterNamedSiblings = true → status.hasLaterSiblings = true) :
    let later := shownFrom lang parent.subtree.productionId
      (nextStructuralIndex entry.structuralChildIndex entry.subtree)
      (parent.subtree.children.drop (entry.childIndex + 1))
    (statusOfLevel lang entry parent status).hasLaterSiblings =
        (status.hasLaterSiblings || !later.isEmpty) ∧
      (statusOfLevel lang entry parent status).hasLaterNamedSiblings =
        (status.hasLaterNamedSiblings || later.any (Shown.named lang)) ∧
      (statusOfLevel lang entry parent status).fieldId = status.fieldId := by
  intro later
  rw [statusOfLevel]
  split
  next h => simp [h, hnamed h]
  next h =>
    have hnamed' : status.hasLaterNamedSiblings = false := by simpa using h
    rw [statusOfSiblings_eq hlang (fun _ hmem => (hparent.child (mem_of_mem_drop hmem)).summarized)
      (fun _ hmem => hparent.counted_child (mem_of_mem_drop hmem)) _ status hnamed']
    simp [hnamed', later]

theorem statusOfSupertype_eq (lang : TreeLanguage) (maxSupertypes symbol : Nat)
    (status : CursorStatus) :
    (statusOfSupertype lang maxSupertypes symbol status).hasLaterSiblings =
        status.hasLaterSiblings ∧
      (statusOfSupertype lang maxSupertypes symbol status).hasLaterNamedSiblings =
        status.hasLaterNamedSiblings ∧
      (statusOfSupertype lang maxSupertypes symbol status).fieldId = status.fieldId := by
  rw [statusOfSupertype]
  split <;> exact ⟨rfl, rfl, rfl⟩

theorem statusOfEntry_eq (entry : TreeCursorEntry) (hlang : lang.Ok)
    (hparent : parent.subtree.WellFormed lang) (maxSupertypes symbol : Nat)
    (status : CursorStatus)
    (hnamed : status.hasLaterNamedSiblings = true → status.hasLaterSiblings = true) :
    let later := shownFrom lang parent.subtree.productionId
      (nextStructuralIndex entry.structuralChildIndex entry.subtree)
      (parent.subtree.children.drop (entry.childIndex + 1))
    let status' := statusOfField lang entry parent
      (statusOfLevel lang entry parent (statusOfSupertype lang maxSupertypes symbol status))
    status'.hasLaterSiblings = (status.hasLaterSiblings || !later.isEmpty) ∧
      status'.hasLaterNamedSiblings =
        (status.hasLaterNamedSiblings || later.any (Shown.named lang)) ∧
      status'.fieldId =
        if status.fieldId ≠ 0 then status.fieldId
        else if entry.subtree.extra then 0
        else (fieldOf lang parent.subtree.productionId entry.structuralChildIndex).getD 0 := by
  intro later status'
  obtain ⟨hlater₁, hnamed₁, hfield₁⟩ := statusOfSupertype_eq lang maxSupertypes symbol
    status
  obtain ⟨hlater₂, hnamed₂, hfield₂⟩ := statusOfLevel_eq entry hlang hparent
    (statusOfSupertype lang maxSupertypes symbol status) (by rwa [hlater₁, hnamed₁])
  obtain ⟨hlater₃, hnamed₃⟩ := statusOfField_siblings lang entry parent
    (statusOfLevel lang entry parent (statusOfSupertype lang maxSupertypes symbol status))
  refine ⟨?_, ?_, ?_⟩
  · rw [hlater₃, hlater₂, hlater₁]
  · rw [hnamed₃, hnamed₂, hnamed₁]
  · rw [statusOfField_fieldId, hfield₂, hfield₁]

theorem later_of_named {later : List Shown} {knowsNamed knows : Bool}
    (h : knowsNamed = true → knows = true) :
    (knowsNamed || later.any (Shown.named lang)) = true → (knows || !later.isEmpty) = true := by
  cases later with
  | nil => simpa using h
  | cons => simp

theorem not_isEmpty_append (later later' : List Shown) :
    (!(later ++ later').isEmpty) = (!later.isEmpty || !later'.isEmpty) := by
  cases later with
  | nil => rfl
  | cons => rfl

theorem currentStatusFrom_eq (maxSupertypes : Nat) (hlang : lang.Ok) (h : IsPath stack)
    (hroot : ∀ root, stack.getLast? = some root → root.subtree.WellFormed lang) (isFirst : Bool)
    (status : CursorStatus)
    (hnamed : status.hasLaterNamedSiblings = true → status.hasLaterSiblings = true) :
    (currentStatusFrom lang maxSupertypes isFirst stack status).hasLaterSiblings =
      (status.hasLaterSiblings || !(laterSiblings lang isFirst stack).isEmpty) ∧
    (currentStatusFrom lang maxSupertypes isFirst stack status).hasLaterNamedSiblings =
      (status.hasLaterNamedSiblings || (laterSiblings lang isFirst stack).any (Shown.named lang)) ∧
    (currentStatusFrom lang maxSupertypes isFirst stack status).fieldId =
      if status.fieldId ≠ 0 then status.fieldId
      else firstField (fieldLevels lang isFirst stack) := by
  induction stack generalizing isFirst status with
  | nil => cases h
  | cons entry stack ih =>
    cases stack with
    | nil => simp [currentStatusFrom, laterSiblings, fieldLevels, firstField]
    | cons parent rest =>
      have hroot' : ∀ root, (parent :: rest).getLast? = some root →
          root.subtree.WellFormed lang :=
        fun root hlast => hroot root (by simpa [getLast?_cons_cons] using hlast)
      have hparent := h.tail.wellFormed hroot'
      have hentry := h.wellFormed hroot
      have hvisible : (lang.symbolMetadata (subtreeSymbol lang parent.subtree.productionId
          entry.structuralChildIndex entry.subtree)).visible =
          isEntryVisible lang (entry :: parent :: rest) :=
        metadata_visible _ _ hlang hentry.summarized
      rw [currentStatusFrom, laterSiblings, fieldLevels, hvisible]
      by_cases hstop : (!isFirst && isEntryVisible lang (entry :: parent :: rest)) = true
      · rw [if_pos hstop, if_pos hstop, if_pos hstop]
        simp [firstField]
      · rw [if_neg hstop, if_neg hstop, if_neg hstop]
        obtain ⟨hlater₁, hnamed₁, hfield₁⟩ := statusOfEntry_eq entry hlang hparent
          maxSupertypes (subtreeSymbol lang parent.subtree.productionId
            entry.structuralChildIndex entry.subtree) status hnamed
        obtain ⟨hlater, hname, hfield⟩ := ih h.tail hroot' false _ (by
          rw [hlater₁, hnamed₁]
          exact later_of_named hnamed)
        refine ⟨?_, ?_, ?_⟩
        · rw [hlater, hlater₁, not_isEmpty_append, Bool.or_assoc]
        · rw [hname, hnamed₁, any_append, Bool.or_assoc]
        · rw [hfield, hfield₁, firstField_cons]
          by_cases hzero : status.fieldId = 0
          · simp [hzero]
          · simp [hzero]

/-! ### Fields -/

theorem fieldOf_ne_zero (hlang : lang.Ok) {structuralIndex fieldId : Nat}
    (h : fieldOf lang productionId structuralIndex = some fieldId) : fieldId ≠ 0 := by
  obtain ⟨entry, hentry, rfl⟩ := Option.map_eq_some_iff.mp h
  exact hlang.fieldIds productionId entry (mem_of_find?_eq_some hentry)

theorem currentFieldIdFrom_eq (hlang : lang.Ok) (isFirst : Bool) (stack : List TreeCursorEntry) :
    currentFieldIdFrom lang isFirst stack =
      firstField ((fieldLevels lang isFirst stack).takeWhile (!·.1)) := by
  induction stack generalizing isFirst with
  | nil => rfl
  | cons entry stack ih =>
    cases stack with
    | nil => rfl
    | cons parent rest =>
      rw [currentFieldIdFrom, fieldLevels]
      by_cases hstop : (!isFirst && isEntryVisible lang (entry :: parent :: rest)) = true
      · rw [if_pos hstop, if_pos hstop]
        rfl
      · rw [if_neg hstop, if_neg hstop]
        by_cases hextra : entry.subtree.extra
        · simp [hextra, firstField]
        · simp only [hextra, Bool.not_false, takeWhile_cons, if_true, firstField_cons,
            Bool.false_eq_true, if_false]
          cases hfield : fieldOf lang parent.subtree.productionId
              entry.structuralChildIndex with
          | none => simp [ih false]
          | some fieldId => simp [fieldOf_ne_zero hlang hfield]

theorem firstField_eq_zero {levels : List (Bool × Nat)} :
    firstField levels = 0 ↔ ∀ level ∈ levels, level.2 = 0 := by
  induction levels with
  | nil => simp [firstField]
  | cons level levels ih =>
    rw [firstField_cons, forall_mem_cons]
    by_cases h : level.2 = 0
    · simp [h, ih]
    · simp [h]

theorem firstField_append (levels levels' : List (Bool × Nat)) :
    firstField (levels ++ levels') =
      if firstField levels ≠ 0 then firstField levels else firstField levels' := by
  induction levels with
  | nil => simp [firstField]
  | cons level levels ih =>
    rw [cons_append, firstField_cons, firstField_cons, ih]
    by_cases h : level.2 = 0
    · simp [h]
    · simp [h]

/-- The two walks find the same field exactly if it is inside of all extras. -/
theorem firstField_takeWhile_iff (levels : List (Bool × Nat)) :
    firstField levels = firstField (levels.takeWhile (!·.1)) ↔ FieldInsideExtras levels := by
  have hsplit := firstField_append (levels.takeWhile (!·.1)) (levels.dropWhile (!·.1))
  rw [takeWhile_append_dropWhile] at hsplit
  rw [FieldInsideExtras, ← firstField_eq_zero, hsplit]
  by_cases hzero : firstField (levels.takeWhile (!·.1)) = 0
  · have hnone : ¬ ∃ level ∈ levels.takeWhile (!·.1), level.2 ≠ 0 := by
      intro ⟨level, hmem, hne⟩
      exact hne (firstField_eq_zero.mp hzero level hmem)
    simp only [hzero, ne_eq, not_true_eq_false, if_false]
    exact ⟨.inr, fun h => h.resolve_left hnone⟩
  · have hsome : ∃ level ∈ levels.takeWhile (!·.1), level.2 ≠ 0 := by
      by_contra hnone
      push Not at hnone
      exact hzero (firstField_eq_zero.mpr hnone)
    simp only [ne_eq, hzero, not_false_eq_true, if_true, true_iff]
    exact .inl hsome

/-! ### Parents -/

theorem nearestVisible_length (lang : TreeLanguage) (stack : List TreeCursorEntry) :
    (nearestVisible lang stack).length ≤ stack.length := by
  induction stack with
  | nil => rfl
  | cons entry stack ih =>
    rw [nearestVisible]
    split
    · rfl
    · exact le_trans ih (Nat.le_succ _)

theorem currentNode_id_length {rootAliasSymbol : Nat} {node : TSNode}
    (h : currentNode lang rootAliasSymbol stack = some node) :
    node.id.length = stack.length - 1 := by
  match stack, h with
  | [entry], h =>
    cases h
    rfl
  | entry :: parent :: rest, h =>
    cases h
    simp [stackPath]

theorem parentNodeFrom_eq_iff (lang : TreeLanguage) (rootAliasSymbol : Nat) (hne : stack ≠ []) :
    parentNodeFrom lang stack = currentNode lang rootAliasSymbol (nearestVisible lang stack) ↔
      PlainParent lang rootAliasSymbol stack := by
  induction stack with
  | nil => exact absurd rfl hne
  | cons entry stack ih =>
    cases stack with
    | nil =>
      have hvisible : isEntryVisible lang [entry] = true := rfl
      rw [nearestVisible, if_pos hvisible, parentNodeFrom, currentNode, PlainParent]
      by_cases hextra : entry.subtree.extra
      · simp [hextra]
      · simp [hextra, eq_comm]
    | cons parent rest =>
      have ih := ih (by simp)
      rw [parentNodeFrom, PlainParent, nearestVisible]
      by_cases hplain : entry.subtree.extra = true ∧
          lang.aliasAt parent.subtree.productionId entry.structuralChildIndex ≠ 0
      · -- The walk stops at the extra, with the alias of another child.
        obtain ⟨hextra, halias⟩ := hplain
        rw [if_pos (.inl halias)]
        refine iff_of_false (fun heq => ?_) (fun hplain => hplain.1 ⟨hextra, halias⟩)
        split at heq
        · simp only [currentNode, Option.some.injEq, TSNode.mk.injEq] at heq
          simp [entryAlias, aliasOf, hextra, halias] at heq
        · have hlength := currentNode_id_length heq.symm
          have hle := nearestVisible_length lang (parent :: rest)
          simp only [stackPath, length_map, length_dropLast, length_cons]
            at hlength hle
          omega
      · have halias : entryAlias lang entry parent =
            lang.aliasAt parent.subtree.productionId entry.structuralChildIndex := by
          rw [entryAlias, aliasOf]
          split
          next hextra =>
            by_contra hne
            exact hplain ⟨hextra, Ne.symm hne⟩
          next => rfl
        by_cases hvisible : isEntryVisible lang (entry :: parent :: rest) = true
        · have hshown : lang.aliasAt parent.subtree.productionId entry.structuralChildIndex ≠ 0 ∨
              entry.subtree.visible = true := by
            simpa [isEntryVisible, halias, or_comm] using hvisible
          rw [if_pos hshown, if_pos hvisible, currentNode, halias]
          simp [hplain, hvisible]
        · have hhidden : ¬ (lang.aliasAt parent.subtree.productionId
              entry.structuralChildIndex ≠ 0 ∨ entry.subtree.visible = true) := by
            simpa [isEntryVisible, halias, or_comm] using hvisible
          rw [if_neg hhidden, if_neg hvisible, ih]
          simp [hplain, hvisible]

/-! ### All facts -/

/-- The facts that queries use agree with the moves of the cursor exactly if the field of the
current node is inside of all extras and its parent is reached without one. -/
theorem statusAgrees_iff {rootAliasSymbol maxSupertypes : Nat} {entry parent : TreeCursorEntry}
    {rest : List TreeCursorEntry} (hlang : lang.Ok) (hpath : IsPath (entry :: parent :: rest))
    (hroot : ∀ root, (entry :: parent :: rest).getLast? = some root →
      root.subtree.WellFormed lang) :
    StatusAgrees lang rootAliasSymbol maxSupertypes (entry :: parent :: rest) ↔
      FieldInsideExtras (fieldLevels lang true (entry :: parent :: rest)) ∧
        PlainParent lang rootAliasSymbol (parent :: rest) := by
  obtain ⟨hlater, hnamed, hfield⟩ := currentStatusFrom_eq maxSupertypes hlang
    hpath hroot true ⟨0, false, false, false, []⟩ (by simp)
  have hfield' : (currentStatus lang maxSupertypes (entry :: parent :: rest)).fieldId =
      currentFieldId lang (entry :: parent :: rest) ↔
      FieldInsideExtras (fieldLevels lang true (entry :: parent :: rest)) := by
    rw [← firstField_takeWhile_iff, currentStatus, hfield, currentFieldId,
      currentFieldIdFrom_eq hlang]
    simp
  have hparent := parentNodeFrom_eq_iff lang rootAliasSymbol
    (cons_ne_nil parent rest)
  constructor
  · intro hagrees
    exact ⟨hfield'.mp hagrees.fieldId, hparent.mp hagrees.parent⟩
  · intro ⟨hinside, hplain⟩
    refine ⟨?_, ?_, hfield'.mpr hinside, hparent.mpr hplain⟩
    · rw [currentStatus, hlater, gotoNextSibling_fst, gotoNextSiblingFrom_isStep hpath hroot]
      simp
    · rw [currentStatus, hnamed]
      simp

/-- A language in which the symbol 2 is hidden, and the first child of the production 1 has a
field. -/
def commentedLanguage : TreeLanguage where
  maxAliasSequenceLength := 1
  aliasSequences _ := 0
  symbolMetadata symbol := ⟨symbol ≠ 2, true, false⟩
  fieldMap productionId := if productionId = 1 then [⟨1, 0, false⟩] else []

/-- A node with one child, which is hidden and has the field; in it are two nodes, with a
comment between them. -/
def commentedTree : SyntaxTree :=
  let length : Length := ⟨1, ⟨0, 1⟩⟩
  let comment := .mk ⟨3, true, true, true, 0, ⟨0, ⟨0, 0⟩⟩, length, 0, 0, 0⟩ []
  let node := .mk ⟨4, true, true, false, 0, ⟨0, ⟨0, 0⟩⟩, length, 0, 0, 0⟩ []
  let size := (length.add length).add length
  let hidden := .mk ⟨2, false, true, false, 0, ⟨0, ⟨0, 0⟩⟩, size, 3, 3, 3⟩ [node, comment, node]
  .mk ⟨1, true, true, false, 1, ⟨0, ⟨0, 0⟩⟩, size, 3, 3, 3⟩ [hidden]

theorem commentedLanguage_ok : commentedLanguage.Ok where
  aliasesVisible productionId i h := by simp [TreeLanguage.aliasAt, commentedLanguage] at h
  fieldIds productionId entry h := by
    simp only [commentedLanguage] at h
    split at h
    · rw [mem_singleton] at h
      simp [h]
    · cases h

theorem commentedTree_wellFormed : commentedTree.WellFormed commentedLanguage := by
  refine .mk ⟨rfl, rfl, fun _ => by decide⟩ ?_ (by decide)
  intro hidden hhidden
  rw [mem_singleton.mp hhidden]
  refine .mk ⟨rfl, rfl, fun _ => by decide⟩ ?_ (by decide)
  intro child hchild
  simp only [SyntaxTree.children, mem_cons, not_mem_nil, or_false] at hchild
  rcases hchild with rfl | rfl | rfl
  all_goals
    exact .mk ⟨rfl, rfl, fun h => absurd rfl h⟩ (by simp [SyntaxTree.children])
      (by simp [SyntaxTree.children])

/-- At the comment, a query is told of a field that the cursor does not see. -/
theorem exists_not_statusAgrees : ∃ (lang : TreeLanguage) (tree : SyntaxTree)
    (stack : List TreeCursorEntry), lang.Ok ∧ tree.WellFormed lang ∧
      gotoNextSibling lang (gotoFirstChild lang [⟨tree, ⟨0, ⟨0, 0⟩⟩, 0, 0, 0⟩]).2 = (true, stack) ∧
      ¬ StatusAgrees lang 0 8 stack := by
  refine ⟨commentedLanguage, commentedTree, _, commentedLanguage_ok, commentedTree_wellFormed,
    rfl, fun h => ?_⟩
  exact absurd h.fieldId (by decide +kernel)

/-- At the node behind the comment, they agree. -/
theorem statusAgrees_afterComment : ∃ stack,
    gotoNextSibling commentedLanguage (gotoNextSibling commentedLanguage
      (gotoFirstChild commentedLanguage [⟨commentedTree, ⟨0, ⟨0, 0⟩⟩, 0, 0, 0⟩]).2).2 =
        (true, stack) ∧
      StatusAgrees commentedLanguage 0 8 stack := by
  refine ⟨[_, _, _], rfl, (statusAgrees_iff commentedLanguage_ok ?_ ?_).mpr ⟨?_, ?_⟩⟩
  · exact ⟨rfl, rfl, trivial⟩
  · intro root hroot
    cases hroot
    exact commentedTree_wellFormed
  · exact .inl ⟨(false, 1), by decide +kernel, by decide⟩
  · exact ⟨by decide, fun _ => .inr rfl⟩

end TreeSitter.Lib
