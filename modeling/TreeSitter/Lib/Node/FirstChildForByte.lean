import TreeSitter.Lib.Node.Parent

/-!
# TreeSitter.Lib.Node.FirstChildForByte

**The first child behind a byte** (`ts_node__first_child_for_byte`). The search goes down into a
child that ends after the goal and is not relevant itself, and when it has used up the children of
that node, it goes on with an iterator that it saved on the way down. There is room for one
iterator only, and whether one is saved depends on the number of children of the node that is
entered, not of the one that is left; so later siblings get lost. For named children it also goes
down into visible anonymous nodes, whose children are not children of the node.

`ByteSearch` is the state of the search with all the lists of later siblings that are pending, the
lost ones too. The search finds the first relevant visible child that ends after the goal exactly
if in each state it comes to nothing relevant is skipped and nothing is found inside of an
anonymous node (`firstChildForByte_iff`).
-/

namespace TreeSitter.Lib

open List

variable (lang : TreeLanguage) (goal : Nat) (includeAnonymous : Bool)

/-! ### What the search should find -/

/-- A relevant node that ends after the goal. -/
def isTarget (node : TSNode) : Bool :=
  decide (goal < node.endByte) && node.isRelevant lang includeAnonymous

/-- The search ends, and returns the first relevant visible child that ends after the goal, or
null if there is none. -/
def FindsFirst (node : TSNode) : Prop :=
  ∃ fuel, firstChildForByte lang node goal includeAnonymous fuel =
    some ((node.shown lang).find? (isTarget lang goal includeAnonymous))

/-! ### The states of the search -/

/-- A list of later siblings: the index of the first one, and whether they are inside of a visible
node that the search has entered. -/
structure SearchLevel where
  childIndex : Nat
  rest : List TSNode
  inside : Bool

/-- The state of the search: the current list, those further in than the saved one, innermost
first, the saved one, and those further out. -/
structure ByteSearch where
  level : SearchLevel
  skipped : List SearchLevel
  saved : Option SearchLevel
  outer : List SearchLevel

/-- The search stops at the child: it returns it, or enters it. -/
def stopsAt (child : TSNode) : Bool :=
  decide (goal < child.endByte) &&
    (child.isRelevant lang includeAnonymous || decide (child.childCount > 0))

/-- The state when a child has been entered. The number of children that decides whether the later
siblings are saved is that of the child. -/
def ByteSearch.enter (state : ByteSearch) (later : SearchLevel) (child : TSNode) : ByteSearch :=
  let level : SearchLevel :=
    ⟨0, child.children lang, state.level.inside || child.isRelevant lang true⟩
  if later.childIndex < child.subtree.children.length then
    ⟨level, [], some later, state.skipped ++ state.saved.toList ++ state.outer⟩
  else ⟨level, later :: state.skipped, state.saved, state.outer⟩

/-- The search goes on from one state to another. -/
inductive ByteSearch.Step : ByteSearch → ByteSearch → Prop where
  | enter {state : ByteSearch} {front back : List TSNode} {child : TSNode}
      (hrest : state.level.rest = front ++ child :: back)
      (hfront : ∀ other ∈ front, stopsAt lang goal includeAnonymous other = false)
      (hchild : stopsAt lang goal includeAnonymous child = true)
      (hidden : child.isRelevant lang includeAnonymous = false) :
      Step state (state.enter lang
        ⟨state.level.childIndex + front.length + 1, back, state.level.inside⟩ child)
  | resume {state : ByteSearch} {saved : SearchLevel}
      (hrest : ∀ other ∈ state.level.rest, stopsAt lang goal includeAnonymous other = false)
      (hsaved : state.saved = some saved) :
      Step state ⟨saved, state.outer, none, []⟩

def ByteSearch.start (node : TSNode) : ByteSearch := ⟨⟨0, node.children lang, false⟩, [], none, []⟩

def SearchLevel.targets (level : SearchLevel) : List TSNode :=
  if level.inside then []
  else (level.rest.flatMap (TSNode.shownSelf lang)).filter (isTarget lang goal includeAnonymous)

/-- The search does not go wrong in this state. -/
structure ByteSearch.Sound (state : ByteSearch) : Prop where
  /-- If the current list is used up, nothing that the search is for is skipped. -/
  skipped : (∀ other ∈ state.level.rest, stopsAt lang goal includeAnonymous other = false) →
    ∀ level ∈ state.skipped, level.targets lang goal includeAnonymous = []
  /-- If a child is returned, it is not inside of a visible node. -/
  outside : ∀ front child back, state.level.rest = front ++ child :: back →
    (∀ other ∈ front, stopsAt lang goal includeAnonymous other = false) →
    isTarget lang goal includeAnonymous child = true → state.level.inside = false

/-- The search comes to the state. -/
def ByteSearch.Reached (node : TSNode) (state : ByteSearch) : Prop :=
  Relation.ReflTransGen (ByteSearch.Step lang goal includeAnonymous) (ByteSearch.start lang node)
    state

variable {lang goal includeAnonymous}

/-! ### The loop and the states -/

theorem firstChildForByteScan_exhausted {children : List TSNode}
    (h : ∀ other ∈ children, stopsAt lang goal includeAnonymous other = false)
    (last : Option NodeChildIterator) (childIndex : Nat) :
    firstChildForByteScan lang goal includeAnonymous last childIndex children = .exhausted := by
  induction children generalizing childIndex with
  | nil => rfl
  | cons child children ih =>
    rw [forall_mem_cons] at h
    have hchild := h.1
    rw [firstChildForByteScan, ih h.2]
    split_ifs with hend hrelevant hcount
    · simp [stopsAt, hend, hrelevant] at hchild
    · simp [stopsAt, hend, hcount] at hchild
    · rfl
    · rfl

variable {front back : List TSNode}

theorem firstChildForByteScan_append {child : TSNode}
    (hfront : ∀ other ∈ front, stopsAt lang goal includeAnonymous other = false)
    (hchild : stopsAt lang goal includeAnonymous child = true) (last : Option NodeChildIterator)
    (childIndex : Nat) :
    firstChildForByteScan lang goal includeAnonymous last childIndex (front ++ child :: back) =
      if child.isRelevant lang includeAnonymous then .found child
      else .descend child (if childIndex + front.length + 1 < child.subtree.children.length then
        some ⟨childIndex + front.length + 1, back⟩ else last) := by
  induction front generalizing childIndex with
  | nil =>
    rw [stopsAt, Bool.and_eq_true, decide_eq_true_iff, Bool.or_eq_true,
      decide_eq_true_iff] at hchild
    rw [nil_append, firstChildForByteScan, if_pos hchild.1, length_nil, Nat.add_zero]
    by_cases hrelevant : child.isRelevant lang includeAnonymous = true
    · rw [if_pos hrelevant, if_pos hrelevant]
    · rw [if_neg hrelevant, if_pos (hchild.2.resolve_left hrelevant), if_neg hrelevant]
  | cons other front ih =>
    rw [forall_mem_cons] at hfront
    have hother := hfront.1
    have hindex : childIndex + (other :: front).length + 1 = childIndex + 1 + front.length + 1 := by
      rw [length_cons]
      omega
    rw [cons_append, firstChildForByteScan, ih hfront.2, hindex]
    by_cases hend : other.endByte > goal
    · have hnot : ¬ (other.isRelevant lang includeAnonymous = true ∨ other.childCount > 0) := by
        simpa [stopsAt, hend] using hother
      rw [if_pos hend, if_neg (fun h => hnot (Or.inl h)), if_neg (fun h => hnot (Or.inr h))]
    · rw [if_neg hend]

theorem stopsAt_cases (lang : TreeLanguage) (goal : Nat) (includeAnonymous : Bool)
    (children : List TSNode) :
    (∀ other ∈ children, stopsAt lang goal includeAnonymous other = false) ∨
      ∃ front child back, children = front ++ child :: back ∧
        (∀ other ∈ front, stopsAt lang goal includeAnonymous other = false) ∧
        stopsAt lang goal includeAnonymous child = true := by
  cases h : children.find? (stopsAt lang goal includeAnonymous) with
  | none =>
    left
    simpa using find?_eq_none.mp h
  | some child =>
    obtain ⟨hchild, front, back, hsplit, hfront⟩ := find?_eq_some_iff_append.mp h
    exact Or.inr ⟨front, child, back, hsplit, fun other hother => by
      simpa using hfront other hother, hchild⟩

theorem stopsAt_of_isTarget {child : TSNode} (h : isTarget lang goal includeAnonymous child = true) :
    stopsAt lang goal includeAnonymous child = true := by
  rw [isTarget, Bool.and_eq_true] at h
  simp [stopsAt, h.1, h.2]

/-- The iterator of the code. -/
def SearchLevel.iterator (level : SearchLevel) : NodeChildIterator := ⟨level.childIndex, level.rest⟩

/-- What the code returns from a state on, in so many turns. -/
def ByteSearch.run (lang : TreeLanguage) (goal : Nat) (includeAnonymous : Bool) (fuel : Nat)
    (state : ByteSearch) : Option (Option TSNode) :=
  firstChildForByteLoop lang goal includeAnonymous fuel state.level.iterator
    (state.saved.map SearchLevel.iterator)

theorem firstChildForByteLoop_succ (fuel : Nat) (iterator : NodeChildIterator)
    (last : Option NodeChildIterator) :
    firstChildForByteLoop lang goal includeAnonymous (fuel + 1) iterator last =
      match firstChildForByteScan lang goal includeAnonymous last iterator.childIndex
        iterator.rest with
      | .found child => some (some child)
      | .descend child last =>
        firstChildForByteLoop lang goal includeAnonymous fuel ⟨0, child.children lang⟩ last
      | .exhausted =>
        match last with
        | some last => firstChildForByteLoop lang goal includeAnonymous fuel last none
        | none => some none := rfl

theorem firstChildForByte_eq_run (node : TSNode) (fuel : Nat) :
    firstChildForByte lang node goal includeAnonymous fuel =
      (ByteSearch.start lang node).run lang goal includeAnonymous fuel := rfl

variable {state : ByteSearch}

theorem ByteSearch.Step.run_succ {next : ByteSearch}
    (h : Step lang goal includeAnonymous state next) (fuel : Nat) :
    state.run lang goal includeAnonymous (fuel + 1) = next.run lang goal includeAnonymous fuel := by
  cases h with
  | @enter front back child hrest hfront hchild hhidden =>
    rw [run, firstChildForByteLoop_succ, SearchLevel.iterator, hrest,
      firstChildForByteScan_append hfront hchild, if_neg (Bool.eq_false_iff.mp hhidden)]
    by_cases hcount : state.level.childIndex + front.length + 1 < child.subtree.children.length
    · rw [if_pos hcount, ByteSearch.enter, if_pos hcount]
      rfl
    · rw [if_neg hcount, ByteSearch.enter, if_neg hcount]
      rfl
  | resume hrest hsaved =>
    rw [run, firstChildForByteLoop_succ, SearchLevel.iterator,
      firstChildForByteScan_exhausted hrest, hsaved]
    rfl

/-- The loop returns the first child that it stops at, if that is relevant. -/
theorem ByteSearch.run_found {child : TSNode} (hrest : state.level.rest = front ++ child :: back)
    (hfront : ∀ other ∈ front, stopsAt lang goal includeAnonymous other = false)
    (htarget : isTarget lang goal includeAnonymous child = true) (fuel : Nat) :
    state.run lang goal includeAnonymous (fuel + 1) = some (some child) := by
  have hrelevant : child.isRelevant lang includeAnonymous = true := by
    rw [isTarget, Bool.and_eq_true] at htarget
    exact htarget.2
  rw [run, firstChildForByteLoop_succ, SearchLevel.iterator, hrest,
    firstChildForByteScan_append hfront (stopsAt_of_isTarget htarget), if_pos hrelevant]

/-- One turn of the loop returns a child, goes on from the next state, or returns null. -/
theorem ByteSearch.run_cases (lang : TreeLanguage) (goal : Nat) (includeAnonymous : Bool)
    (state : ByteSearch) :
    (∃ front child back, state.level.rest = front ++ child :: back ∧
      (∀ other ∈ front, stopsAt lang goal includeAnonymous other = false) ∧
      isTarget lang goal includeAnonymous child = true) ∨
    (∃ next, Step lang goal includeAnonymous state next) ∨
    ((∀ other ∈ state.level.rest, stopsAt lang goal includeAnonymous other = false) ∧
      state.saved = none ∧ ∀ fuel, state.run lang goal includeAnonymous (fuel + 1) = some none) := by
  rcases stopsAt_cases lang goal includeAnonymous state.level.rest with
    hrest | ⟨front, child, back, hrest, hfront, hchild⟩
  · right
    cases hsaved : state.saved with
    | none =>
      refine Or.inr ⟨hrest, rfl, fun fuel => ?_⟩
      rw [run, firstChildForByteLoop_succ, SearchLevel.iterator,
        firstChildForByteScan_exhausted hrest, hsaved]
      rfl
    | some saved => exact Or.inl ⟨_, .resume hrest hsaved⟩
  · by_cases hrelevant : child.isRelevant lang includeAnonymous = true
    · left
      refine ⟨front, child, back, hrest, hfront, ?_⟩
      rw [stopsAt, Bool.and_eq_true] at hchild
      rw [isTarget, hchild.1, hrelevant, Bool.true_and]
    · exact Or.inr (Or.inl ⟨_, .enter hrest hfront hchild (Bool.eq_false_iff.mpr hrelevant)⟩)

/-! ### The search ends -/

mutual

/-- The number of nodes of a tree. -/
def SyntaxTree.nodeCount : SyntaxTree → Nat
  | .mk _ children => nodeTotals children + 1

/-- The number of nodes of some trees. -/
def nodeTotals : List SyntaxTree → Nat
  | [] => 0
  | child :: children => child.nodeCount + nodeTotals children

end

def siblingCount (nodes : List TSNode) : Nat := nodeTotals (nodes.map TSNode.subtree)

theorem nodeTotals_append (trees trees' : List SyntaxTree) :
    nodeTotals (trees ++ trees') = nodeTotals trees + nodeTotals trees' := by
  induction trees with
  | nil => simp [nodeTotals]
  | cons tree trees ih =>
    rw [cons_append, nodeTotals, nodeTotals, ih]
    omega

theorem siblingCount_append (nodes nodes' : List TSNode) :
    siblingCount (nodes ++ nodes') = siblingCount nodes + siblingCount nodes' := by
  rw [siblingCount, map_append, nodeTotals_append]
  rfl

theorem siblingCount_cons (node : TSNode) (nodes : List TSNode) :
    siblingCount (node :: nodes) = siblingCount (node.children lang) + 1 + siblingCount nodes := by
  have hchildren : siblingCount (node.children lang) = nodeTotals node.subtree.children := by
    rw [siblingCount, TSNode.children, childNodes_subtree]
  rw [hchildren, siblingCount, map_cons, nodeTotals]
  obtain ⟨id, ⟨data, children⟩, position, aliasSymbol⟩ := node
  rw [SyntaxTree.nodeCount]
  rfl

/-- What the search can still look at: less with every turn. -/
def ByteSearch.weight (state : ByteSearch) : Nat :=
  2 * siblingCount state.level.rest + state.saved.elim 0 fun saved => 2 * siblingCount saved.rest + 1

theorem ByteSearch.Step.weight_lt {next : ByteSearch}
    (h : Step lang goal includeAnonymous state next) : next.weight < state.weight := by
  cases h with
  | @enter front back child hrest _ _ _ =>
    have hcount := siblingCount_append front (child :: back)
    have hchild := @siblingCount_cons lang child back
    rw [ByteSearch.enter, ByteSearch.weight, ByteSearch.weight, hrest]
    split
    · dsimp only [Option.elim]
      omega
    · dsimp only
      omega
  | resume _ hsaved =>
    rw [ByteSearch.weight, ByteSearch.weight, hsaved]
    dsimp only [Option.elim]
    omega

theorem ByteSearch.run_terminates (state : ByteSearch) :
    ∃ fuel result, state.run lang goal includeAnonymous fuel = some result := by
  induction hweight : state.weight using Nat.strong_induction_on generalizing state with
  | _ weight ih =>
    rcases state.run_cases lang goal includeAnonymous with
      ⟨_, child, _, hrest, hfront, htarget⟩ | ⟨next, hstep⟩ | ⟨_, _, hrun⟩
    · exact ⟨1, some child, run_found hrest hfront htarget 0⟩
    · obtain ⟨fuel, result, hresult⟩ := ih _ (hweight ▸ hstep.weight_lt) next rfl
      exact ⟨fuel + 1, result, by rw [hstep.run_succ, hresult]⟩
    · exact ⟨1, none, hrun 0⟩

/-! ### What is pending -/

/-- All lists that are not used up, in the order of the tree. -/
def ByteSearch.pending (state : ByteSearch) : List SearchLevel :=
  state.level :: (state.skipped ++ (state.saved.toList ++ state.outer))

/-- All that the search is for in these lists. -/
def ByteSearch.targets (lang : TreeLanguage) (goal : Nat) (includeAnonymous : Bool)
    (state : ByteSearch) : List TSNode :=
  state.pending.flatMap (SearchLevel.targets lang goal includeAnonymous)

theorem ByteSearch.pending_enter (state : ByteSearch) (later : SearchLevel) (child : TSNode) :
    (state.enter lang later child).pending =
      ⟨0, child.children lang, state.level.inside || child.isRelevant lang true⟩ :: later ::
        state.pending.tail := by
  rw [enter]
  split
  · simp [pending]
  · simp [pending]

theorem ByteSearch.targets_start (node : TSNode) :
    (ByteSearch.start lang node).targets lang goal includeAnonymous =
      (node.shown lang).filter (isTarget lang goal includeAnonymous) := by
  simp [targets, pending, start, SearchLevel.targets, TSNode.shown_eq_shownSelf]

/-- None of the paths leads through another. -/
def Apart (a b : TSNode) : Prop := ¬ a.id <:+ b.id ∧ ¬ b.id <:+ a.id

/-- What is known of the lists that are pending. -/
structure ByteSearch.Inv (lang : TreeLanguage) (node : TSNode) (state : ByteSearch) : Prop where
  below : ∀ level ∈ state.pending, ∀ sibling ∈ level.rest, node.Below lang sibling
  inside : ∀ level ∈ state.pending, level.inside = true → ∀ sibling ∈ level.rest,
    ∃ visible : TSNode, node.Below lang visible ∧ visible.isRelevant lang true = true ∧
      visible.Below lang sibling
  apart : (state.pending.flatMap SearchLevel.rest).Pairwise Apart
  outer : state.saved = none → state.outer = []

theorem TSNode.pairwise_apart (node : TSNode) : (node.children lang).Pairwise Apart := by
  have hnodup := @TSNode.nodup_children lang node
  rw [List.Nodup, pairwise_map] at hnodup
  refine hnodup.imp_of_mem fun {a b} ha hb hne => ?_
  obtain ⟨i, hi⟩ := id_child ha
  obtain ⟨j, hj⟩ := id_child hb
  have hlength : a.id.length = b.id.length := by rw [hi, hj, length_cons, length_cons]
  exact ⟨fun h => hne (h.eq_of_length hlength), fun h => hne (h.eq_of_length hlength.symm).symm⟩

variable {node : TSNode}

theorem Apart.child {child other : TSNode} (h : Apart node other)
    (hchild : child ∈ node.children lang) : Apart child other := by
  obtain ⟨i, hi⟩ := TSNode.id_child hchild
  have hsuffix : node.id <:+ child.id := hi ▸ suffix_cons i node.id
  refine ⟨fun hle => h.1 (hsuffix.trans hle), fun hle => ?_⟩
  rcases suffix_or_suffix_of_suffix hle hsuffix with hle | hle
  · exact h.2 hle
  · exact h.1 hle

theorem ByteSearch.inv_start (node : TSNode) : (ByteSearch.start lang node).Inv lang node where
  below level hlevel sibling hsibling := by
    rw [pending, start, mem_cons] at hlevel
    rcases hlevel with rfl | hlevel
    · exact .child hsibling
    · simp at hlevel
  inside level hlevel hinside := by
    rw [pending, start, mem_cons] at hlevel
    rcases hlevel with rfl | hlevel
    · cases hinside
    · simp at hlevel
  apart := by
    simpa [pending, start] using @TSNode.pairwise_apart lang node
  outer _ := rfl

theorem ByteSearch.Inv.enter {child : TSNode} (h : state.Inv lang node)
    (hrest : state.level.rest = front ++ child :: back) (childIndex : Nat) :
    (state.enter lang ⟨childIndex, back, state.level.inside⟩ child).Inv lang node := by
  have hlevel : state.level ∈ state.pending := mem_cons_self
  have hmem : ∀ sibling ∈ back, sibling ∈ state.level.rest := by
    intro sibling hsibling
    rw [hrest]
    exact mem_append_right _ (mem_cons_of_mem child hsibling)
  have hchild : child ∈ state.level.rest := by
    rw [hrest]
    exact mem_append_right _ mem_cons_self
  have htail : ∀ level ∈ state.pending.tail, level ∈ state.pending :=
    fun level => mem_of_mem_tail
  refine ⟨?_, ?_, ?_, ?_⟩
  · rw [pending_enter]
    intro level hmemLevel sibling hsibling
    rcases mem_cons.mp hmemLevel with rfl | hmemLevel
    · exact (h.below _ hlevel child hchild).trans (.child hsibling)
    · rcases mem_cons.mp hmemLevel with rfl | hmemLevel
      · exact h.below _ hlevel sibling (hmem sibling hsibling)
      · exact h.below level (htail level hmemLevel) sibling hsibling
  · rw [pending_enter]
    intro level hmemLevel hinside sibling hsibling
    rcases mem_cons.mp hmemLevel with rfl | hmemLevel
    · rw [Bool.or_eq_true] at hinside
      rcases hinside with hinside | hvisible
      · obtain ⟨visible, hbelow, hrelevant, hchildBelow⟩ := h.inside _ hlevel hinside child hchild
        exact ⟨visible, hbelow, hrelevant, hchildBelow.trans (.child hsibling)⟩
      · exact ⟨child, h.below _ hlevel child hchild, hvisible, .child hsibling⟩
    · rcases mem_cons.mp hmemLevel with rfl | hmemLevel
      · exact h.inside _ hlevel hinside sibling (hmem sibling hsibling)
      · exact h.inside level (htail level hmemLevel) hinside sibling hsibling
  · have hapart := h.apart
    rw [pending, flatMap_cons, hrest, append_assoc] at hapart
    have hsub := (pairwise_append.mp hapart).2.1
    rw [cons_append, pairwise_cons] at hsub
    rw [pending_enter, flatMap_cons, flatMap_cons, pairwise_append]
    refine ⟨child.pairwise_apart, hsub.2, fun kid hkid other hother => ?_⟩
    exact (hsub.1 other hother).child hkid
  · rw [ByteSearch.enter]
    split
    · exact fun hsaved => by cases hsaved
    · exact h.outer

theorem ByteSearch.Inv.resume {saved : SearchLevel} (h : state.Inv lang node)
    (hsaved : state.saved = some saved) :
    (ByteSearch.mk saved state.outer none []).Inv lang node := by
  have hpending : state.pending = (state.level :: state.skipped) ++
      (ByteSearch.mk saved state.outer none []).pending := by
    rw [pending, pending, hsaved]
    simp
  refine ⟨fun level hlevel => ?_, fun level hlevel => ?_, ?_, fun _ => rfl⟩
  · exact h.below level (hpending ▸ mem_append_right _ hlevel)
  · exact h.inside level (hpending ▸ mem_append_right _ hlevel)
  · have hapart := h.apart
    rw [hpending, flatMap_append] at hapart
    exact (pairwise_append.mp hapart).2.1

/-- Every state that the search comes to has lists of siblings as they should be. -/
theorem ByteSearch.Reached.inv (h : Reached lang goal includeAnonymous node state) :
    state.Inv lang node := by
  induction h with
  | refl => exact inv_start node
  | tail _ hstep ih =>
    cases hstep with
    | enter hrest _ _ _ => exact ih.enter hrest _
    | resume _ hsaved => exact ih.resume hsaved

section Text

variable {β : Type} {R : Length → List β → Prop} {text : List β} {node : TSNode}

/-- The node's part of the tree is well formed, and laid over a text. -/
structure SearchedTree (R : Length → List β → Prop) (lang : TreeLanguage) (text : List β)
    (node : TSNode) : Prop where
  measures : Measures R
  length : text.length < 2 ^ 32
  reads : node.Reads R text
  wellFormed : node.subtree.WellFormed lang

theorem TSNode.Below.counted {descendant : TSNode} (h : node.Below lang descendant)
    (hwf : node.subtree.WellFormed lang) : descendant.subtree.Counted lang := by
  induction h with
  | child hchild => exact hwf.counted_child (subtree_mem hchild)
  | step hchild _ ih => exact ih (hwf.child (subtree_mem hchild))

section

variable (h : SearchedTree R lang text node)

include h

/-- A child that the search passes over has nothing that the search is for. -/
theorem filter_shownSelf_eq_nil {child : TSNode}
    (hbelow : node.Below lang child) (hstop : stopsAt lang goal includeAnonymous child = false) :
    (child.shownSelf lang).filter (isTarget lang goal includeAnonymous) = [] := by
  rw [filter_eq_nil_iff]
  intro shown hshown htarget
  have hreads := hbelow.reads h.reads h.measures h.length
  have hwithin := TSNode.within_of_mem_shownSelf hshown
  rw [isTarget, Bool.and_eq_true, decide_eq_true_iff] at htarget
  have hend : goal < child.endByte := by
    rcases hwithin with rfl | hwithin
    · exact htarget.1
    · exact htarget.1.trans_le (hwithin.endByte_le hreads h.measures h.length)
  have hnot : ¬ (child.isRelevant lang includeAnonymous = true ∨ child.childCount > 0) := by
    simpa [stopsAt, hend] using hstop
  rw [TSNode.shownSelf] at hshown
  split at hshown
  · rw [mem_singleton] at hshown
    exact hnot (Or.inl (hshown ▸ htarget.2))
  · refine hnot (Or.inr ?_)
    rw [TSNode.childCount_eq (hbelow.counted h.wellFormed)]
    exact length_pos_of_mem hshown

theorem filter_flatMap_eq_nil {children : List TSNode}
    (hbelow : ∀ child ∈ children, node.Below lang child)
    (hstop : ∀ child ∈ children, stopsAt lang goal includeAnonymous child = false) :
    (children.flatMap (TSNode.shownSelf lang)).filter (isTarget lang goal includeAnonymous) =
      [] := by
  rw [filter_flatMap, flatMap_eq_nil_iff]
  exact fun child hchild => filter_shownSelf_eq_nil h (hbelow child hchild) (hstop child hchild)

theorem targets_eq_nil {level : SearchLevel} (hbelow : ∀ child ∈ level.rest, node.Below lang child)
    (hstop : ∀ child ∈ level.rest, stopsAt lang goal includeAnonymous child = false) :
    level.targets lang goal includeAnonymous = [] := by
  rw [SearchLevel.targets]
  split
  · rfl
  · exact filter_flatMap_eq_nil h hbelow hstop

theorem ByteSearch.Step.targets_eq {state next : ByteSearch}
    (hstep : Step lang goal includeAnonymous state next) (hinv : state.Inv lang node)
    (hsound : state.Sound lang goal includeAnonymous) :
    next.targets lang goal includeAnonymous = state.targets lang goal includeAnonymous := by
  have hbelow := hinv.below state.level mem_cons_self
  cases hstep with
  | @enter front back child hrest hfront hchild hhidden =>
    have hlevel : state.level.targets lang goal includeAnonymous =
        SearchLevel.targets lang goal includeAnonymous ⟨0, child.children lang,
            state.level.inside || child.isRelevant lang true⟩ ++
          SearchLevel.targets lang goal includeAnonymous
            ⟨state.level.childIndex + front.length + 1, back, state.level.inside⟩ := by
      rw [hrest, forall_mem_append] at hbelow
      have hnil := filter_flatMap_eq_nil h hbelow.1 hfront
      simp only [SearchLevel.targets, hrest]
      by_cases hinside : state.level.inside = true
      · simp [hinside]
      · have hself : (child.shownSelf lang).filter (isTarget lang goal includeAnonymous) =
            if child.isRelevant lang true then []
            else (child.shown lang).filter (isTarget lang goal includeAnonymous) := by
          rw [TSNode.shownSelf]
          split
          · simp [isTarget, hhidden]
          · rfl
        simp only [Bool.eq_false_iff.mpr hinside, Bool.false_or, Bool.false_eq_true, if_false,
          flatMap_append, flatMap_cons, filter_append, hnil, nil_append, hself,
          TSNode.shown_eq_shownSelf]
    rw [ByteSearch.targets, ByteSearch.pending_enter, flatMap_cons, flatMap_cons,
      ← append_assoc, ← hlevel]
    rfl
  | @resume saved hrest hsaved =>
    have hlevel := targets_eq_nil h hbelow hrest
    have hskipped : state.skipped.flatMap (SearchLevel.targets lang goal includeAnonymous) = [] :=
      flatMap_eq_nil_iff.mpr (hsound.skipped hrest)
    rw [ByteSearch.targets, ByteSearch.targets, ByteSearch.pending, ByteSearch.pending, hsaved]
    simp [hlevel, hskipped]

end

variable {fuel : Nat}
variable {state : ByteSearch}

/-- Without anything going wrong the search returns the first target. -/
theorem ByteSearch.run_eq_head? (h : SearchedTree R lang text node) (hsound : ∀ state, Reached
      lang goal includeAnonymous node state → state.Sound lang goal includeAnonymous)
    (hreached : Reached lang goal includeAnonymous node state)
    {result : Option TSNode} (hrun : state.run lang goal includeAnonymous fuel = some result) :
    result = (state.targets lang goal includeAnonymous).head? := by
  induction fuel generalizing state with
  | zero => cases hrun
  | succ fuel ih =>
    have hinv := hreached.inv
    have hbelow := hinv.below state.level mem_cons_self
    rcases state.run_cases lang goal includeAnonymous with
      ⟨front, child, back, hrest, hfront, htarget⟩ | ⟨next, hstep⟩ | ⟨hrest, hsaved, hnone⟩
    · rw [run_found hrest hfront htarget, Option.some_inj] at hrun
      have hinside := (hsound state hreached).outside front child back hrest hfront htarget
      have hself : child.shownSelf lang = [child] := by
        rw [isTarget, Bool.and_eq_true] at htarget
        exact if_pos (TSNode.isRelevant_mono htarget.2)
      rw [hrest, forall_mem_append] at hbelow
      have hnil := filter_flatMap_eq_nil h hbelow.1 hfront
      rw [← hrun, targets, pending, flatMap_cons, SearchLevel.targets, hinside, hrest,
        flatMap_append, flatMap_cons, filter_append, hnil, hself]
      simp [htarget]
    · rw [hstep.run_succ] at hrun
      rw [ih (hreached.tail hstep) hrun, hstep.targets_eq h hinv (hsound state hreached)]
    · rw [hnone, Option.some_inj] at hrun
      have hlevel := targets_eq_nil h hbelow hrest
      have hskipped : state.skipped.flatMap (SearchLevel.targets lang goal includeAnonymous) =
          [] := flatMap_eq_nil_iff.mpr ((hsound state hreached).skipped hrest)
      rw [← hrun, targets, pending, hsaved, hinv.outer hsaved]
      simp [hlevel, hskipped]

theorem ByteSearch.run_within {found : TSNode}
    (hrun : state.run lang goal includeAnonymous fuel = some (some found)) :
    ∃ sibling : TSNode, (sibling ∈ state.level.rest ∨
      ∃ saved, state.saved = some saved ∧ sibling ∈ saved.rest) ∧ sibling.Within lang found := by
  induction fuel generalizing state with
  | zero => cases hrun
  | succ fuel ih =>
    rcases state.run_cases lang goal includeAnonymous with
      ⟨front, child, back, hrest, hfront, htarget⟩ | ⟨next, hstep⟩ | ⟨_, _, hnone⟩
    · rw [run_found hrest hfront htarget, Option.some_inj, Option.some_inj] at hrun
      refine ⟨child, Or.inl ?_, Or.inl hrun.symm⟩
      rw [hrest]
      exact mem_append_right _ mem_cons_self
    · rw [hstep.run_succ] at hrun
      obtain ⟨sibling, hplace, hwithin⟩ := ih hrun
      cases hstep with
      | @enter front back child hrest _ _ _ =>
        have hback : ∀ sibling ∈ child :: back, sibling ∈ state.level.rest := by
          intro sibling hsibling
          rw [hrest]
          exact mem_append_right _ hsibling
        have hkid : sibling ∈ child.children lang → ∃ sibling : TSNode,
            (sibling ∈ state.level.rest ∨
              ∃ saved, state.saved = some saved ∧ sibling ∈ saved.rest) ∧
            sibling.Within lang found :=
          fun hsibling => ⟨child, Or.inl (hback child mem_cons_self),
            Or.inr (hwithin.below hsibling)⟩
        rw [enter] at hplace
        split at hplace
        · rcases hplace with hsibling | ⟨saved, hsaved, hsibling⟩
          · exact hkid hsibling
          · cases hsaved
            exact ⟨sibling, Or.inl (hback sibling (mem_cons_of_mem child hsibling)), hwithin⟩
        · rcases hplace with hsibling | hplace
          · exact hkid hsibling
          · exact ⟨sibling, Or.inr hplace, hwithin⟩
      | resume _ hsaved =>
        rcases hplace with hsibling | ⟨_, hnone, _⟩
        · exact ⟨sibling, Or.inr ⟨_, hsaved, hsibling⟩, hwithin⟩
        · cases hnone
    · rw [hnone] at hrun
      cases hrun

/-- A state from which the first target is returned is one where the search does not go wrong. -/
theorem ByteSearch.Inv.sound (h : SearchedTree R lang text node)
    (hinv : state.Inv lang node) (htargets : state.targets lang goal includeAnonymous =
      (node.shown lang).filter (isTarget lang goal includeAnonymous)) (hrun : state.run lang goal
      includeAnonymous fuel = some ((node.shown lang).find? (isTarget lang goal
      includeAnonymous))) :
    state.Sound lang goal includeAnonymous := by
  have hbelow := hinv.below state.level mem_cons_self
  constructor
  · intro hrest level hlevel
    by_contra hne
    have hexhausted := targets_eq_nil h hbelow hrest
    obtain ⟨lost, hlost⟩ := exists_mem_of_ne_nil _ hne
    -- The first target is in a list that the code does not know of.
    have hskipped : state.skipped.flatMap (SearchLevel.targets lang goal includeAnonymous) ≠ [] :=
      ne_nil_of_mem (mem_flatMap.mpr ⟨level, hlevel, hlost⟩)
    obtain ⟨first, rest, hfirst⟩ := exists_cons_of_ne_nil hskipped
    have hhead : (node.shown lang).find? (isTarget lang goal includeAnonymous) = some first := by
      rw [← head?_filter, ← htargets, targets, pending, flatMap_cons, hexhausted,
        flatMap_append, hfirst]
      rfl
    rw [hhead] at hrun
    have hmem : first ∈ state.skipped.flatMap
        (SearchLevel.targets lang goal includeAnonymous) := by
      rw [hfirst]
      exact mem_cons_self
    obtain ⟨other, hother, hfirstMem⟩ := mem_flatMap.mp hmem
    obtain ⟨holder, hholder, hholderWithin⟩ : ∃ holder ∈ other.rest, holder.Within lang first := by
      rw [SearchLevel.targets] at hfirstMem
      split at hfirstMem
      · cases hfirstMem
      · obtain ⟨holder, hholder, hshown⟩ :=
          mem_flatMap.mp (mem_filter.mp hfirstMem).1
        exact ⟨holder, hholder, TSNode.within_of_mem_shownSelf hshown⟩
    have hholderSkipped : holder ∈ state.skipped.flatMap SearchLevel.rest :=
      mem_flatMap.mpr ⟨other, hother, hholder⟩
    obtain ⟨sibling, hplace, hwithin⟩ := run_within hrun
    have hapart := hinv.apart
    rw [pending, flatMap_cons, flatMap_append, flatMap_append, pairwise_append,
      pairwise_append] at hapart
    have hseparate : Apart sibling holder ∨ Apart holder sibling := by
      rcases hplace with hsibling | ⟨saved, hsaved, hsibling⟩
      · exact Or.inl (hapart.2.2 sibling hsibling holder (mem_append_left _ hholderSkipped))
      · refine Or.inr (hapart.2.1.2.2 holder hholderSkipped sibling (mem_append_left _ ?_))
        rw [hsaved]
        simpa using hsibling
    rcases suffix_or_suffix_of_suffix hwithin.id_suffix hholderWithin.id_suffix with hle | hle
    · exact hseparate.elim (fun h => h.1 hle) (fun h => h.2 hle)
    · exact hseparate.elim (fun h => h.2 hle) (fun h => h.1 hle)
  · intro front child back hrest hfront htarget
    cases fuel with
    | zero => cases hrun
    | succ fuel =>
      rw [run_found hrest hfront htarget, Option.some_inj] at hrun
      have hshown : child ∈ node.shown lang := mem_of_find?_eq_some hrun.symm
      by_contra hinside
      obtain ⟨visible, hvisible, hrelevant, hchild⟩ := hinv.inside state.level mem_cons_self
        (by simpa using hinside) child (by rw [hrest]; simp)
      rw [TSNode.isRelevant_between hshown hvisible hchild] at hrelevant
      cases hrelevant

/-- The search ends with the first relevant visible child that ends after the goal exactly if it
goes wrong in none of the states that it comes to. -/
theorem firstChildForByte_iff (h : SearchedTree R lang text node) :
    FindsFirst lang goal includeAnonymous node ↔
      ∀ state, ByteSearch.Reached lang goal includeAnonymous node state →
        state.Sound lang goal includeAnonymous := by
  constructor
  · intro hfinds
    obtain ⟨fuel, hfuel⟩ := hfinds
    rw [firstChildForByte_eq_run] at hfuel
    suffices hall : ∀ state, ByteSearch.Reached lang goal includeAnonymous node state →
        state.targets lang goal includeAnonymous =
          (node.shown lang).filter (isTarget lang goal includeAnonymous) ∧
        ∃ fuel, state.run lang goal includeAnonymous fuel =
          some ((node.shown lang).find? (isTarget lang goal includeAnonymous)) by
      intro state hreached
      obtain ⟨htargets, fuel, hrun⟩ := hall state hreached
      exact hreached.inv.sound h htargets hrun
    intro state hreached
    induction hreached with
    | refl => exact ⟨ByteSearch.targets_start node, fuel, hfuel⟩
    | @tail state next hreached hstep ih =>
      obtain ⟨htargets, fuel, hrun⟩ := ih
      have hinv : state.Inv lang node := ByteSearch.Reached.inv hreached
      refine ⟨by rw [hstep.targets_eq h hinv (hinv.sound h htargets hrun), htargets], ?_⟩
      cases fuel with
      | zero => cases hrun
      | succ fuel => exact ⟨fuel, by rw [← hstep.run_succ, hrun]⟩
  · intro hsound
    obtain ⟨fuel, result, hrun⟩ := @ByteSearch.run_terminates lang goal includeAnonymous
      (ByteSearch.start lang node)
    refine ⟨fuel, ?_⟩
    rw [firstChildForByte_eq_run, hrun,
      ByteSearch.run_eq_head? h hsound Relation.ReflTransGen.refl hrun, ByteSearch.targets_start,
      head?_filter]

end Text

/-- A hidden node that ends with something hidden, behind a visible node and in front of one. -/
def lostSibling : SyntaxTree :=
  rowNode 1 [rowTree 1 1 [], rowNode 3 [rowTree 1 1 [], rowTree 3 1 []], rowTree 1 1 []]

theorem lostSibling_isRow : IsRow lostSibling :=
  isRow_node (by simp [isRow_node])

theorem lostSibling_searchedTree :
    SearchedTree (fun l w => l = lengthOf w) rowLanguage (rowText 4) lostSibling.rootNode :=
  ⟨measures_lengthOf, by decide, lostSibling_isRow.spells.rootNode, lostSibling_isRow.wellFormed⟩

theorem firstChildForByte_iff_lostSibling :
    FindsFirst rowLanguage 2 true lostSibling.rootNode ↔
      ∀ state, ByteSearch.Reached rowLanguage 2 true lostSibling.rootNode state →
        state.Sound rowLanguage 2 true :=
  firstChildForByte_iff lostSibling_searchedTree

/-- The hidden node is left again, but its later sibling has not been saved. -/
theorem not_findsFirst_lostSibling : ∃ (text : List UInt8) (node : TSNode),
    SearchedTree (fun l w => l = lengthOf w) rowLanguage text node ∧
      ¬ FindsFirst rowLanguage 2 true node := by
  refine ⟨rowText 4, lostSibling.rootNode, lostSibling_searchedTree, fun h => ?_⟩
  obtain ⟨fuel, hfuel⟩ := h
  have hfirst : ((lostSibling.rootNode.shown rowLanguage).find?
      (isTarget rowLanguage 2 true)).map TSNode.id = some [2] := by decide
  have hrun : ∀ fuel, firstChildForByte rowLanguage lostSibling.rootNode 2 true (fuel + 2) =
      some none := fun _ => rfl
  obtain _ | _ | fuel := fuel
  · cases hfuel
  · cases hfuel
  · have hnone := hfuel.symm.trans (hrun fuel)
    rw [Option.some_inj] at hnone
    rw [hnone] at hfirst
    cases hfirst

end TreeSitter.Lib
