import TreeSitter.Lib.Node.Shown

/-!
# TreeSitter.Lib.TreeCursor.FirstChildForByte

**The first child behind a byte or a point**
(`ts_tree_cursor_goto_first_child_for_byte_and_point`). The move goes down into the first child
that ends after the goal and is visible or has visible children, until it comes to a visible one,
and counts the visible children that it passes.

A hidden node can end after the goal although none of its visible children does, if something
hidden is at its end. The move does not come out of such a **blind alley** again, and returns -1.
It finds the first visible child that ends after the goal exactly if no blind alley is in front of
it (`gotoFirstChildFor_iff`).
-/

namespace TreeSitter.Lib

open List

variable (lang : TreeLanguage)

/-! ### The move -/

/-- `at_goal`, for the end of an entry. -/
def atGoal (goalByte : Nat) (goalPoint : Point) (entryEnd : Length) : Bool :=
  entryEnd.bytes > goalByte && goalPoint.lt entryEnd.extent

/-- The inner loop of `ts_tree_cursor_goto_first_child_for_byte_and_point`, from some entries of
the iterator on: where it goes, and the index among the visible children. -/
def firstChildScan (goalByte : Nat) (goalPoint : Point) (stack : List TreeCursorEntry) :
    List (TreeCursorEntry × Bool) → Nat → CursorStep × Nat
  | [], visibleChildIndex => (.none, visibleChildIndex)
  | (entry, visible) :: entries, visibleChildIndex =>
    if atGoal goalByte goalPoint (entry.position.add entry.subtree.size) then
      if visible then (.visible (entry :: stack), visibleChildIndex)
      else if entry.subtree.visibleChildCount > 0 then
        (.hidden (entry :: stack), visibleChildIndex)
      else firstChildScan goalByte goalPoint stack entries visibleChildIndex
    else
      firstChildScan goalByte goalPoint stack entries
        (visibleChildIndex + if visible then 1 else entry.subtree.visibleChildCount)

/-- The loop of `ts_tree_cursor_goto_first_child_for_byte_and_point`, down to some level: the
stack and the index that it ends with. -/
def firstChildLoop (goalByte : Nat) (goalPoint : Point) :
    Nat → List TreeCursorEntry → Nat → Option (List TreeCursorEntry × Nat)
  | 0, _, _ => none
  | fuel + 1, stack, visibleChildIndex =>
    match firstChildScan goalByte goalPoint stack (iterateChildren lang stack)
      visibleChildIndex with
    | (.none, _) => none
    | (.hidden stack, visibleChildIndex) =>
      firstChildLoop goalByte goalPoint fuel stack visibleChildIndex
    | (.visible stack, visibleChildIndex) => some (stack, visibleChildIndex)

/-- `ts_tree_cursor_goto_first_child_for_byte_and_point`: the stack afterwards, and the index, or
none for -1. -/
def gotoFirstChildForByteAndPoint (goalByte : Nat) (goalPoint : Point)
    (stack : List TreeCursorEntry) : List TreeCursorEntry × Option Nat :=
  match firstChildLoop lang goalByte goalPoint (stackFuel stack) stack 0 with
  | some (stack, index) => (stack, some index)
  | none => (stack, none)

/-- `ts_tree_cursor_goto_first_child_for_byte`. -/
def gotoFirstChildForByte (goalByte : Nat) (stack : List TreeCursorEntry) :
    List TreeCursorEntry × Option Nat :=
  gotoFirstChildForByteAndPoint lang goalByte ⟨0, 0⟩ stack

/-- `ts_tree_cursor_goto_first_child_for_point`. -/
def gotoFirstChildForPoint (goalPoint : Point) (stack : List TreeCursorEntry) :
    List TreeCursorEntry × Option Nat :=
  gotoFirstChildForByteAndPoint lang 0 goalPoint stack

/-! ### What it should do -/

/-- A place in the text to move behind. -/
inductive TextGoal where
  | byte (goal : Nat)
  | point (goal : Point)

def TextGoal.endsAfter (goal : TextGoal) (node : TSNode) : Bool :=
  match goal with
  | .byte goal => goal < node.endByte
  | .point goal => goal.lt node.endPoint

def gotoFirstChildFor (goal : TextGoal) (stack : List TreeCursorEntry) :
    List TreeCursorEntry × Option Nat :=
  match goal with
  | .byte goal => gotoFirstChildForByte lang goal stack
  | .point goal => gotoFirstChildForPoint lang goal stack

/-- The cursor has moved to the first visible child of a node that ends after the goal, and the
result is its index, if there is one. -/
def MovedToFirst (rootAliasSymbol : Nat) (endsAfter : TSNode → Bool)
    (stack : List TreeCursorEntry) (node : TSNode)
    (result : List TreeCursorEntry × Option Nat) : Prop :=
  match (node.shown lang).findIdx? endsAfter with
  | some index => result.2 = some index ∧
      currentNode lang rootAliasSymbol result.1 = (node.shown lang)[index]?
  | none => result = (stack, none)

/-- The node ends after the goal and has visible children, but none of them does. -/
structure BlindAlley (endsAfter : TSNode → Bool) (node : TSNode) : Prop where
  isAfter : endsAfter node = true
  shown : node.shown lang ≠ []
  blind : ∀ shown ∈ node.shown lang, endsAfter shown = false

/-- No visible child of the node ends after the goal, or one that does stands in front of each
blind alley. -/
def NoBlindAlleyFirst (endsAfter : TSNode → Bool) (node : TSNode) : Prop :=
  ∀ hidden : TSNode, node.HiddenBelow lang hidden → BlindAlley lang endsAfter hidden →
    (∀ shown ∈ node.shown lang, endsAfter shown = false) ∨
      ∃ shown ∈ node.shown lang, endsAfter shown = true ∧ shown.endByte ≤ hidden.startByte

variable {lang}

/-! ### One level -/

/-- The entry is the node, as a child of a node with such a production and path. -/
structure EntryIs (lang : TreeLanguage) (productionId : Nat) (parentId : List Nat)
    (entry : TreeCursorEntry) (node : TSNode) : Prop where
  subtree : entry.subtree = node.subtree
  position : entry.position = node.position
  id : entry.childIndex :: parentId = node.id
  aliasSymbol : aliasOf lang productionId entry.structuralChildIndex entry.subtree =
    node.aliasSymbol

/-- A child that the search goes to. -/
def Entered (lang : TreeLanguage) (endsAfter : TSNode → Bool) (node : TSNode) : Prop :=
  endsAfter node = true ∧ (node.isRelevant lang true = true ∨ node.childCount > 0)

/-- The iterator of the cursor and that of the node yield the same children. -/
theorem iteratorEntries_forall₂ (productionId : Nat) (parentId : List Nat)
    {children : List SyntaxTree} {position behind : Length}
    {childIndex structuralIndex descendantIndex : Nat}
    (hposition : ∀ child rest, children = child :: rest → position =
      if childIndex > 0 then behind.add child.padding else behind) :
    List.Forall₂ (fun found node => EntryIs lang productionId parentId found.1 node ∧
        found.2 = node.isRelevant lang true)
      (iteratorEntries lang productionId children position childIndex structuralIndex
        descendantIndex)
      (childNodes lang productionId parentId children behind childIndex structuralIndex) := by
  induction children generalizing position behind childIndex structuralIndex descendantIndex with
  | nil => exact .nil
  | cons child children ih =>
    have hstart := hposition child children rfl
    rw [iteratorEntries, childNodes]
    refine .cons ⟨⟨rfl, hstart, rfl, rfl⟩, rfl⟩ (ih ?_)
    intro next rest hnext
    subst hnext
    rw [positionAfter, if_pos (Nat.succ_pos childIndex), hstart]

/-- The inner loop passes over children that the search does not go to, and counts their visible
ones. -/
theorem firstChildScan_spec {goalByte : Nat} {goalPoint : Point} {stack : List TreeCursorEntry}
    {productionId : Nat} {parentId : List Nat} {endsAfter : TSNode → Bool}
    {entries : List (TreeCursorEntry × Bool)} {nodes : List TSNode}
    (hafter : ∀ node ∈ nodes, endsAfter node = atGoal goalByte goalPoint node.endPosition)
    (h : List.Forall₂ (fun found node => EntryIs lang productionId parentId found.1 node ∧
      found.2 = node.isRelevant lang true) entries nodes)
    (hcounted : ∀ node ∈ nodes, node.subtree.Counted lang) (visibleChildIndex : Nat) :
    (∀ node ∈ nodes, ¬ Entered lang endsAfter node) ∧
      (firstChildScan goalByte goalPoint stack entries visibleChildIndex).1 = .none ∨
    ∃ front node back entry, nodes = front ++ node :: back ∧
      (∀ other ∈ front, ¬ Entered lang endsAfter other) ∧ Entered lang endsAfter node ∧
      EntryIs lang productionId parentId entry node ∧
      firstChildScan goalByte goalPoint stack entries visibleChildIndex =
        (if node.isRelevant lang true then .visible (entry :: stack) else .hidden (entry :: stack),
          visibleChildIndex + (front.flatMap (TSNode.shownSelf lang)).length) := by
  induction h generalizing visibleChildIndex with
  | nil => exact Or.inl ⟨fun node hnode => absurd hnode not_mem_nil, rfl⟩
  | @cons found node entries nodes hfound _ ih =>
    obtain ⟨entry, visible⟩ := found
    obtain ⟨hentry, hvisible⟩ := hfound
    rw [forall_mem_cons] at hcounted hafter
    dsimp only at hentry hvisible
    have hcount : entry.subtree.visibleChildCount = (node.shown lang).length := by
      rw [hentry.subtree]
      exact TSNode.childCount_eq hcounted.1
    have hend : atGoal goalByte goalPoint (entry.position.add entry.subtree.size) =
        endsAfter node := by
      rw [hafter.1, hentry.position, hentry.subtree, TSNode.endPosition]
    -- The other children are as before, behind one that is passed over.
    have hpass : ∀ index, ¬ Entered lang endsAfter node →
        firstChildScan goalByte goalPoint stack ((entry, visible) :: entries) visibleChildIndex =
          firstChildScan goalByte goalPoint stack entries index →
        index = visibleChildIndex + (node.shownSelf lang).length →
        (∀ other ∈ node :: nodes, ¬ Entered lang endsAfter other) ∧
          (firstChildScan goalByte goalPoint stack ((entry, visible) :: entries)
            visibleChildIndex).1 = .none ∨
        ∃ front other back entry', node :: nodes = front ++ other :: back ∧
          (∀ passed ∈ front, ¬ Entered lang endsAfter passed) ∧ Entered lang endsAfter other ∧
          EntryIs lang productionId parentId entry' other ∧
          firstChildScan goalByte goalPoint stack ((entry, visible) :: entries)
            visibleChildIndex =
            (if other.isRelevant lang true then .visible (entry' :: stack)
              else .hidden (entry' :: stack),
              visibleChildIndex + (front.flatMap (TSNode.shownSelf lang)).length) := by
      intro index hnot hscan hindex
      rw [hscan]
      rcases ih hafter.2 hcounted.2 index with ⟨hall, hnone⟩ | ⟨front, other, back, entry', heq, hfront,
        hother, hentry', hresult⟩
      · exact Or.inl ⟨forall_mem_cons.mpr ⟨hnot, hall⟩, hnone⟩
      · refine Or.inr ⟨node :: front, other, back, entry', by rw [heq, cons_append],
          forall_mem_cons.mpr ⟨hnot, hfront⟩, hother, hentry', ?_⟩
        rw [hresult, hindex, flatMap_cons, length_append, Nat.add_assoc]
    by_cases hgoal : endsAfter node = true
    · by_cases hrelevant : node.isRelevant lang true = true
      · refine Or.inr ⟨[], node, nodes, entry, rfl, fun _ h => absurd h not_mem_nil,
          ⟨hgoal, Or.inl hrelevant⟩, hentry, ?_⟩
        rw [firstChildScan, hend, if_pos hgoal, hvisible, if_pos hrelevant, if_pos hrelevant]
        rfl
      · by_cases hpos : node.childCount > 0
        · refine Or.inr ⟨[], node, nodes, entry, rfl, fun _ h => absurd h not_mem_nil,
            ⟨hgoal, Or.inr hpos⟩, hentry, ?_⟩
          rw [firstChildScan, hend, if_pos hgoal, hvisible, if_neg hrelevant, hcount,
            ← TSNode.childCount_eq hcounted.1, if_pos hpos, if_neg hrelevant]
          rfl
        · refine hpass visibleChildIndex (fun h => h.2.elim hrelevant hpos) ?_ ?_
          · rw [firstChildScan, hend, if_pos hgoal, hvisible, if_neg hrelevant, hcount,
              ← TSNode.childCount_eq hcounted.1, if_neg hpos]
          · rw [TSNode.shownSelf, if_neg hrelevant, ← TSNode.childCount_eq hcounted.1]
            omega
    · refine hpass _ (fun h => hgoal h.1) (by rw [firstChildScan, hend, if_neg hgoal]) ?_
      rw [hvisible, TSNode.shownSelf, hcount]
      by_cases hrelevant : node.isRelevant lang true = true
      · rw [if_pos hrelevant, if_pos hrelevant, length_singleton]
      · rw [if_neg hrelevant, if_neg hrelevant]

/-! ### All levels -/

/-- The node is that of the top of the stack, under whatever alias. -/
structure IsTop (stack : List TreeCursorEntry) (node : TSNode) : Prop where
  nonempty : ∃ entry rest, stack = entry :: rest ∧ entry.subtree = node.subtree ∧
    entry.position = node.position
  id : stackPath stack = node.id

theorem IsTop.children {stack : List TreeCursorEntry} {node : TSNode} (h : IsTop stack node) :
    List.Forall₂ (fun found child => EntryIs lang node.subtree.productionId node.id found.1 child ∧
        found.2 = child.isRelevant lang true)
      (iterateChildren lang stack) (node.children lang) := by
  obtain ⟨⟨entry, rest, rfl, hsubtree, hposition⟩, _⟩ := h
  rw [iterateChildren, TSNode.children, hsubtree, hposition]
  exact iteratorEntries_forall₂ _ _ fun child rest _ => rfl

theorem IsTop.push {stack : List TreeCursorEntry} {node child : TSNode} {entry : TreeCursorEntry}
    (h : IsTop stack node) (hentry : EntryIs lang node.subtree.productionId node.id entry child)
    (rootAliasSymbol : Nat) : IsTop (entry :: stack) child ∧
      currentNode lang rootAliasSymbol (entry :: stack) = some child := by
  obtain ⟨⟨parent, rest, rfl, hsubtree, hposition⟩, hid⟩ := h
  have hpath : stackPath (entry :: parent :: rest) = child.id := by
    rw [← hentry.id, ← hid, stackPath, stackPath, dropLast_cons_cons, map_cons]
  refine ⟨⟨⟨entry, _, rfl, hentry.subtree, hentry.position⟩, hpath⟩, ?_⟩
  rw [currentNode, hpath, entryAlias, hsubtree, hentry.aliasSymbol, hentry.subtree, hentry.position]

section Search

variable {β : Type} {R : Length → List β → Prop} {text : List β} {goalByte : Nat}
  {goalPoint : Point} {endsAfter : TSNode → Bool}

/-- What ends where the node ends, or later, ends after the goal if the node does. -/
def EndsMonotone (R : Length → List β → Prop) (text : List β) (endsAfter : TSNode → Bool) : Prop :=
  ∀ a b : TSNode, a.Reads R text → b.Reads R text → a.endByte ≤ b.endByte →
    endsAfter a = true → endsAfter b = true

theorem endsAfter_of_not_entered (hR : Measures R) (hlen : text.length < 2 ^ 32)
    (hmono : EndsMonotone R text endsAfter) {child : TSNode} (hreads : child.Reads R text)
    (hcounted : child.subtree.Counted lang) (h : ¬ Entered lang endsAfter child) :
    ∀ shown ∈ child.shownSelf lang, endsAfter shown = false := by
  intro shown hshown
  rw [TSNode.shownSelf] at hshown
  by_cases hrelevant : child.isRelevant lang true = true
  · rw [if_pos hrelevant, mem_singleton] at hshown
    subst hshown
    exact Bool.eq_false_iff.mpr fun hafter => h ⟨hafter, Or.inl hrelevant⟩
  · rw [if_neg hrelevant] at hshown
    have hbelow := TSNode.below_of_mem_shown hshown
    refine Bool.eq_false_iff.mpr fun hafter => h ⟨?_, Or.inr ?_⟩
    · exact hmono shown child (hbelow.reads hreads hR hlen) hreads
        (hbelow.endByte_le hreads hR hlen) hafter
    · rw [TSNode.childCount_eq hcounted]
      exact length_pos_of_mem hshown

theorem BlindAlley.lt (hR : Measures R) (hlen : text.length < 2 ^ 32)
    (hmono : EndsMonotone R text endsAfter) {node : TSNode} (h : BlindAlley lang endsAfter node)
    (hreads : node.Reads R text) : node.startByte < node.endByte := by
  by_contra hle
  obtain ⟨shown, hshown⟩ := exists_mem_of_ne_nil _ h.shown
  have hbelow := TSNode.below_of_mem_shown hshown
  have hshownReads := hbelow.reads hreads hR hlen
  have hstart := hbelow.startByte_le hreads hR hlen
  have hend := hshownReads.startByte_le hR hlen
  have hafter := hmono node shown hreads hshownReads (by omega) h.isAfter
  rw [h.blind shown hshown] at hafter
  cases hafter

section Level

variable {node child : TSNode} {front back : List TSNode}

theorem endsAfter_front (hR : Measures R) (hlen : text.length < 2 ^ 32)
    (hmono : EndsMonotone R text endsAfter) (hreads : node.Reads R text)
    (hwf : node.subtree.WellFormed lang) (hfront : ∀ other ∈ front, other ∈ node.children lang)
    (hpassed : ∀ other ∈ front, ¬ Entered lang endsAfter other) :
    ∀ shown ∈ front.flatMap (TSNode.shownSelf lang), endsAfter shown = false := by
  intro shown hshown
  obtain ⟨passed, hmem, hshown⟩ := mem_flatMap.mp hshown
  exact endsAfter_of_not_entered hR hlen hmono (hreads.child hR hlen (hfront passed hmem))
    (hwf.counted_child (TSNode.subtree_mem (hfront passed hmem))) (hpassed passed hmem) shown hshown

theorem startByte_back (hR : Measures R) (hlen : text.length < 2 ^ 32) (hreads : node.Reads R text)
    (hsplit : node.children lang = front ++ child :: back) :
    ∀ shown ∈ back.flatMap (TSNode.shownSelf lang),
      child.endByte ≤ shown.startByte ∧ shown.startByte ≤ shown.endByte := by
  intro shown hshown
  obtain ⟨other, hmem, hshown⟩ := mem_flatMap.mp hshown
  have hother : other ∈ node.children lang := by
    rw [hsplit]
    exact mem_append_right _ (mem_cons_of_mem child hmem)
  have hpairwise := (@TSNode.Reads.children _ _ lang _ _ hreads hR hlen).2
  rw [hsplit, pairwise_append, pairwise_cons] at hpairwise
  have hle := hpairwise.2.1.1 other hmem
  have hotherReads := hreads.child hR hlen hother
  rcases TSNode.within_of_mem_shownSelf hshown with rfl | hbelow
  · exact ⟨hle, hotherReads.startByte_le hR hlen⟩
  · exact ⟨hle.trans (hbelow.startByte_le hotherReads hR hlen),
      (hbelow.reads hotherReads hR hlen).startByte_le hR hlen⟩

/-- No blind alley is in front of the child that the search goes to, and those behind it start
behind it. -/
theorem blindAlley_place (hR : Measures R) (hlen : text.length < 2 ^ 32)
    (hmono : EndsMonotone R text endsAfter) (hreads : node.Reads R text)
    (hwf : node.subtree.WellFormed lang) (hsplit : node.children lang = front ++ child :: back)
    (hpassed : ∀ other ∈ front, ¬ Entered lang endsAfter other) {hidden : TSNode}
    (hhidden : node.HiddenBelow lang hidden) (hblind : BlindAlley lang endsAfter hidden) :
    child.endByte ≤ hidden.startByte ∨ child.isRelevant lang true = false ∧
      (hidden = child ∨ child.HiddenBelow lang hidden) := by
  obtain ⟨kid, hkid, hkidHidden, hplace⟩ := hhidden.exists_child
  have hkidReads := hreads.child hR hlen hkid
  have hcounted := hwf.counted_child (TSNode.subtree_mem hkid)
  rw [hsplit, mem_append, mem_cons] at hkid
  rcases hkid with hkid | rfl | hkid
  · obtain ⟨shown, hshown⟩ := exists_mem_of_ne_nil _ hblind.shown
    refine absurd ⟨?_, Or.inr ?_⟩ (hpassed kid hkid)
    · rcases hplace with rfl | hplace
      · exact hblind.isAfter
      · exact hmono hidden kid (hplace.toBelow.reads hkidReads hR hlen) hkidReads
          (hplace.toBelow.endByte_le hkidReads hR hlen) hblind.isAfter
    · rw [TSNode.childCount_eq hcounted]
      rcases hplace with rfl | hplace
      · exact length_pos_of_mem hshown
      · exact length_pos_of_mem (hplace.shown_subset shown hshown)
  · exact Or.inr ⟨hkidHidden, hplace⟩
  · have hpairwise := (@TSNode.Reads.children _ _ lang _ _ hreads hR hlen).2
    rw [hsplit, pairwise_append, pairwise_cons] at hpairwise
    refine Or.inl ((hpairwise.2.1.1 kid hkid).trans ?_)
    rcases hplace with rfl | hplace
    · exact le_rfl
    · exact hplace.toBelow.startByte_le hkidReads hR hlen

end Level

variable (hafter : ∀ node : TSNode, node.Reads R text →
  endsAfter node = atGoal goalByte goalPoint node.endPosition)
include hafter

variable {stack : List TreeCursorEntry} {visibleChildIndex : Nat}

/-- Where the search arrives is the first visible child that ends after the goal, and no blind
alley is in front of it. -/
theorem firstChildLoop_some (hR : Measures R) (hlen : text.length < 2 ^ 32)
    (hmono : EndsMonotone R text endsAfter) (rootAliasSymbol : Nat) {fuel : Nat}
    {node : TSNode} (htop : IsTop stack node)
    (hreads : node.Reads R text) (hwf : node.subtree.WellFormed lang)
    {result : List TreeCursorEntry × Nat}
    (h : firstChildLoop lang goalByte goalPoint fuel stack visibleChildIndex = some result) :
    ∃ front shown back, node.shown lang = front ++ shown :: back ∧
      (∀ other ∈ front, endsAfter other = false) ∧ endsAfter shown = true ∧
      result.2 = visibleChildIndex + front.length ∧
      currentNode lang rootAliasSymbol result.1 = some shown ∧
      ∀ hidden, node.HiddenBelow lang hidden → BlindAlley lang endsAfter hidden →
        shown.endByte ≤ hidden.startByte := by
  induction fuel generalizing stack node visibleChildIndex with
  | zero => cases h
  | succ fuel ih =>
    have hgoal : ∀ child ∈ node.children lang,
        endsAfter child = atGoal goalByte goalPoint child.endPosition :=
      fun child hchild => hafter child (hreads.child hR hlen hchild)
    rw [firstChildLoop] at h
    rcases @firstChildScan_spec _ _ _ stack _ _ _ _ _ hgoal htop.children
      (fun child hchild => hwf.counted_child (TSNode.subtree_mem hchild)) visibleChildIndex
      with ⟨_, hnone⟩ | ⟨front, child, back, entry, hsplit, hfront, hentered, hentry, hscan⟩
    · rw [← Prod.eta (firstChildScan _ _ _ _ _), hnone] at h
      cases h
    · have hmem : child ∈ node.children lang := by
        rw [hsplit]
        exact mem_append_right _ mem_cons_self
      have hmemFront : ∀ other ∈ front, other ∈ node.children lang :=
        fun other hother => hsplit ▸ mem_append_left _ hother
      obtain ⟨hpush, hcurrent⟩ := htop.push hentry rootAliasSymbol
      have hchildReads := hreads.child hR hlen hmem
      have hpassed := endsAfter_front hR hlen hmono hreads hwf hmemFront hfront
      have hshown := TSNode.shown_of_split hsplit
      rw [hscan] at h
      by_cases hrelevant : child.isRelevant lang true = true
      · rw [if_pos hrelevant] at h
        cases h
        refine ⟨_, child, back.flatMap (TSNode.shownSelf lang), ?_, hpassed, hentered.1, rfl,
          hcurrent, ?_⟩
        · rw [hshown, TSNode.shownSelf, if_pos hrelevant, singleton_append]
        · intro hidden hhidden hblind
          rcases blindAlley_place hR hlen hmono hreads hwf hsplit hfront hhidden hblind with
            hle | ⟨hchildHidden, _⟩
          · exact hle
          · rw [hrelevant] at hchildHidden
            cases hchildHidden
      · rw [if_neg hrelevant] at h
        obtain ⟨inner, shown, rest, hinner, hinnerPassed, hshownAfter, hindex, hresult,
          hinnerBlind⟩ := ih hpush hchildReads (hwf.child (TSNode.subtree_mem hmem)) h
        have hmemShown : shown ∈ child.shown lang := by
          rw [hinner]
          exact mem_append_right _ mem_cons_self
        have hle := (TSNode.below_of_mem_shown hmemShown).endByte_le hchildReads hR hlen
        refine ⟨front.flatMap (TSNode.shownSelf lang) ++ inner, shown, rest ++ back.flatMap
          (TSNode.shownSelf lang), ?_, ?_, hshownAfter, ?_, hresult, ?_⟩
        · rw [hshown, TSNode.shownSelf, if_neg hrelevant, hinner]
          simp only [append_assoc, cons_append]
        · exact forall_mem_append.mpr ⟨hpassed, hinnerPassed⟩
        · rw [hindex, length_append, Nat.add_assoc]
        · intro hidden hhidden hblind
          rcases blindAlley_place hR hlen hmono hreads hwf hsplit hfront hhidden hblind with
            hbehind | ⟨_, rfl | hplace⟩
          · exact hle.trans hbehind
          · rw [hblind.blind shown hmemShown] at hshownAfter
            cases hshownAfter
          · exact hinnerBlind hidden hplace hblind

/-- If the search does not arrive, no visible child ends after the goal, or a blind alley is in
front of all that do. -/
theorem firstChildLoop_none (hR : Measures R) (hlen : text.length < 2 ^ 32)
    (hmono : EndsMonotone R text endsAfter) {fuel : Nat}
    {node : TSNode} (htop : IsTop stack node)
    (hreads : node.Reads R text) (hwf : node.subtree.WellFormed lang)
    (hfuel : node.subtree.height ≤ fuel)
    (h : firstChildLoop lang goalByte goalPoint fuel stack visibleChildIndex = none) :
    (∀ shown ∈ node.shown lang, endsAfter shown = false) ∨
      ∃ hidden, node.HiddenBelow lang hidden ∧ BlindAlley lang endsAfter hidden ∧
        ∀ shown ∈ node.shown lang, endsAfter shown = true →
          ¬ shown.endByte ≤ hidden.startByte := by
  induction fuel generalizing stack node visibleChildIndex with
  | zero =>
    have hpos := node.subtree.height_pos
    omega
  | succ fuel ih =>
    have hcounted : ∀ child ∈ node.children lang, child.subtree.Counted lang :=
      fun child hchild => hwf.counted_child (TSNode.subtree_mem hchild)
    have hgoal : ∀ child ∈ node.children lang,
        endsAfter child = atGoal goalByte goalPoint child.endPosition :=
      fun child hchild => hafter child (hreads.child hR hlen hchild)
    rw [firstChildLoop] at h
    rcases @firstChildScan_spec _ _ _ stack _ _ _ _ _ hgoal htop.children hcounted visibleChildIndex
      with ⟨hall, _⟩ | ⟨front, child, back, entry, hsplit, hfront, hentered, hentry, hscan⟩
    · left
      rw [TSNode.shown_eq_shownSelf]
      exact endsAfter_front hR hlen hmono hreads hwf (fun _ h => h) hall
    · have hmem : child ∈ node.children lang := by
        rw [hsplit]
        exact mem_append_right _ mem_cons_self
      have hmemFront : ∀ other ∈ front, other ∈ node.children lang :=
        fun other hother => hsplit ▸ mem_append_left _ hother
      have hchildReads := hreads.child hR hlen hmem
      rw [hscan] at h
      by_cases hrelevant : child.isRelevant lang true = true
      · rw [if_pos hrelevant] at h
        cases h
      · rw [if_neg hrelevant] at h
        have hhidden : child.isRelevant lang true = false := Bool.eq_false_iff.mpr hrelevant
        have hlt := TSNode.height_lt hmem
        -- What is behind the child does not stand in front of a blind alley in it.
        have hsuffices : ∀ hidden, child.Within lang hidden → BlindAlley lang endsAfter hidden →
            (∀ shown ∈ child.shown lang, endsAfter shown = true →
              ¬ shown.endByte ≤ hidden.startByte) →
            ∀ shown ∈ node.shown lang, endsAfter shown = true →
              ¬ shown.endByte ≤ hidden.startByte := by
          intro hidden hwithin hblind hinner shown hshown hshownAfter
          rw [TSNode.shown_of_split hsplit, mem_append, mem_append, TSNode.shownSelf,
            if_neg hrelevant] at hshown
          rcases hshown with hshown | hshown | hshown
          · rw [endsAfter_front hR hlen hmono hreads hwf hmemFront hfront shown hshown]
              at hshownAfter
            cases hshownAfter
          · exact hinner shown hshown hshownAfter
          · obtain ⟨hstart, hend⟩ := startByte_back hR hlen hreads hsplit shown hshown
            rcases hwithin with rfl | hbelow
            · have hwide := hblind.lt hR hlen hmono hchildReads
              omega
            · have hwide := hblind.lt hR hlen hmono (hbelow.reads hchildReads hR hlen)
              have hhiddenEnd := hbelow.endByte_le hchildReads hR hlen
              omega
        rcases ih (htop.push hentry 0).1 hchildReads (hwf.child (TSNode.subtree_mem hmem))
          (by omega) h with hnone | ⟨hidden, hbelow, hblind, hinner⟩
        · have hne : child.shown lang ≠ [] := by
            rcases hentered.2 with hvisible | hcount
            · exact absurd hvisible hrelevant
            · rw [TSNode.childCount_eq (hcounted child hmem)] at hcount
              exact length_pos_iff.mp hcount
          have hblind : BlindAlley lang endsAfter child := ⟨hentered.1, hne, hnone⟩
          refine Or.inr ⟨child, .child hmem hhidden, hblind, hsuffices child (Or.inl rfl) hblind ?_⟩
          intro shown hshown hshownAfter
          rw [hnone shown hshown] at hshownAfter
          cases hshownAfter
        · exact Or.inr ⟨hidden, .step hmem hhidden hbelow, hblind,
            hsuffices hidden (Or.inr hbelow.toBelow) hblind hinner⟩

end Search

/-! ### The whole move -/

theorem currentNode_isTop {rootAliasSymbol : Nat} {stack : List TreeCursorEntry} {node : TSNode}
    (h : currentNode lang rootAliasSymbol stack = some node) : IsTop stack node := by
  cases stack with
  | nil => cases h
  | cons entry rest =>
    cases rest with
    | nil =>
      cases h
      exact ⟨⟨entry, [], rfl, rfl, rfl⟩, rfl⟩
    | cons parent rest =>
      cases h
      exact ⟨⟨entry, parent :: rest, rfl, rfl, rfl⟩, rfl⟩

/-- The byte that the search compares with. -/
def TextGoal.goalByte : TextGoal → Nat
  | .byte goal => goal
  | .point _ => 0

/-- The point that the search compares with. -/
def TextGoal.goalPoint : TextGoal → Point
  | .byte _ => ⟨0, 0⟩
  | .point goal => goal

theorem gotoFirstChildFor_eq (goal : TextGoal) (stack : List TreeCursorEntry) :
    gotoFirstChildFor lang goal stack =
      gotoFirstChildForByteAndPoint lang goal.goalByte goal.goalPoint stack := by
  cases goal <;> rfl

/-- In a text the comparison that is not meant comes out right whenever the other one does. -/
theorem TextGoal.endsAfter_eq (goal : TextGoal) {text : List UInt8} (hlen : text.length < 2 ^ 32)
    {node : TSNode} (hreads : node.Reads (fun l w => l = lengthOf w) text) :
    goal.endsAfter node = atGoal goal.goalByte goal.goalPoint node.endPosition := by
  obtain ⟨front, hend, hpre⟩ := hreads.endPosition measures_lengthOf hlen
  have hbytes : node.endByte = front.length := congrArg Length.bytes hend
  have hpoint : node.endPoint = pointOf front := congrArg Length.extent hend
  have hiff := pointOf_lt_iff (List.nil_prefix (l := text)) hpre
  rw [hend, Bool.eq_iff_iff, atGoal, Bool.and_eq_true, decide_eq_true_iff]
  cases goal with
  | byte goal =>
    change decide (goal < node.endByte) = true ↔
      front.length > goal ∧ (pointOf []).lt (pointOf front) = true
    rw [hbytes, decide_eq_true_iff, hiff, length_nil]
    omega
  | point goal =>
    change goal.lt node.endPoint = true ↔
      front.length > 0 ∧ goal.lt (pointOf front) = true
    rw [hpoint, iff_and_self]
    intro hlt
    by_contra hzero
    rw [length_eq_zero_iff.mp (Nat.le_zero.mp (Nat.not_lt.mp hzero))] at hlt
    simp [Point.lt, pointOf] at hlt

theorem TextGoal.endsMonotone (goal : TextGoal) {text : List UInt8} (hlen : text.length < 2 ^ 32) :
    EndsMonotone (fun l w => l = lengthOf w) text goal.endsAfter := by
  intro a b ha hb hle hafter
  obtain ⟨front, hend, hpre⟩ := ha.endPosition measures_lengthOf hlen
  obtain ⟨front', hend', hpre'⟩ := hb.endPosition measures_lengthOf hlen
  have hbytes : a.endByte = front.length := congrArg Length.bytes hend
  have hbytes' : b.endByte = front'.length := congrArg Length.bytes hend'
  cases goal with
  | byte goal =>
    rw [endsAfter, decide_eq_true_iff] at hafter ⊢
    omega
  | point goal =>
    have hpoint : a.endPoint = pointOf front := congrArg Length.extent hend
    have hpoint' : b.endPoint = pointOf front' := congrArg Length.extent hend'
    rw [endsAfter, hpoint] at hafter
    rw [endsAfter, hpoint']
    rcases Nat.lt_or_eq_of_le hle with hlt | heq
    · rw [hbytes, hbytes', ← pointOf_lt_iff hpre hpre'] at hlt
      exact Point.lt_trans hafter hlt
    · have hsame : front = front' :=
        (prefix_of_prefix_length_le hpre hpre' (by omega)).eq_of_length (by omega)
      rw [← hsame]
      exact hafter

/-- The move to the first visible child that ends after a byte or a point does so exactly if no
blind alley is in front of it. -/
theorem gotoFirstChildFor_iff (goal : TextGoal) {text : List UInt8} (hlen : text.length < 2 ^ 32)
    {rootAliasSymbol : Nat} {stack : List TreeCursorEntry} {node : TSNode}
    (hnode : currentNode lang rootAliasSymbol stack = some node)
    (hreads : node.Reads (fun l w => l = lengthOf w) text)
    (hwf : node.subtree.WellFormed lang) :
    MovedToFirst lang rootAliasSymbol goal.endsAfter stack node (gotoFirstChildFor lang goal stack) ↔
      NoBlindAlleyFirst lang goal.endsAfter node := by
  have htop := currentNode_isTop hnode
  have hafter : ∀ node : TSNode, node.Reads (fun l w => l = lengthOf w) text →
      goal.endsAfter node = atGoal goal.goalByte goal.goalPoint node.endPosition :=
    fun node hreads => goal.endsAfter_eq hlen hreads
  have hmono := goal.endsMonotone hlen
  have hfuel : stackFuel stack = node.subtree.height := by
    obtain ⟨⟨entry, rest, rfl, hsubtree, _⟩, _⟩ := htop
    rw [stackFuel, hsubtree]
  rw [gotoFirstChildFor_eq, gotoFirstChildForByteAndPoint, hfuel, MovedToFirst]
  cases hloop : firstChildLoop lang goal.goalByte goal.goalPoint node.subtree.height stack 0 with
  | some result =>
    obtain ⟨found, visibleChildIndex⟩ := result
    obtain ⟨front, shown, back, hshown, hfront, hshownAfter, hindex, hresult, hblind⟩ :=
      firstChildLoop_some hafter measures_lengthOf hlen hmono rootAliasSymbol htop hreads hwf hloop
    have hmem : shown ∈ node.shown lang := by
      rw [hshown]
      exact mem_append_right _ mem_cons_self
    have hfind : (node.shown lang).findIdx? goal.endsAfter = some front.length := by
      rw [hshown, findIdx?_append, findIdx?_eq_none_iff.mpr hfront,
        findIdx?_cons, if_pos hshownAfter]
      simp
    rw [hfind]
    dsimp only at hindex hresult ⊢
    refine iff_of_true ⟨by rw [hindex, Nat.zero_add], ?_⟩ fun hidden hhidden hhiddenBlind =>
      Or.inr ⟨shown, hmem, hshownAfter, hblind hidden hhidden hhiddenBlind⟩
    rw [hresult, hshown, getElem?_append_right le_rfl, Nat.sub_self, getElem?_cons_zero]
  | none =>
    rcases firstChildLoop_none hafter measures_lengthOf hlen hmono htop hreads hwf le_rfl hloop with
      hnone | ⟨hidden, hhidden, hblind, hbehind⟩
    · rw [findIdx?_eq_none_iff.mpr hnone]
      exact iff_of_true rfl fun _ _ _ => Or.inl hnone
    · cases hfind : (node.shown lang).findIdx? goal.endsAfter with
      | none => exact iff_of_true rfl fun _ _ _ => Or.inl (findIdx?_eq_none_iff.mp hfind)
      | some index =>
        refine iff_of_false (fun h => by cases h.1) fun h => ?_
        obtain ⟨hlt, hindex, _⟩ := findIdx?_eq_some_iff_getElem.mp hfind
        rcases h hidden hhidden hblind with hnone | ⟨shown, hshown, hshownAfter, hle⟩
        · rw [hnone _ (getElem_mem hlt)] at hindex
          cases hindex
        · exact hbehind shown hshown hshownAfter hle

/-- A hidden node that ends with something hidden, in front of a visible one. -/
def hiddenEnd : SyntaxTree :=
  rowNode 1 [rowNode 3 [rowTree 1 1 [], rowTree 3 1 []], rowTree 1 1 []]

theorem hiddenEnd_isRow : IsRow hiddenEnd :=
  isRow_node (by simp [isRow_node])

def rootCursor (root : SyntaxTree) : List TreeCursorEntry := [⟨root, root.padding, 0, 0, 0⟩]

theorem gotoFirstChildFor_iff_hiddenEnd :
    MovedToFirst rowLanguage 0 (TextGoal.byte 1).endsAfter (rootCursor hiddenEnd)
      hiddenEnd.rootNode (gotoFirstChildFor rowLanguage (.byte 1) (rootCursor hiddenEnd)) ↔
    NoBlindAlleyFirst rowLanguage (TextGoal.byte 1).endsAfter hiddenEnd.rootNode :=
  @gotoFirstChildFor_iff _ (.byte 1) (rowText 3) (by decide) _ _ _ rfl
    hiddenEnd_isRow.spells.rootNode hiddenEnd_isRow.wellFormed

/-- The second visible child ends after the goal, and is not found. -/
theorem not_movedToFirst_hiddenEnd : ∃ (root : SyntaxTree) (text : List UInt8),
    root.WellFormed rowLanguage ∧ root.rootNode.Reads (fun l w => l = lengthOf w) text ∧
    currentNode rowLanguage 0 (rootCursor root) = some root.rootNode ∧
    ¬ MovedToFirst rowLanguage 0 (TextGoal.byte 1).endsAfter (rootCursor root) root.rootNode
      (gotoFirstChildFor rowLanguage (.byte 1) (rootCursor root)) := by
  refine ⟨hiddenEnd, rowText 3, hiddenEnd_isRow.wellFormed, hiddenEnd_isRow.spells.rootNode, rfl,
    fun h => ?_⟩
  have hfind : (hiddenEnd.rootNode.shown rowLanguage).findIdx? (TextGoal.byte 1).endsAfter =
      some 1 := by decide
  have hmove : (gotoFirstChildFor rowLanguage (.byte 1) (rootCursor hiddenEnd)).2 = none := by
    decide
  rw [MovedToFirst, hfind, hmove] at h
  cases h.1

end TreeSitter.Lib
