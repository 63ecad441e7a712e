import TreeSitter.Lib.Node.Shown

/-!
# TreeSitter.Lib.Node.DescendantForRange

**The smallest node that spans a range** (`ts_node__descendant_for_byte_range` and
`ts_node__descendant_for_point_range`). Both enter one child after the other, each time the first
one that reaches from the start of the range to its end and beyond its start, and return the last
visible node on this **way** down.

Only one child reaches over a range that is not empty. Several can touch an empty range: empty
children at its place, and one that goes on behind it. The first of them is entered and the others
are not, and if no visible node is on the way from there, the visible nodes beside it are missed
(`descendantForRange_iff`).

The points of a text are in the order of its bytes, so both functions go the same way.
-/

namespace TreeSitter.Lib

open List

variable (lang : TreeLanguage)

/-- The node touches the range: it spans it, and ends behind its start or is empty. -/
def TSNode.Touches (rangeStart rangeEnd : Nat) (node : TSNode) : Prop :=
  node.startByte ≤ rangeStart ∧ rangeEnd ≤ node.endByte ∧
    (rangeStart < node.endByte ∨ node.startByte = node.endByte)

/-- The result is the node or a visible one in it that spans the range, and no visible node in it
touches the range. -/
structure IsSmallest (rangeStart rangeEnd : Nat) (node result : TSNode) : Prop where
  visible : result = node ∨ node.Below lang result ∧ result.isRelevant lang true = true
  spans : result.startByte ≤ rangeStart ∧ rangeEnd ≤ result.endByte
  smallest : ∀ descendant : TSNode, result.Below lang descendant →
    descendant.isRelevant lang true = true → ¬ descendant.Touches rangeStart rangeEnd

/-- The search for a byte range finds the smallest node, and the one for the points of the same
places in the text finds the same node. -/
def FindsSmallest (text : List UInt8) (rangeStart rangeEnd : Nat) (node : TSNode) : Prop :=
  ∃ result, descendantForByteRange lang node rangeStart rangeEnd true = some result ∧
    IsSmallest lang rangeStart rangeEnd node result ∧
    descendantForPointRange lang node (pointOf (text.take rangeStart))
      (pointOf (text.take rangeEnd)) true = some result

/-- The search enters the second node when it has come to the first one. -/
inductive TSNode.Way (rangeStart rangeEnd : Nat) : TSNode → TSNode → Prop where
  | child {node child : TSNode}
      (h : byteRangeChild rangeStart rangeEnd (node.children lang) = some child) :
      Way rangeStart rangeEnd node child
  | step {node child descendant : TSNode}
      (h : byteRangeChild rangeStart rangeEnd (node.children lang) = some child)
      (hway : Way rangeStart rangeEnd child descendant) :
      Way rangeStart rangeEnd node descendant

/-- Where the search comes to a node and to no visible one from there, no visible node that
touches the range is in a child beside the way. -/
def NothingBeside (rangeStart rangeEnd : Nat) (node : TSNode) : Prop :=
  ∀ last : TSNode, (last = node ∨ node.Way lang rangeStart rangeEnd last) →
    (∀ next : TSNode, last.Way lang rangeStart rangeEnd next → next.isRelevant lang true = false) →
    ∀ child ∈ last.children lang,
      byteRangeChild rangeStart rangeEnd (last.children lang) ≠ some child →
      ∀ beside : TSNode, child.Within lang beside → beside.isRelevant lang true = true →
        ¬ beside.Touches rangeStart rangeEnd

variable {lang} {rangeStart rangeEnd : Nat}

/-! ### The way down -/

theorem byteRangeChild_spec {children : List TSNode} {child : TSNode}
    (h : byteRangeChild rangeStart rangeEnd children = some child) :
    child ∈ children ∧ child.startByte ≤ rangeStart ∧ rangeEnd ≤ child.endByte := by
  induction children with
  | nil => cases h
  | cons first children ih =>
    rw [byteRangeChild] at h
    have hrest : byteRangeChild rangeStart rangeEnd children = some child →
        child ∈ first :: children ∧ child.startByte ≤ rangeStart ∧ rangeEnd ≤ child.endByte :=
      fun h => ⟨mem_cons_of_mem first (ih h).1, (ih h).2⟩
    by_cases hend : first.endPosition.bytes < rangeEnd
    · rw [if_pos hend] at h
      exact hrest h
    · rw [if_neg hend] at h
      by_cases hstart : rangeStart < first.startByte
      · rw [if_pos hstart] at h
        split_ifs at h
        all_goals exact hrest h
      · rw [if_neg hstart] at h
        have hfirst : some first = some child → child ∈ first :: children ∧
            child.startByte ≤ rangeStart ∧ rangeEnd ≤ child.endByte := by
          intro h
          cases h
          exact ⟨mem_cons_self, Nat.le_of_not_lt hstart, Nat.le_of_not_lt hend⟩
        split_ifs at h
        all_goals first | exact hrest h | exact hfirst h

namespace TSNode.Way

variable {node other : TSNode}

section

variable (h : node.Way lang rangeStart rangeEnd other)

include h

theorem toBelow : node.Below lang other := by
  induction h with
  | child h => exact .child (byteRangeChild_spec h).1
  | step h _ ih => exact .step (byteRangeChild_spec h).1 ih

theorem spans : other.startByte ≤ rangeStart ∧ rangeEnd ≤ other.endByte := by
  induction h with
  | child h => exact (byteRangeChild_spec h).2
  | step _ _ ih => exact ih

theorem linear {other' : TSNode} (h' : node.Way lang rangeStart rangeEnd other') :
    other = other' ∨ other.Way lang rangeStart rangeEnd other' ∨
      other'.Way lang rangeStart rangeEnd other := by
  induction h with
  | child h =>
    cases h' with
    | child h' =>
      rw [h] at h'
      cases h'
      exact Or.inl rfl
    | step h' hway =>
      rw [h] at h'
      cases h'
      exact Or.inr (Or.inl hway)
  | step h hway ih =>
    cases h' with
    | child h' =>
      rw [h] at h'
      cases h'
      exact Or.inr (Or.inr hway)
    | step h' hway' =>
      rw [h] at h'
      cases h'
      exact ih hway'

theorem trans {other' : TSNode} (h' : other.Way lang rangeStart rangeEnd other') :
    node.Way lang rangeStart rangeEnd other' := by
  induction h with
  | child h => exact step h h'
  | step h _ ih => exact step h (ih h')

end

end TSNode.Way

theorem descendantForRangeFrom_spec {fuel : Nat} {node last : TSNode}
    (hfuel : node.subtree.height ≤ fuel) {result : TSNode}
    (h : descendantForRangeFrom lang (byteRangeChild rangeStart rangeEnd) true fuel node last =
      result) :
    (result = last ∧ ∀ next : TSNode, node.Way lang rangeStart rangeEnd next →
      next.isRelevant lang true = false) ∨
    node.Way lang rangeStart rangeEnd result ∧ result.isRelevant lang true = true ∧
      ∀ next : TSNode, result.Way lang rangeStart rangeEnd next →
        next.isRelevant lang true = false := by
  induction fuel generalizing node last with
  | zero =>
    have hpos := node.subtree.height_pos
    omega
  | succ fuel ih =>
    rw [descendantForRangeFrom] at h
    cases hchild : byteRangeChild rangeStart rangeEnd (node.children lang) with
    | none =>
      rw [hchild] at h
      refine Or.inl ⟨h.symm, fun next hway => ?_⟩
      cases hway with
      | child hnext | step hnext _ =>
        rw [hchild] at hnext
        cases hnext
    | some child =>
      rw [hchild] at h
      dsimp only at h
      have hlt := TSNode.height_lt (byteRangeChild_spec hchild).1
      have hnext : ∀ next : TSNode, node.Way lang rangeStart rangeEnd next →
          next = child ∨ child.Way lang rangeStart rangeEnd next := by
        intro next hway
        cases hway with
        | child hway =>
          rw [hchild] at hway
          cases hway
          exact Or.inl rfl
        | step hway hrest =>
          rw [hchild] at hway
          cases hway
          exact Or.inr hrest
      rcases ih (by omega) h with ⟨hlast, hhidden⟩ | ⟨hway, hvisible, hhidden⟩
      · by_cases hrelevant : child.isRelevant lang true = true
        · rw [if_pos hrelevant] at hlast
          subst hlast
          exact Or.inr ⟨.child hchild, hrelevant, hhidden⟩
        · rw [if_neg hrelevant] at hlast
          refine Or.inl ⟨hlast, fun next hway => ?_⟩
          rcases hnext next hway with rfl | hway
          · exact Bool.eq_false_iff.mpr hrelevant
          · exact hhidden next hway
      · exact Or.inr ⟨.step hchild hway, hvisible, hhidden⟩

theorem not_touches_of_nothingBeside {node last : TSNode}
    (h : NothingBeside lang rangeStart rangeEnd node)
    (hlast : last = node ∨ node.Way lang rangeStart rangeEnd last)
    (hhidden : ∀ next : TSNode, last.Way lang rangeStart rangeEnd next →
      next.isRelevant lang true = false) {descendant : TSNode}
    (hbelow : last.Below lang descendant) (hvisible : descendant.isRelevant lang true = true) :
    ¬ descendant.Touches rangeStart rangeEnd := by
  induction hbelow with
  | @child last child hchild =>
    refine h last hlast hhidden child hchild (fun henter => ?_) child (Or.inl rfl) hvisible
    rw [hhidden child (.child henter)] at hvisible
    cases hvisible
  | @step last child descendant hchild hbelow ih =>
    by_cases henter : byteRangeChild rangeStart rangeEnd (last.children lang) = some child
    · refine ih (Or.inr ?_) (fun next hway => hhidden next (.step henter hway)) hvisible
      rcases hlast with rfl | hlast
      · exact .child henter
      · exact hlast.trans (.child henter)
    · exact h last hlast hhidden child hchild henter descendant (Or.inr hbelow) hvisible

theorem byteRangeChild_eq {β : Type} {R : Length → List β → Prop} (hR : Measures R)
    {text : List β} (hlen : text.length < 2 ^ 32) {node child : TSNode}
    (hreads : node.Reads R text) (hchild : child ∈ node.children lang)
    (hlt : rangeStart < rangeEnd) (hstart : child.startByte ≤ rangeStart)
    (hend : rangeEnd ≤ child.endByte) :
    byteRangeChild rangeStart rangeEnd (node.children lang) = some child := by
  obtain ⟨front, back, hsplit⟩ := append_of_mem hchild
  have hpairwise := (@TSNode.Reads.children _ _ lang _ _ hreads hR hlen).2
  rw [hsplit, pairwise_append] at hpairwise
  have hfront : ∀ other ∈ front, other.endByte ≤ child.startByte :=
    fun other hother => hpairwise.2.2 other hother child mem_cons_self
  rw [hsplit]
  clear hsplit hpairwise
  induction front with
  | nil =>
    have hend' : rangeEnd ≤ child.endPosition.bytes := hend
    rw [nil_append, byteRangeChild]
    rw [if_neg (by omega), if_neg (by split <;> omega), if_neg (by omega)]
  | cons first front ih =>
    rw [forall_mem_cons] at hfront
    have hfirst : first.endPosition.bytes ≤ child.startByte := hfront.1
    rw [cons_append, byteRangeChild]
    rw [if_pos (by omega)]
    exact ih hfront.2

theorem nothingBeside_of_lt {β : Type} {R : Length → List β → Prop} (hR : Measures R)
    {text : List β} (hlen : text.length < 2 ^ 32) {node : TSNode} (hreads : node.Reads R text)
    (hlt : rangeStart < rangeEnd) : NothingBeside lang rangeStart rangeEnd node := by
  intro last hlast _ child hchild henter beside hwithin _ htouches
  obtain ⟨hstart, hend, _⟩ := htouches
  have hlastReads : last.Reads R text := by
    rcases hlast with rfl | hway
    · exact hreads
    · exact hway.toBelow.reads hreads hR hlen
  have hchildReads := hlastReads.child hR hlen hchild
  refine henter (byteRangeChild_eq hR hlen hlastReads hchild hlt ?_ ?_)
  · rcases hwithin with rfl | hbelow
    · exact hstart
    · exact (hbelow.startByte_le hchildReads hR hlen).trans hstart
  · rcases hwithin with rfl | hbelow
    · exact hend
    · exact hend.trans (hbelow.endByte_le hchildReads hR hlen)

/-! ### Points -/

/-- Among nodes of a text, the points of two places lead to the same child as the bytes. -/
theorem pointRangeChild_eq {text v w : List UInt8} (hlen : text.length < 2 ^ 32)
    (hv : v <+: text) (hw : w <+: text) {children : List TSNode}
    (hreads : ∀ child ∈ children, child.Reads (fun l w => l = lengthOf w) text) :
    pointRangeChild (pointOf v) (pointOf w) children =
      byteRangeChild v.length w.length children := by
  induction children with
  | nil => rfl
  | cons child children ih =>
    rw [forall_mem_cons] at hreads
    obtain ⟨front, hposition, hfront⟩ := hreads.1.position
    obtain ⟨behind, hend, hbehind⟩ := hreads.1.endPosition measures_lengthOf hlen
    have hstartByte : child.startByte = front.length := congrArg Length.bytes hposition
    have hstartPoint : child.startPoint = pointOf front := congrArg Length.extent hposition
    have hempty : pointOf front = pointOf behind ↔ front.length = behind.length := by
      constructor
      · intro heq
        have hlt := pointOf_lt_iff hfront hbehind
        have hgt := pointOf_lt_iff hbehind hfront
        rw [heq, Point.lt_irrefl] at hlt hgt
        have hnlt := mt hlt.mpr Bool.false_ne_true
        have hngt := mt hgt.mpr Bool.false_ne_true
        omega
      · intro heq
        rw [(prefix_of_prefix_length_le hfront hbehind heq.le).eq_of_length heq]
    have hlte : (pointOf behind).lte (pointOf v) = true ↔ behind.length ≤ v.length := by
      rw [Point.lte_iff, ← Bool.not_eq_true, pointOf_lt_iff hv hbehind, Nat.not_lt]
    have hskip : (if pointOf front = pointOf behind then (pointOf behind).lt (pointOf v)
          else (pointOf behind).lte (pointOf v)) = true ↔
        if front.length = behind.length then behind.length < v.length
          else behind.length ≤ v.length := by
      by_cases hsize : front.length = behind.length
      · rw [if_pos (hempty.mpr hsize), if_pos hsize, pointOf_lt_iff hbehind hv]
      · rw [if_neg (mt hempty.mp hsize), if_neg hsize, hlte]
    rw [pointRangeChild, byteRangeChild, ih hreads.2, hstartPoint, hstartByte, hend]
    dsimp only [lengthOf]
    refine if_congr (pointOf_lt_iff hbehind hw) rfl ?_
    by_cases h : if front.length = behind.length then behind.length < v.length
      else behind.length ≤ v.length
    · exact (if_pos (hskip.mpr h)).trans (if_pos h).symm
    · exact (if_neg (mt hskip.mp h)).trans
        ((if_congr (pointOf_lt_iff hv hfront) rfl rfl).trans (if_neg h).symm)

theorem descendantForRangeFrom_point {text v w : List UInt8} (hlen : text.length < 2 ^ 32)
    (hv : v <+: text) (hw : w <+: text) (fuel : Nat) {node : TSNode} (last : TSNode)
    (hreads : node.Reads (fun l w => l = lengthOf w) text) :
    descendantForRangeFrom lang (pointRangeChild (pointOf v) (pointOf w)) true fuel node last =
      descendantForRangeFrom lang (byteRangeChild v.length w.length) true fuel node last := by
  induction fuel generalizing node last with
  | zero => rfl
  | succ fuel ih =>
    have hchildren : ∀ child ∈ node.children lang,
        child.Reads (fun l w => l = lengthOf w) text :=
      fun child hchild => hreads.child measures_lengthOf hlen hchild
    rw [descendantForRangeFrom, descendantForRangeFrom, pointRangeChild_eq hlen hv hw hchildren]
    cases hchild : byteRangeChild v.length w.length (node.children lang) with
    | none => rfl
    | some child => exact ih _ (hchildren child (byteRangeChild_spec hchild).1)

/-! ### The whole search -/

/-- The search finds the smallest node for every range that is not empty, and for an empty one
exactly if nothing that touches it is beside the way. -/
theorem descendantForRange_iff {text : List UInt8} (hlen : text.length < 2 ^ 32) {node : TSNode}
    (hreads : node.Reads (fun l w => l = lengthOf w) text) (hstart : node.startByte ≤ rangeStart)
    (hle : rangeStart ≤ rangeEnd) (hend : rangeEnd ≤ node.endByte) :
    FindsSmallest lang text rangeStart rangeEnd node ↔
      rangeStart < rangeEnd ∨ NothingBeside lang rangeStart rangeEnd node := by
  obtain ⟨behind, hbehind, hpre⟩ := hreads.endPosition measures_lengthOf hlen
  have hendByte : node.endByte = behind.length := congrArg Length.bytes hbehind
  have hlength : rangeEnd ≤ text.length := (hend.trans hendByte.le).trans hpre.length_le
  have htakeStart : (text.take rangeStart).length = rangeStart := length_take_of_le (by omega)
  have htakeEnd : (text.take rangeEnd).length = rangeEnd := length_take_of_le hlength
  have hbyte : descendantForByteRange lang node rangeStart rangeEnd true =
      some (descendantForRangeFrom lang (byteRangeChild rangeStart rangeEnd) true
        node.subtree.height node node) := if_neg (by omega)
  have hpoint : descendantForPointRange lang node (pointOf (text.take rangeStart))
      (pointOf (text.take rangeEnd)) true =
      some (descendantForRangeFrom lang (byteRangeChild rangeStart rangeEnd) true
        node.subtree.height node node) := by
    rw [descendantForPointRange, if_neg, descendantForRangeFrom_point hlen
      (List.take_prefix _ _) (List.take_prefix _ _) _ _ hreads, htakeStart, htakeEnd]
    rw [pointOf_lt_iff (List.take_prefix _ _) (List.take_prefix _ _), htakeStart, htakeEnd]
    omega
  obtain ⟨result, hresult⟩ : ∃ result, descendantForRangeFrom lang
    (byteRangeChild rangeStart rangeEnd) true node.subtree.height node node = result := ⟨_, rfl⟩
  have hspec := descendantForRangeFrom_spec le_rfl hresult
  rw [hresult] at hbyte hpoint
  -- The last visible node on the way, or the node itself.
  have hplace : (result = node ∨ node.Way lang rangeStart rangeEnd result ∧
      result.isRelevant lang true = true) ∧ ∀ next : TSNode,
        result.Way lang rangeStart rangeEnd next → next.isRelevant lang true = false := by
    rcases hspec with ⟨rfl, hhidden⟩ | ⟨hway, hvisible, hhidden⟩
    · exact ⟨Or.inl rfl, hhidden⟩
    · exact ⟨Or.inr ⟨hway, hvisible⟩, hhidden⟩
  constructor
  · intro hfinds
    right
    obtain ⟨found, hfound, hsmallest, _⟩ := hfinds
    rw [hbyte] at hfound
    cases hfound
    intro last hlast hhidden child hchild _ beside hwithin hvisible
    have hbelow : last.Below lang beside := hwithin.below hchild
    refine hsmallest.smallest beside ?_ hvisible
    rcases hplace.1 with rfl | ⟨hway, hresultVisible⟩
    · rcases hlast with rfl | hlast
      · exact hbelow
      · exact hlast.toBelow.trans hbelow
    · rcases hlast with rfl | hlast
      · rw [hhidden result hway] at hresultVisible
        cases hresultVisible
      · rcases hway.linear hlast with rfl | hdown | hup
        · exact hbelow
        · exact hdown.toBelow.trans hbelow
        · rw [hhidden result hup] at hresultVisible
          cases hresultVisible
  · intro hcondition
    have hnothing : NothingBeside lang rangeStart rangeEnd node := by
      rcases hcondition with hlt | hnothing
      · exact nothingBeside_of_lt measures_lengthOf hlen hreads hlt
      · exact hnothing
    refine ⟨result, hbyte, ⟨?_, ?_, fun descendant hbelow hvisible => ?_⟩, hpoint⟩
    · exact hplace.1.imp id fun h => ⟨h.1.toBelow, h.2⟩
    · rcases hplace.1 with rfl | ⟨hway, _⟩
      · exact ⟨hstart, hend⟩
      · exact hway.spans
    · exact not_touches_of_nothingBeside hnothing (hplace.1.imp id And.left) hplace.2 hbelow hvisible

/-- A hidden empty node between two visible ones. -/
def emptyBetween : SyntaxTree :=
  rowNode 1 [rowTree 1 1 [], rowTree 3 0 [], rowTree 1 1 []]

theorem emptyBetween_isRow : IsRow emptyBetween :=
  isRow_node (by simp)

theorem descendantForRange_iff_emptyBetween :
    FindsSmallest rowLanguage (rowText 2) 1 2 emptyBetween.rootNode :=
  (descendantForRange_iff (by decide) emptyBetween_isRow.spells.rootNode (by decide) (by decide)
    (by decide)).mpr (Or.inl (by decide))

/-- The empty node is entered, and the visible one behind it is not found. -/
theorem not_findsSmallest_emptyBetween : ∃ (root : SyntaxTree) (text : List UInt8) (place : Nat),
    root.WellFormed rowLanguage ∧ root.rootNode.Reads (fun l w => l = lengthOf w) text ∧
    root.rootNode.startByte ≤ place ∧ place ≤ root.rootNode.endByte ∧
    ¬ FindsSmallest rowLanguage text place place root.rootNode := by
  refine ⟨emptyBetween, rowText 2, 1, emptyBetween_isRow.wellFormed,
    emptyBetween_isRow.spells.rootNode, by decide, by decide, fun h => ?_⟩
  obtain ⟨result, hresult, hsmallest, _⟩ := h
  have hroot : descendantForByteRange rowLanguage emptyBetween.rootNode 1 1 true =
      some emptyBetween.rootNode := rfl
  rw [hroot] at hresult
  cases hresult
  exact hsmallest.smallest ⟨[2], rowTree 1 1 [], ⟨1, 0, 1⟩, 0⟩ (.child (.tail _ (.tail _ (.head _))))
    rfl ⟨by decide, by decide, Or.inl (by decide)⟩

end TreeSitter.Lib
