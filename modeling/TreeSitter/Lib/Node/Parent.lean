import TreeSitter.Lib.Node.Shown

/-!
# TreeSitter.Lib.Node.Parent

**The parent of a node** (`ts_node_parent`) **is its nearest visible ancestor.** A node does not
know its parent, so the function goes down from the root, each time to the topmost visible node
on the way to the one it was asked about (`childWithDescendant_eq`), and stops before that one.

The way down is found by bytes. A child that ends where the node starts does not contain it, and
is passed over (`childWithDescendant_eq_none`), also if the node is empty, when such a child is
searched; the first child that is not passed over is the one that has the node within.
-/

namespace TreeSitter.Lib

open List

variable {β : Type} {R : Length → List β → Prop} {lang : TreeLanguage}

/-- The node is the nearest visible one above another. The root counts as visible. -/
structure NearestVisibleAbove (lang : TreeLanguage) (root : SyntaxTree) (node descendant : TSNode) :
    Prop where
  above : node.Below lang descendant
  visible : node = root.rootNode ∨
    root.rootNode.Below lang node ∧ node.isRelevant lang true = true
  nearest : ∀ other : TSNode, node.Below lang other → other.Below lang descendant →
    other.isRelevant lang true = false

variable {node : TSNode}

theorem TSNode.isRelevant_between {other shown : TSNode} (h : shown ∈ node.shown lang)
    (hother : node.Below lang other) (hbelow : other.Below lang shown) :
    other.isRelevant lang true = false := by
  induction h using TSNode.shown_induction with
  | child node _ hchild _ =>
    obtain ⟨kid, hkid, hwithin⟩ := hother.within
    have heq : kid = shown := by
      refine TSNode.Within.unique ?_ (Or.inl rfl) hkid hchild
      rcases hwithin with rfl | hwithin
      · exact Or.inr hbelow
      · exact Or.inr (hwithin.trans hbelow)
    subst heq
    rcases hwithin with rfl | hwithin
    · exact absurd rfl hbelow.id_ne
    · exact absurd rfl (hwithin.trans hbelow).id_ne
  | step node kid _ hshown hkid hhidden ih =>
    obtain ⟨kid', hkid', hwithin⟩ := hother.within
    have heq : kid' = kid := by
      refine TSNode.Within.unique ?_ (Or.inr (below_of_mem_shown hshown)) hkid' hkid
      rcases hwithin with rfl | hwithin
      · exact Or.inr hbelow
      · exact Or.inr (hwithin.trans hbelow)
    subst heq
    rcases hwithin with rfl | hwithin
    · exact hhidden
    · exact ih hwithin

/-! ### One level -/

variable {descendant : TSNode}

/-- The children in front of the one that has the descendant within are passed over, if the
search finds nothing in them. -/
theorem childWithDescendantFrom_append {recur : TSNode → Option TSNode}
    {front children : List TSNode} (hstart : ∀ child ∈ front, child.startByte ≤ child.endByte)
    (hend : ∀ child ∈ front, child.endByte ≤ descendant.startByte)
    (hdescendant : descendant.startByte ≤ descendant.endByte)
    (hid : ∀ child ∈ front, child.id ≠ descendant.id)
    (hrecur : ∀ child ∈ front, recur child = none) :
    childWithDescendantFrom lang descendant recur (front ++ children) =
      childWithDescendantFrom lang descendant recur children := by
  induction front with
  | nil => rfl
  | cons child front ih =>
    rw [forall_mem_cons] at hstart hend hid hrecur
    rw [cons_append, childWithDescendantFrom, if_neg (by omega), if_neg hid.1, hrecur.1, ite_self]
    dsimp only
    rw [if_pos]
    · exact ih hstart.2 hend.2 hid.2 hrecur.2
    · by_cases hempty : descendant.startByte = descendant.endByte
      · simp only [hempty, decide_true, if_true]
        omega
      · simp only [hempty, decide_false, Bool.false_eq_true, if_false]
        omega

variable {text : List β}

/-- In a node that ends where the descendant starts and does not contain it, nothing is found. -/
theorem childWithDescendant_eq_none (hR : Measures R) (hlen : text.length < 2 ^ 32)
    (hdescendant : descendant.startByte ≤ descendant.endByte) (hreads : node.Reads R text)
    (hid : ¬ node.id <:+ descendant.id) (hend : node.endByte ≤ descendant.startByte) (fuel : Nat) :
    childWithDescendant lang descendant fuel node = none := by
  induction fuel generalizing node with
  | zero => rfl
  | succ fuel ih =>
    have hkid : ∀ child ∈ node.children lang, ¬ child.id <:+ descendant.id := by
      intro child hchild hsuffix
      obtain ⟨i, hi⟩ := TSNode.id_child hchild
      rw [hi] at hsuffix
      exact hid ((suffix_cons i _).trans hsuffix)
    have hkidEnd : ∀ child ∈ node.children lang, child.endByte ≤ descendant.startByte :=
      fun child hchild => (hreads.endByte_child hR hlen hchild).trans hend
    rw [childWithDescendant, ← append_nil (node.children lang),
      childWithDescendantFrom_append (fun child hchild =>
        (hreads.child hR hlen hchild).startByte_le hR hlen) hkidEnd hdescendant]
    · rfl
    · exact fun child hchild heq => hkid child hchild (heq ▸ suffix_rfl)
    · exact fun child hchild => ih (hreads.child hR hlen hchild) (hkid child hchild)
        (hkidEnd child hchild)

theorem childWithDescendantFrom_below {found : TSNode} {recur : TSNode → Option TSNode}
    (hrecur : ∀ child found, recur child = some found → child.Below lang found)
    {children : List TSNode} (hchildren : ∀ child ∈ children, child ∈ node.children lang)
    (h : childWithDescendantFrom lang descendant recur children = some found) :
    node.Below lang found := by
  induction children with
  | nil => cases h
  | cons child children ih =>
    rw [forall_mem_cons] at hchildren
    have hchild : some child = some found → node.Below lang found := by
      intro h
      cases h
      exact .child hchildren.1
    have hstep : recur child = some found → node.Below lang found :=
      fun h => .step hchildren.1 (hrecur child found h)
    rw [childWithDescendantFrom] at h
    by_cases hstart : child.startByte > descendant.startByte
    · rw [if_pos hstart] at h
      cases h
    · rw [if_neg hstart] at h
      by_cases hid : child.id = descendant.id
      · rw [if_pos hid] at h
        exact hchild h
      · rw [if_neg hid] at h
        split at h
        · rename_i inner hinner
          split_ifs at h hinner
          · exact hchild h
          · exact hstep (hinner.trans h)
        · split_ifs at h
          all_goals first | exact ih hchildren.2 h | exact hchild h | exact hstep h

variable {fuel : Nat}

theorem childWithDescendant_below {found : TSNode}
    (h : childWithDescendant lang descendant fuel node = some found) : node.Below lang found := by
  induction fuel generalizing node found with
  | zero => cases h
  | succ fuel ih =>
    exact childWithDescendantFrom_below (fun _ _ => ih) (fun _ h => h) h

theorem childWithDescendant_eq (hR : Measures R) (hlen : text.length < 2 ^ 32)
    (hreads : node.Reads R text) (hwf : node.subtree.WellFormed lang)
    (hbelow : node.Below lang descendant) (hvisible : descendant.isRelevant lang true = true)
    (hfuel : node.subtree.height ≤ fuel) :
    ∃ shown ∈ node.shown lang, childWithDescendant lang descendant fuel node = some shown ∧
      shown.Within lang descendant := by
  induction fuel generalizing node with
  | zero =>
    obtain ⟨child, hchild, _⟩ := hbelow.within
    have hlt := TSNode.height_lt hchild
    omega
  | succ fuel ih =>
    obtain ⟨child, hchild, hwithin⟩ := hbelow.within
    obtain ⟨hinside, hpairwise⟩ := @TSNode.Reads.children _ _ lang _ _ hreads hR hlen
    have hchildReads := hreads.child hR hlen hchild
    have hdescendant := (hbelow.reads hreads hR hlen).startByte_le hR hlen
    have hbounds : child.startByte ≤ descendant.startByte ∧
        descendant.endByte ≤ child.endByte := by
      rcases hwithin with rfl | hwithin
      · exact ⟨le_rfl, le_rfl⟩
      · exact ⟨hwithin.startByte_le hchildReads hR hlen, hwithin.endByte_le hchildReads hR hlen⟩
    obtain ⟨front, rest, hsplit⟩ := append_of_mem hchild
    -- What is in front of the child ends before it, and has other paths.
    have hfront : ∀ other ∈ front, other ∈ node.children lang :=
      fun other hother => hsplit ▸ mem_append_left _ hother
    have hend : ∀ other ∈ front, other.endByte ≤ descendant.startByte := by
      intro other hother
      rw [hsplit, pairwise_append] at hpairwise
      exact (hpairwise.2.2 other hother child mem_cons_self).trans hbounds.1
    have hid : ∀ other ∈ front, ¬ other.id <:+ descendant.id := by
      intro other hother hsuffix
      obtain ⟨i, hi⟩ := TSNode.id_child hchild
      obtain ⟨j, hj⟩ := TSNode.id_child (hfront other hother)
      have heq : other.id = child.id := by
        have hlength : other.id.length = child.id.length := by
          rw [hi, hj, length_cons, length_cons]
        rcases suffix_or_suffix_of_suffix hsuffix hwithin.id_suffix with hle | hle
        · exact hle.eq_of_length hlength
        · exact (hle.eq_of_length hlength.symm).symm
      have hnodup := @TSNode.nodup_children lang node
      rw [hsplit, map_append, map_cons, nodup_append] at hnodup
      exact hnodup.2.2 _ (mem_map_of_mem hother) _ mem_cons_self heq
    rw [childWithDescendant, hsplit, childWithDescendantFrom_append
      (fun other hother => (hreads.child hR hlen (hfront other hother)).startByte_le hR hlen)
      hend hdescendant (fun other hother heq => hid other hother (heq ▸ suffix_rfl))
      (fun other hother => childWithDescendant_eq_none hR hlen hdescendant
        (hreads.child hR hlen (hfront other hother)) (hid other hother) (hend other hother) fuel),
      childWithDescendantFrom, if_neg (by omega)]
    rcases hwithin with rfl | hwithin
    · exact ⟨descendant, TSNode.mem_shown.mpr ⟨descendant, hchild, Or.inl ⟨hvisible, rfl⟩⟩,
        if_pos rfl, Or.inl rfl⟩
    · have hlt := TSNode.height_lt hchild
      obtain ⟨shown, hshown, hrecur, hshownWithin⟩ := ih hchildReads
        (hwf.child (TSNode.subtree_mem hchild)) hwithin (by omega)
      have hpos : child.childCount > 0 := by
        rw [TSNode.childCount_eq (hwf.counted_child (TSNode.subtree_mem hchild))]
        exact length_pos_iff.mpr (hwithin.shown_ne_nil hvisible)
      have hresult : childWithDescendant lang descendant fuel child = some shown →
          ∃ result ∈ node.shown lang,
            some (if child.isRelevant lang true then child else shown) = some result ∧
            result.Within lang descendant := by
        intro _
        by_cases hrelevant : child.isRelevant lang true = true
        · exact ⟨child, TSNode.mem_shown.mpr ⟨child, hchild, Or.inl ⟨hrelevant, rfl⟩⟩,
            by rw [if_pos hrelevant], Or.inr hwithin⟩
        · exact ⟨shown, TSNode.mem_shown.mpr
            ⟨child, hchild, Or.inr ⟨Bool.eq_false_iff.mpr hrelevant, hshown⟩⟩,
            by rw [if_neg hrelevant], hshownWithin⟩
      rw [if_neg hwithin.id_ne.symm]
      by_cases hempty : descendant.startByte = descendant.endByte
      · rw [if_pos (by simp [hempty, hbounds.2, hpos]), hrecur]
        exact hresult hrecur
      · rw [if_neg (by simp [hempty])]
        dsimp only
        rw [if_neg (by simp [hempty]; omega)]
        obtain ⟨result, hmem, heq, hresultWithin⟩ := hresult hrecur
        refine ⟨result, hmem, ?_, hresultWithin⟩
        rw [← heq]
        split
        · rfl
        · exact hrecur

/-! ### The loop -/

variable {self : TSNode}

theorem nodeParentFrom_eq (hR : Measures R) (hlen : text.length < 2 ^ 32)
    (hreads : node.Reads R text) (hwf : node.subtree.WellFormed lang)
    (hbelow : node.Below lang self) (hvisible : self.isRelevant lang true = true)
    (hfuel : node.subtree.height ≤ fuel) :
    self ∈ (nodeParentFrom lang self fuel node).shown lang ∧
      (nodeParentFrom lang self fuel node = node ∨
        node.Below lang (nodeParentFrom lang self fuel node) ∧
          (nodeParentFrom lang self fuel node).isRelevant lang true = true) := by
  induction fuel generalizing node with
  | zero =>
    obtain ⟨child, hchild, _⟩ := hbelow.within
    have hlt := TSNode.height_lt hchild
    omega
  | succ fuel ih =>
    obtain ⟨next, hnext, heq, hwithin⟩ :=
      childWithDescendant_eq hR hlen hreads hwf hbelow hvisible le_rfl
    have hnextBelow := TSNode.below_of_mem_shown hnext
    have hlt : next.subtree.height < node.subtree.height := hnextBelow.height_lt
    rw [nodeParentFrom, heq]
    dsimp only
    rcases hwithin with rfl | hwithin
    · rw [if_pos rfl]
      exact ⟨hnext, Or.inl rfl⟩
    · rw [if_neg hwithin.id_ne.symm]
      obtain ⟨hshown, hplace⟩ := ih (hnextBelow.reads hreads hR hlen)
        (hnextBelow.wellFormed hwf) hwithin (by omega)
      refine ⟨hshown, Or.inr ?_⟩
      rcases hplace with hplace | ⟨hplace, hrelevant⟩
      · rw [hplace]
        exact ⟨hnextBelow, TSNode.isRelevant_of_mem_shown hnext⟩
      · exact ⟨hnextBelow.trans hplace, hrelevant⟩

theorem nodeParentFrom_within :
    node.Within lang (nodeParentFrom lang self fuel node) := by
  induction fuel generalizing node with
  | zero => exact Or.inl rfl
  | succ fuel ih =>
    rw [nodeParentFrom]
    split
    · exact Or.inl rfl
    · rename_i next hnext
      split
      · exact Or.inl rfl
      · have hbelow := childWithDescendant_below hnext
        rcases @ih next with heq | hwithin
        · rw [heq]
          exact Or.inr hbelow
        · exact Or.inr (hbelow.trans hwithin)

theorem nodeParent_within {root : SyntaxTree} {parent : TSNode}
    (h : nodeParent lang root self = some parent) : root.rootNode.Within lang parent := by
  rw [nodeParent] at h
  split at h
  · cases h
  · cases h
    exact nodeParentFrom_within

/-- `ts_node_parent` returns the nearest visible node above a visible node, empty or not. -/
theorem nodeParent_nearest (hR : Measures R) {root : SyntaxTree} {padding content : List β}
    (hspells : root.Spells R padding content) (hlen : (padding ++ content).length < 2 ^ 32)
    (hwf : root.WellFormed lang) {self : TSNode} (hself : root.rootNode.Below lang self)
    (hvisible : self.isRelevant lang true = true) :
    ∃ parent, nodeParent lang root self = some parent ∧
      NearestVisibleAbove lang root parent self := by
  obtain ⟨hshown, hplace⟩ :=
    nodeParentFrom_eq hR hlen hspells.rootNode hwf hself hvisible le_rfl
  refine ⟨_, if_neg hself.id_ne.symm, TSNode.below_of_mem_shown hshown, hplace,
    fun other => TSNode.isRelevant_between hshown⟩

/-- A hidden node that ends with an empty node, in front of a node with another one. -/
def emptyNodes : SyntaxTree :=
  rowNode 1 [rowNode 3 [rowTree 1 1 [], rowTree 1 0 []],
    rowNode 1 [rowNode 3 [rowTree 1 0 []], rowTree 1 1 []]]

theorem emptyNodes_isRow : IsRow emptyNodes :=
  isRow_node (by simp [isRow_node])

/-- For the second empty node: the first one, at the same place, is passed over. -/
theorem nodeParent_nearest_empty : ∃ self parent, self.id = [0, 0, 1] ∧ self.endByte = 1 ∧
    nodeParent rowLanguage emptyNodes self = some parent ∧ parent.id = [1] ∧
    NearestVisibleAbove rowLanguage emptyNodes parent self := by
  have hnode : emptyNodes.rootNode.Below rowLanguage
      ⟨[0, 0, 1], rowTree 1 0 [], ⟨1, 0, 1⟩, 0⟩ :=
    .step (.tail _ (.head _)) (.step (.head _) (.child (.head _)))
  obtain ⟨parent, hparent, hnearest⟩ := nodeParent_nearest measures_lengthOf
    emptyNodes_isRow.spells (by decide) emptyNodes_isRow.wellFormed hnode rfl
  refine ⟨_, parent, rfl, rfl, hparent, ?_, hnearest⟩
  have hid : (nodeParent rowLanguage emptyNodes ⟨[0, 0, 1], rowTree 1 0 [], ⟨1, 0, 1⟩, 0⟩).map
      TSNode.id = some [1] := by decide
  rw [hparent] at hid
  exact Option.some.inj hid

end TreeSitter.Lib
