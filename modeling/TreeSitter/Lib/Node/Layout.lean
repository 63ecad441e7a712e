import TreeSitter.Lib.Node

/-!
# TreeSitter.Lib.Node.Layout

**Nodes laid over a text.** A subtree **spells** a text if its size is the length of it and, if
it has children, the texts of the children and their paddings make it up
(`ts_subtree_summarize_children` adds the sizes up so). The nodes below a node that reads a part
of a text then read parts of that part, in order: children lie one behind the other.

As for edits, a text is read in bytes alone or with rows and columns (`Measures`); bytes are right
in both.

`Below` is the relation to the nodes further down. What lies below two children of a node is told
apart by its path.
-/

namespace TreeSitter.Lib

open List

variable {β : Type} (R : Length → List β → Prop) (lang : TreeLanguage)

mutual

/-- The subtree has such a text, behind such a padding. -/
def SyntaxTree.Spells : SyntaxTree → List β → List β → Prop
  | .mk data children, padding, content =>
    R data.padding padding ∧ R data.size content ∧ (children ≠ [] → SpellsFrom 0 children content)

/-- The children from an index on have such a text. The padding of the first child is that of its
parent. -/
def SpellsFrom : Nat → List SyntaxTree → List β → Prop
  | _, [], text => text = []
  | childIndex, child :: children, text =>
    ∃ padding content rest, child.Spells padding content ∧
      SpellsFrom (childIndex + 1) children rest ∧
      text = (if childIndex > 0 then padding else []) ++ content ++ rest

end

/-- The node lies over a part of a text. -/
def TSNode.Reads (text : List β) (node : TSNode) : Prop :=
  ∃ before padding content, R node.position before ∧ node.subtree.Spells R padding content ∧
    before ++ content <+: text

/-- The second node is further down than the first one. -/
inductive TSNode.Below : TSNode → TSNode → Prop where
  | child {node child : TSNode} (h : child ∈ node.children lang) : Below node child
  | step {node child descendant : TSNode} (h : child ∈ node.children lang)
      (hbelow : Below child descendant) : Below node descendant

variable {R lang}

/-! ### Texts -/

theorem SyntaxTree.Spells.padding {tree : SyntaxTree} {padding content : List β}
    (h : tree.Spells R padding content) : R tree.padding padding := by
  cases tree with
  | mk data children =>
    rw [Spells] at h
    exact h.1

variable {tree : SyntaxTree}

theorem SyntaxTree.Spells.size {padding content : List β} (h : tree.Spells R padding content) :
    R tree.size content := by
  cases tree with
  | mk data children =>
    rw [Spells] at h
    exact h.2.1

theorem SyntaxTree.Spells.children {padding content : List β} (h : tree.Spells R padding content)
    (hne : tree.children ≠ []) :
    SpellsFrom R 0 tree.children content := by
  cases tree with
  | mk data children =>
    rw [Spells] at h
    exact h.2.2 hne

theorem SyntaxTree.Spells.rootNode {root : SyntaxTree} {padding content : List β}
    (h : root.Spells R padding content) : root.rootNode.Reads R (padding ++ content) :=
  ⟨padding, padding, content, h.padding, h, prefix_rfl⟩

namespace TSNode.Reads

variable {text : List β} {node : TSNode}

theorem endPosition (h : node.Reads R text) (hR : Measures R) (hlen : text.length < 2 ^ 32) :
    ∃ front, R node.endPosition front ∧ front <+: text := by
  obtain ⟨before, padding, content, hbefore, hspells, hpre⟩ := h
  exact ⟨before ++ content, hR.add hbefore hspells.size (hpre.length_le.trans_lt hlen), hpre⟩

theorem position (h : node.Reads R text) : ∃ front, R node.position front ∧ front <+: text := by
  obtain ⟨before, padding, content, hbefore, hspells, hpre⟩ := h
  exact ⟨before, hbefore, (prefix_append before content).trans hpre⟩

theorem endByte (h : node.Reads R text) (hR : Measures R) (hlen : text.length < 2 ^ 32) :
    node.endByte = node.startByte + node.subtree.size.bytes := by
  obtain ⟨before, padding, content, hbefore, hspells, hpre⟩ := h
  have hle := hpre.length_le
  rw [length_append] at hle
  rw [TSNode.endByte, startByte, addU32_of_lt]
  rw [hR.bytes hbefore, hR.bytes hspells.size]
  omega

theorem startByte_le (h : node.Reads R text) (hR : Measures R) (hlen : text.length < 2 ^ 32) :
    node.startByte ≤ node.endByte := by
  rw [h.endByte hR hlen]
  omega

end TSNode.Reads

/-! ### Points of a text -/

theorem Point.lt_irrefl (a : Point) : a.lt a = false := by
  simp [Point.lt]

theorem Point.lt_trans {a b c : Point} (hab : a.lt b = true) (hbc : b.lt c = true) :
    a.lt c = true := by
  simp only [Point.lt, Bool.or_eq_true, Bool.and_eq_true, decide_eq_true_eq] at hab hbc ⊢
  omega

theorem Point.lte_iff {a b : Point} : a.lte b = true ↔ b.lt a = false := by
  simp only [Point.lt, Point.lte, Bool.or_eq_true, Bool.and_eq_true, decide_eq_true_eq,
    Bool.or_eq_false_iff, Bool.and_eq_false_iff, decide_eq_false_iff_not]
  omega

theorem pointOf_lt_append (v : List UInt8) {w : List UInt8} (h : w ≠ []) :
    (pointOf v).lt (pointOf (v ++ w)) = true := by
  rw [pointOf_append]
  split
  · simp only [Point.lt, Bool.or_eq_true, decide_eq_true_eq]
    omega
  · rename_i hrow
    have hcolumn := column_of_row_eq_zero (w := w) (by omega)
    have hpos := length_pos_iff.mpr h
    simp only [Point.lt, Bool.or_eq_true, Bool.and_eq_true, decide_eq_true_eq]
    exact Or.inr ⟨trivial, by omega⟩

theorem pointOf_lt_iff {text v w : List UInt8} (hv : v <+: text) (hw : w <+: text) :
    (pointOf v).lt (pointOf w) = true ↔ v.length < w.length := by
  rcases Nat.lt_or_ge v.length w.length with hlt | hge
  · obtain ⟨rest, rfl⟩ := prefix_of_prefix_length_le hv hw hlt.le
    have hne : rest ≠ [] := by
      rintro rfl
      simp at hlt
    exact iff_of_true (pointOf_lt_append v hne) hlt
  · refine iff_of_false ?_ (by omega)
    obtain ⟨rest, rfl⟩ := prefix_of_prefix_length_le hw hv hge
    intro hlt
    by_cases hnil : rest = []
    · rw [hnil, append_nil, Point.lt_irrefl] at hlt
      cases hlt
    · have hback := Point.lt_trans hlt (pointOf_lt_append w hnil)
      rw [Point.lt_irrefl] at hback
      cases hback

/-! ### Children -/

/-- What the iterator yields from a child on lies behind the one before it, and in order. -/
theorem childNodes_reads (hR : Measures R) {text : List β} (hlen : text.length < 2 ^ 32)
    (productionId : Nat) (parentId : List Nat) {children : List SyntaxTree} {position : Length}
    {childIndex structuralIndex : Nat} {before rest : List β} (hbefore : R position before)
    (hspells : SpellsFrom R childIndex children rest) (hpre : before ++ rest <+: text) :
    (∀ node ∈ childNodes lang productionId parentId children position childIndex structuralIndex,
      node.Reads R text ∧ before.length ≤ node.startByte ∧ node.endByte ≤ (before ++ rest).length) ∧
    (childNodes lang productionId parentId children position childIndex structuralIndex).Pairwise
      fun a b => a.endByte ≤ b.startByte := by
  induction children generalizing position childIndex structuralIndex before rest with
  | nil => simp [childNodes]
  | cons child children ih =>
    rw [SpellsFrom] at hspells
    obtain ⟨padding, content, rest, hchild, hrest, rfl⟩ := hspells
    obtain ⟨start, hstart, hRstart⟩ : ∃ start,
        before ++ (if childIndex > 0 then padding else []) = start ∧
        R (if childIndex > 0 then position.add child.padding else position) start := by
      refine ⟨_, rfl, ?_⟩
      by_cases hindex : childIndex > 0
      · rw [if_pos hindex, if_pos hindex]
        refine hR.add hbefore hchild.padding (lt_of_le_of_lt ?_ hlen)
        have hle := hpre.length_le
        rw [if_pos hindex] at hle
        simp only [length_append] at hle ⊢
        omega
      · rw [if_neg hindex, if_neg hindex, append_nil]
        exact hbefore
    have hwhole : before ++ ((if childIndex > 0 then padding else []) ++ content ++ rest) =
        start ++ content ++ rest := by
      rw [← hstart]
      simp only [append_assoc]
    rw [hwhole] at hpre
    have hfront : start ++ content <+: text :=
      (prefix_append (start ++ content) rest).trans hpre
    have hRend := hR.add hRstart hchild.size (hfront.length_le.trans_lt hlen)
    obtain ⟨hnodes, hpairwise⟩ := @ih _ (childIndex + 1)
      (nextStructuralIndex structuralIndex child) _ _ hRend hrest hpre
    have hlength : before.length ≤ start.length := by
      rw [← hstart, length_append]
      omega
    rw [childNodes, hwhole, forall_mem_cons, pairwise_cons]
    have hreads : TSNode.Reads R text ⟨childIndex :: parentId, child,
        if childIndex > 0 then position.add child.padding else position,
        aliasOf lang productionId structuralIndex child⟩ :=
      ⟨start, padding, content, hRstart, hchild, hfront⟩
    have hend := hreads.endByte hR hlen
    rw [TSNode.startByte, hR.bytes hRstart, hR.bytes hchild.size] at hend
    refine ⟨⟨⟨hreads, ?_, ?_⟩, fun node hnode => ?_⟩, fun node hnode => ?_, hpairwise⟩
    · rw [TSNode.startByte, hR.bytes hRstart]
      exact hlength
    · rw [hend, length_append, length_append]
      omega
    · obtain ⟨hnodeReads, hnodeStart, hnodeEnd⟩ := hnodes node hnode
      refine ⟨hnodeReads, ?_, hnodeEnd⟩
      rw [length_append] at hnodeStart
      omega
    · rw [hend, ← length_append]
      exact (hnodes node hnode).2.1

variable {node : TSNode}

theorem TSNode.Reads.children {text : List β} (h : node.Reads R text) (hR : Measures R)
    (hlen : text.length < 2 ^ 32) :
    (∀ child ∈ node.children lang, child.Reads R text ∧ node.startByte ≤ child.startByte ∧
      child.endByte ≤ node.endByte) ∧
    (node.children lang).Pairwise fun a b => a.endByte ≤ b.startByte := by
  have hend := h.endByte hR hlen
  obtain ⟨before, padding, content, hbefore, hspells, hpre⟩ := h
  rw [TSNode.children]
  by_cases hnil : node.subtree.children = []
  · simp [hnil, childNodes]
  · rw [startByte, hR.bytes hbefore, hR.bytes hspells.size, ← length_append] at hend
    rw [hend, startByte, hR.bytes hbefore]
    exact childNodes_reads hR hlen _ _ hbefore (hspells.children hnil) hpre

section Children

variable {text : List β} {node kid : TSNode}

theorem TSNode.Reads.child (h : node.Reads R text) (hR : Measures R)
    (hlen : text.length < 2 ^ 32) (hkid : kid ∈ node.children lang) : kid.Reads R text :=
  ((h.children hR hlen).1 kid hkid).1

theorem TSNode.Reads.startByte_child (h : node.Reads R text) (hR : Measures R)
    (hlen : text.length < 2 ^ 32) (hkid : kid ∈ node.children lang) :
    node.startByte ≤ kid.startByte :=
  ((h.children hR hlen).1 kid hkid).2.1

theorem TSNode.Reads.endByte_child (h : node.Reads R text) (hR : Measures R)
    (hlen : text.length < 2 ^ 32) (hkid : kid ∈ node.children lang) :
    kid.endByte ≤ node.endByte :=
  ((h.children hR hlen).1 kid hkid).2.2

end Children

theorem childNodes_subtree (productionId : Nat) (parentId : List Nat) (children : List SyntaxTree)
    (position : Length) (childIndex structuralIndex : Nat) :
    (childNodes lang productionId parentId children position childIndex structuralIndex).map
      TSNode.subtree = children := by
  induction children generalizing position childIndex structuralIndex with
  | nil => rfl
  | cons child children ih => rw [childNodes, map_cons, ih]

theorem childNodes_id (productionId : Nat) (parentId : List Nat) (children : List SyntaxTree)
    (position : Length) (childIndex structuralIndex : Nat) :
    (childNodes lang productionId parentId children position childIndex structuralIndex).map
      TSNode.id = (List.range' childIndex children.length).map (· :: parentId) := by
  induction children generalizing position childIndex structuralIndex with
  | nil => rfl
  | cons child children ih =>
    rw [childNodes, map_cons, ih, length_cons, range'_succ, map_cons]

variable {child : TSNode}

theorem TSNode.subtree_mem (h : child ∈ node.children lang) :
    child.subtree ∈ node.subtree.children := by
  rw [← @childNodes_subtree lang node.subtree.productionId node.id node.subtree.children
    node.position 0 0]
  exact mem_map_of_mem h

theorem TSNode.id_child (h : child ∈ node.children lang) :
    ∃ i, child.id = i :: node.id := by
  have hmem : child.id ∈ (node.children lang).map TSNode.id := mem_map_of_mem h
  rw [TSNode.children, childNodes_id, mem_map] at hmem
  obtain ⟨i, -, hi⟩ := hmem
  exact ⟨i, hi.symm⟩

theorem TSNode.nodup_children (node : TSNode) :
    ((node.children lang).map TSNode.id).Nodup := by
  rw [TSNode.children, childNodes_id]
  refine (nodup_range' 1).map fun i j hij => ?_
  exact (List.cons.inj hij).1

/-! ### Heights -/

theorem SyntaxTree.height_lt {child : SyntaxTree} (h : child ∈ tree.children) :
    child.height < tree.height := by
  have hmem : ∀ children : List SyntaxTree, child ∈ children → child.height ≤ heights children := by
    intro children hchildren
    induction children with
    | nil => cases hchildren
    | cons first children ih =>
      rw [heights]
      rcases mem_cons.mp hchildren with rfl | hchildren
      · exact le_max_left _ _
      · exact (ih hchildren).trans (le_max_right _ _)
  cases tree with
  | mk data children =>
    have hle := hmem children h
    rw [SyntaxTree.height]
    omega

theorem SyntaxTree.height_pos (tree : SyntaxTree) : 0 < tree.height := by
  cases tree with
  | mk data children =>
    rw [SyntaxTree.height]
    omega

theorem TSNode.height_lt (h : child ∈ node.children lang) :
    child.subtree.height < node.subtree.height :=
  SyntaxTree.height_lt (subtree_mem h)

/-! ### Below a node -/

namespace TSNode.Below

variable {text : List β} {node descendant : TSNode}

section

variable (h : node.Below lang descendant)

include h

theorem reads (hreads : node.Reads R text) (hR : Measures R)
    (hlen : text.length < 2 ^ 32) : descendant.Reads R text := by
  induction h with
  | child hchild => exact hreads.child hR hlen hchild
  | step hchild _ ih => exact ih (hreads.child hR hlen hchild)

theorem startByte_le (hreads : node.Reads R text)
    (hR : Measures R) (hlen : text.length < 2 ^ 32) : node.startByte ≤ descendant.startByte := by
  induction h with
  | child hchild => exact hreads.startByte_child hR hlen hchild
  | step hchild _ ih =>
    exact (hreads.startByte_child hR hlen hchild).trans (ih (hreads.child hR hlen hchild))

theorem endByte_le (hreads : node.Reads R text)
    (hR : Measures R) (hlen : text.length < 2 ^ 32) : descendant.endByte ≤ node.endByte := by
  induction h with
  | child hchild => exact hreads.endByte_child hR hlen hchild
  | step hchild _ ih =>
    exact (ih (hreads.child hR hlen hchild)).trans (hreads.endByte_child hR hlen hchild)

theorem wellFormed (hwf : node.subtree.WellFormed lang) : descendant.subtree.WellFormed lang := by
  induction h with
  | child hchild => exact hwf.child (subtree_mem hchild)
  | step hchild _ ih => exact ih (hwf.child (subtree_mem hchild))

theorem id_suffix : ∃ i, i :: node.id <:+ descendant.id := by
  induction h with
  | child hchild =>
    obtain ⟨i, hi⟩ := id_child hchild
    exact ⟨i, by rw [hi]⟩
  | step hchild _ ih =>
    obtain ⟨i, hi⟩ := id_child hchild
    obtain ⟨j, hj⟩ := ih
    refine ⟨i, List.IsSuffix.trans ?_ hj⟩
    rw [← hi]
    exact suffix_cons j _

theorem id_ne : descendant.id ≠ node.id := by
  obtain ⟨i, hi⟩ := h.id_suffix
  intro heq
  have hle := hi.length_le
  rw [heq, length_cons] at hle
  omega

theorem height_lt : descendant.subtree.height < node.subtree.height := by
  induction h with
  | child hchild => exact TSNode.height_lt hchild
  | step hchild _ ih => exact ih.trans (TSNode.height_lt hchild)

end

theorem trans {other : TSNode} (h : node.Below lang other) (h' : other.Below lang descendant) :
    node.Below lang descendant := by
  induction h with
  | child hchild => exact step hchild h'
  | step hchild _ ih => exact step hchild (ih h')

end TSNode.Below

/-- The node itself or what is further down. -/
def TSNode.Within (lang : TreeLanguage) (node descendant : TSNode) : Prop :=
  descendant = node ∨ node.Below lang descendant

namespace TSNode.Within

variable {node child descendant : TSNode}

theorem id_suffix (h : node.Within lang descendant) : node.id <:+ descendant.id := by
  rcases h with rfl | h
  · exact suffix_rfl
  · obtain ⟨i, hi⟩ := h.id_suffix
    exact (suffix_cons i _).trans hi

theorem below (h : child.Within lang descendant) (hchild : child ∈ node.children lang) :
    node.Below lang descendant := by
  rcases h with rfl | h
  · exact .child hchild
  · exact .step hchild h

theorem unique {other : TSNode} (h : child.Within lang descendant)
    (h' : other.Within lang descendant) (hchild : child ∈ node.children lang)
    (hother : other ∈ node.children lang) : child = other := by
  have hid : child.id = other.id := by
    obtain ⟨i, hi⟩ := id_child hchild
    obtain ⟨j, hj⟩ := id_child hother
    have hsuffix := h.id_suffix
    have hsuffix' := h'.id_suffix
    have hlength : child.id.length = other.id.length := by rw [hi, hj, length_cons, length_cons]
    rcases suffix_or_suffix_of_suffix hsuffix hsuffix' with hle | hle
    · exact hle.eq_of_length hlength
    · exact (hle.eq_of_length hlength.symm).symm
  exact inj_on_of_nodup_map node.nodup_children hchild hother hid

end TSNode.Within

theorem TSNode.Below.within {descendant : TSNode} (h : node.Below lang descendant) :
    ∃ child ∈ node.children lang, child.Within lang descendant := by
  cases h with
  | child hchild => exact ⟨descendant, hchild, Or.inl rfl⟩
  | step hchild hbelow => exact ⟨_, hchild, Or.inr hbelow⟩

end TreeSitter.Lib
