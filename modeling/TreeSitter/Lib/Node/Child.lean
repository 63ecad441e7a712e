import TreeSitter.Lib.Node.Parent

/-!
# TreeSitter.Lib.Node.Child

**Children by index** (`ts_node__child`). The function goes over the children and counts the
relevant ones; a child that is not relevant stands for as many as it has stored, and if the index
is among these, the search goes on in it.

With anonymous nodes this enumerates the visible children. Among the named ones a visible
anonymous child stands for its own named children too, although these are not children of the node
and its count does not have them: it is an **intruder**. The enumeration is right exactly if no
child of the node is an intruder, and in the hidden nodes below none stands in front of a named
child (`nodeChild_iff`).
-/

namespace TreeSitter.Lib

open List

variable (lang : TreeLanguage) (includeAnonymous : Bool)

/-- What the inner loop of `ts_node__child` ends with. -/
inductive ChildScan where
  | found (child : TSNode)
  | descend (child : TSNode) (childIndex : Nat)
  | exhausted

/-- The inner loop of `ts_node__child`, from a child on. -/
def nodeChildScan (childIndex : Nat) : List TSNode → Nat → ChildScan
  | [], _ => .exhausted
  | child :: children, index =>
    if child.isRelevant lang includeAnonymous then
      if index = childIndex then .found child
      else nodeChildScan childIndex children (index + 1)
    else
      let grandchildIndex := childIndex - index
      let grandchildCount := child.relevantChildCount includeAnonymous
      if grandchildIndex < grandchildCount then .descend child grandchildIndex
      else nodeChildScan childIndex children (index + grandchildCount)

/-- The loop of `ts_node__child`, down to some level. -/
def nodeChildLoop : Nat → TSNode → Nat → Option TSNode
  | 0, _, _ => none
  | fuel + 1, node, childIndex =>
    match nodeChildScan lang includeAnonymous childIndex (node.children lang) 0 with
    | .found child => some child
    | .descend child childIndex => nodeChildLoop fuel child childIndex
    | .exhausted => none

/-- `ts_node__child`. -/
def nodeChild (node : TSNode) (childIndex : Nat) : Option TSNode :=
  nodeChildLoop lang includeAnonymous node.subtree.height node childIndex

/-- The visible children of the node that are relevant. -/
def TSNode.relevantShown (node : TSNode) : List TSNode :=
  (node.shown lang).filter (TSNode.isRelevant lang includeAnonymous)

/-- Children by index are the visible children, and the named ones among them, and the counts say
how many there are. -/
structure ChildIndexing (node : TSNode) : Prop where
  child : ∀ i, nodeChild lang true node i = (node.shown lang)[i]?
  childCount : node.childCount = (node.shown lang).length
  namedChild : ∀ i, nodeChild lang false node i = (node.relevantShown lang false)[i]?
  namedChildCount : node.namedChildCount = (node.relevantShown lang false).length

/-- A visible node that is not named and has named children. -/
def TSNode.IsIntruder (node : TSNode) : Prop :=
  node.isRelevant lang true = true ∧ node.isRelevant lang false = false ∧ node.namedChildCount > 0

/-- No intruder among the children stands in front of a named visible child. -/
def IntrudersLast (node : TSNode) : Prop :=
  ∀ front intruder back, node.children lang = front ++ intruder :: back →
    intruder.IsIntruder lang → ∀ shown ∈ back.flatMap (TSNode.shownSelf lang),
      shown.isRelevant lang false = false

/-- There are no intruders among the children, and in the hidden nodes below they come last. -/
structure NoIntruders (node : TSNode) : Prop where
  children : ∀ child ∈ node.children lang, ¬ child.IsIntruder lang
  hidden : ∀ hidden : TSNode, node.HiddenBelow lang hidden → IntrudersLast lang hidden

/-! ### The enumeration -/

/-- What the function enumerates, down to some level. -/
def enumerated : Nat → TSNode → List TSNode
  | 0, _ => []
  | fuel + 1, node => (node.children lang).flatMap fun child =>
    if child.isRelevant lang includeAnonymous then [child]
    else (enumerated fuel child).take (child.relevantChildCount includeAnonymous)

def enumeratedSelf (fuel : Nat) (child : TSNode) : List TSNode :=
  if child.isRelevant lang includeAnonymous then [child]
  else (enumerated lang includeAnonymous fuel child).take
    (child.relevantChildCount includeAnonymous)

/-- What a child contributes to the relevant visible children. -/
def TSNode.relevantSelf (child : TSNode) : List TSNode :=
  (child.shownSelf lang).filter (TSNode.isRelevant lang includeAnonymous)

variable {lang includeAnonymous}

theorem enumerated_succ (fuel : Nat) (node : TSNode) :
    enumerated lang includeAnonymous (fuel + 1) node =
      (node.children lang).flatMap (enumeratedSelf lang includeAnonymous fuel) := rfl

theorem TSNode.relevantShown_eq (node : TSNode) : node.relevantShown lang includeAnonymous =
    (node.children lang).flatMap (TSNode.relevantSelf lang includeAnonymous) := by
  rw [relevantShown, shown_eq_shownSelf, filter_flatMap]
  rfl

variable {node : TSNode}

theorem TSNode.length_relevantShown (h : node.subtree.Counted lang) :
    (node.relevantShown lang includeAnonymous).length =
      node.relevantChildCount includeAnonymous := by
  rw [relevantChildCount_eq h, relevantShown, countP_eq_length_filter]

variable {child : TSNode}

theorem TSNode.relevantSelf_of_isRelevant (h : child.isRelevant lang includeAnonymous = true) :
    child.relevantSelf lang includeAnonymous = [child] := by
  rw [relevantSelf, shownSelf, if_pos (isRelevant_mono h)]
  simp [h]

theorem TSNode.relevantSelf_of_hidden (h : child.isRelevant lang true = false) :
    child.relevantSelf lang includeAnonymous = child.relevantShown lang includeAnonymous := by
  rw [relevantSelf, shownSelf, if_neg (Bool.eq_false_iff.mp h)]
  rfl

theorem TSNode.relevantSelf_of_visible (h : child.isRelevant lang true = true)
    (hnot : child.isRelevant lang includeAnonymous = false) :
    child.relevantSelf lang includeAnonymous = [] := by
  rw [relevantSelf, shownSelf, if_pos h]
  simp [hnot]

variable {fuel : Nat}

theorem relevantChildCount_le (hwf : node.subtree.WellFormed lang)
    (hcounted : node.subtree.Counted lang) (hfuel : node.subtree.height ≤ fuel) :
    node.relevantChildCount includeAnonymous ≤
      (enumerated lang includeAnonymous fuel node).length := by
  induction fuel generalizing node with
  | zero =>
    have hpos := node.subtree.height_pos
    omega
  | succ fuel ih =>
    rw [← TSNode.length_relevantShown hcounted, TSNode.relevantShown_eq, enumerated_succ,
      length_flatMap, length_flatMap]
    refine sum_le_sum fun child hchild => ?_
    have hlt := TSNode.height_lt hchild
    have hchildCounted := hwf.counted_child (TSNode.subtree_mem hchild)
    rw [enumeratedSelf]
    by_cases hrelevant : child.isRelevant lang includeAnonymous = true
    · rw [if_pos hrelevant, TSNode.relevantSelf_of_isRelevant hrelevant]
    · rw [if_neg hrelevant, length_take_of_le (ih (hwf.child (TSNode.subtree_mem hchild))
        hchildCounted (by omega))]
      by_cases hvisible : child.isRelevant lang true = true
      · rw [TSNode.relevantSelf_of_visible hvisible (Bool.eq_false_iff.mpr hrelevant)]
        exact Nat.zero_le _
      · rw [TSNode.relevantSelf_of_hidden (Bool.eq_false_iff.mpr hvisible),
          TSNode.length_relevantShown hchildCounted]

/-- The inner loop looks up the index among what the children contribute. -/
theorem getElem?_flatMap_enumeratedSelf {childIndex : Nat} {children : List TSNode} (hcount : ∀
      child ∈ children, child.relevantChildCount includeAnonymous ≤ (enumerated lang
      includeAnonymous fuel child).length) {index : Nat} (hindex : index ≤ childIndex) :
    (children.flatMap (enumeratedSelf lang includeAnonymous fuel))[childIndex - index]? =
      match nodeChildScan lang includeAnonymous childIndex children index with
      | .found child => some child
      | .descend child i => (enumerated lang includeAnonymous fuel child)[i]?
      | .exhausted => none := by
  induction children generalizing index with
  | nil => simp [nodeChildScan]
  | cons child children ih =>
    rw [forall_mem_cons] at hcount
    rw [flatMap_cons, nodeChildScan, enumeratedSelf]
    by_cases hrelevant : child.isRelevant lang includeAnonymous = true
    · rw [if_pos hrelevant, if_pos hrelevant]
      by_cases heq : index = childIndex
      · rw [if_pos heq, heq, Nat.sub_self]
        rfl
      · rw [if_neg heq, ← ih hcount.2 (by omega), singleton_append]
        have hsub : childIndex - index = childIndex - (index + 1) + 1 := by omega
        rw [hsub, getElem?_cons_succ]
    · rw [if_neg hrelevant, if_neg hrelevant]
      dsimp only
      by_cases hlt : childIndex - index < child.relevantChildCount includeAnonymous
      · rw [if_pos hlt, getElem?_append_left (by
          rw [length_take_of_le hcount.1]; exact hlt), getElem?_take_of_lt hlt]
      · rw [if_neg hlt, ← ih hcount.2 (by omega), getElem?_append_right (by
          rw [length_take_of_le hcount.1]; omega), length_take_of_le hcount.1, Nat.sub_sub]

theorem mem_of_nodeChildScan {childIndex index i : Nat} {children : List TSNode}
    (h : nodeChildScan lang includeAnonymous childIndex children index = .descend child i) :
    child ∈ children := by
  induction children generalizing index with
  | nil => cases h
  | cons first children ih =>
    rw [nodeChildScan] at h
    dsimp only at h
    split_ifs at h
    · exact mem_cons_of_mem first (ih h)
    · cases h
      exact mem_cons_self
    · exact mem_cons_of_mem first (ih h)

theorem nodeChildLoop_eq (hwf : node.subtree.WellFormed lang) (hfuel : node.subtree.height ≤ fuel)
    (childIndex : Nat) :
    nodeChildLoop lang includeAnonymous fuel node childIndex =
      (enumerated lang includeAnonymous fuel node)[childIndex]? := by
  induction fuel generalizing node childIndex with
  | zero => rfl
  | succ fuel ih =>
    have hcount : ∀ child ∈ node.children lang, child.relevantChildCount includeAnonymous ≤
        (enumerated lang includeAnonymous fuel child).length := by
      intro child hchild
      have hlt := TSNode.height_lt hchild
      exact relevantChildCount_le (hwf.child (TSNode.subtree_mem hchild))
        (hwf.counted_child (TSNode.subtree_mem hchild)) (by omega)
    have hlook := getElem?_flatMap_enumeratedSelf hcount (Nat.zero_le childIndex)
    rw [enumerated_succ, ← Nat.sub_zero childIndex, hlook, nodeChildLoop, Nat.sub_zero]
    cases hscan : nodeChildScan lang includeAnonymous childIndex (node.children lang) 0 with
    | found child => rfl
    | exhausted => rfl
    | descend child i =>
      have hchild := mem_of_nodeChildScan hscan
      have hlt := TSNode.height_lt hchild
      exact ih (hwf.child (TSNode.subtree_mem hchild)) (by omega) i

/-! ### Enumerations with intruders -/

section Intruders

variable {α γ : Type} {f g : α → List γ} {intruder : α → Prop}

/-- A list of contributions is right if each one is, when they have the right lengths. -/
theorem flatMap_eq_iff {l : List α} (hlength : ∀ a ∈ l, (f a).length = (g a).length) :
    l.flatMap f = l.flatMap g ↔ ∀ a ∈ l, f a = g a := by
  induction l with
  | nil => simp
  | cons a l ih =>
    rw [forall_mem_cons] at hlength ⊢
    rw [flatMap_cons, flatMap_cons, ← ih hlength.2]
    constructor
    · intro h
      exact append_inj h hlength.1
    · intro h
      rw [h.1, h.2]

/-- With some contributions that should be empty and are not, a list of contributions is right up
to its length if the others are right, and nothing comes behind those that are wrong. -/
theorem take_flatMap_eq_iff {l : List α} (hnodup : l.Nodup)
    (hlength : ∀ a ∈ l, ¬ intruder a → (f a).length = (g a).length)
    (hintruder : ∀ a ∈ l, intruder a → f a ≠ [] ∧ g a = [])
    (hdisjoint : ∀ a ∈ l, ∀ b ∈ l, a ≠ b → ∀ c ∈ f a, c ∉ g b) :
    (l.flatMap f).take (l.flatMap g).length = l.flatMap g ↔
      (∀ a ∈ l, ¬ intruder a → f a = g a) ∧
      ∀ front a back, l = front ++ a :: back → intruder a → back.flatMap g = [] := by
  induction l with
  | nil => simp
  | cons a l ih =>
    rw [nodup_cons] at hnodup
    have hmem : ∀ b ∈ l, b ∈ a :: l := fun b hb => mem_cons_of_mem a hb
    have hrest := ih hnodup.2 (fun b hb => hlength b (hmem b hb))
      (fun b hb => hintruder b (hmem b hb))
      (fun b hb c hc => hdisjoint b (hmem b hb) c (hmem c hc))
    rw [flatMap_cons, flatMap_cons]
    by_cases ha : intruder a
    · obtain ⟨hne, hnil⟩ := hintruder a mem_cons_self ha
      rw [hnil, nil_append]
      by_cases hnothing : l.flatMap g = []
      · refine iff_of_true (by simp [hnothing]) ⟨fun b hb hnot => ?_, ?_⟩
        · rcases mem_cons.mp hb with rfl | hb
          · exact absurd ha hnot
          · have hg := flatMap_eq_nil_iff.mp hnothing b hb
            have hf := hlength b (hmem b hb) hnot
            rw [hg, length_nil, length_eq_zero_iff] at hf
            rw [hf, hg]
        · intro front b back hsplit _
          rw [flatMap_eq_nil_iff] at hnothing ⊢
          refine fun c hc => hnothing c ?_
          rcases cons_eq_append_iff.mp hsplit with ⟨-, heq⟩ | ⟨front', -, heq⟩
          · cases heq
            exact hc
          · rw [heq]
            exact mem_append_right _ (mem_cons_of_mem b hc)
      · refine iff_of_false (fun h => ?_) (fun h => hnothing (h.2 [] a l rfl ha))
        -- The first node is one of the intruder's, and should be one of a later child.
        obtain ⟨c, rest, hc⟩ := exists_cons_of_ne_nil hne
        obtain ⟨d, rest', hd⟩ := exists_cons_of_ne_nil hnothing
        rw [hc, hd, length_cons, cons_append, take_succ_cons] at h
        have heq : c = d := (List.cons.inj h).1
        have hdMem : d ∈ l.flatMap g := by
          rw [hd]
          exact mem_cons_self
        obtain ⟨b, hb, hdb⟩ := mem_flatMap.mp hdMem
        refine hdisjoint a mem_cons_self b (hmem b hb) ?_ c (by rw [hc]; exact
          mem_cons_self) (heq ▸ hdb)
        rintro rfl
        exact hnodup.1 hb
    · have hself := hlength a mem_cons_self ha
      have htake : (f a ++ l.flatMap f).take ((g a ++ l.flatMap g).length) =
          f a ++ (l.flatMap f).take (l.flatMap g).length := by
        rw [length_append, ← hself, take_length_add_append]
      rw [htake]
      constructor
      · intro h
        obtain ⟨hfirst, hothers⟩ := append_inj h hself
        obtain ⟨hright, hlast⟩ := hrest.mp hothers
        refine ⟨fun b hb hnot => ?_, fun front b back hsplit hb => ?_⟩
        · rcases mem_cons.mp hb with rfl | hb
          · exact hfirst
          · exact hright b hb hnot
        · rcases cons_eq_append_iff.mp hsplit with ⟨-, heq⟩ | ⟨front', -, heq⟩
          · cases heq
            exact absurd hb ha
          · exact hlast front' b back heq hb
      · intro h
        have hothers := hrest.mpr ⟨fun b hb => h.1 b (hmem b hb), fun front b back hsplit =>
          h.2 (a :: front) b back (by rw [hsplit, cons_append])⟩
        rw [hothers, h.1 a mem_cons_self ha]

end Intruders

/-! ### Named children -/

section Named

variable {node child : TSNode} {fuel : Nat}

theorem below_of_mem_enumerated {found : TSNode}
    (h : found ∈ enumerated lang includeAnonymous fuel node) : node.Below lang found := by
  induction fuel generalizing node with
  | zero => cases h
  | succ fuel ih =>
    rw [enumerated_succ, mem_flatMap] at h
    obtain ⟨child, hchild, hfound⟩ := h
    rw [enumeratedSelf] at hfound
    split at hfound
    · rw [mem_singleton.mp hfound]
      exact .child hchild
    · exact .step hchild (ih (mem_of_mem_take hfound))

theorem within_of_mem_enumeratedSelf {found : TSNode}
    (h : found ∈ enumeratedSelf lang includeAnonymous fuel child) : child.Within lang found := by
  rw [enumeratedSelf] at h
  split at h
  · exact Or.inl (mem_singleton.mp h)
  · exact Or.inr (below_of_mem_enumerated (mem_of_mem_take h))

theorem length_enumeratedSelf (hwf : child.subtree.WellFormed lang)
    (hcounted : child.subtree.Counted lang) (hfuel : child.subtree.height ≤ fuel)
    (hrelevant : child.isRelevant lang includeAnonymous = false) :
    (enumeratedSelf lang includeAnonymous fuel child).length =
      child.relevantChildCount includeAnonymous := by
  rw [enumeratedSelf, if_neg (Bool.eq_false_iff.mp hrelevant),
    length_take_of_le (relevantChildCount_le hwf hcounted hfuel)]

theorem length_enumeratedSelf_eq (hwf : child.subtree.WellFormed lang)
    (hcounted : child.subtree.Counted lang) (hfuel : child.subtree.height ≤ fuel)
    (h : ¬ child.IsIntruder lang) :
    (enumeratedSelf lang false fuel child).length = (child.relevantSelf lang false).length := by
  by_cases hrelevant : child.isRelevant lang false = true
  · rw [enumeratedSelf, if_pos hrelevant, TSNode.relevantSelf_of_isRelevant hrelevant]
  · have hnot := Bool.eq_false_iff.mpr hrelevant
    rw [length_enumeratedSelf hwf hcounted hfuel hnot]
    by_cases hvisible : child.isRelevant lang true = true
    · rw [TSNode.relevantSelf_of_visible hvisible hnot, length_nil]
      by_contra hne
      exact h ⟨hvisible, hnot, Nat.pos_of_ne_zero hne⟩
    · rw [TSNode.relevantSelf_of_hidden (Bool.eq_false_iff.mpr hvisible),
        TSNode.length_relevantShown hcounted]

theorem intruder_contributes (hwf : child.subtree.WellFormed lang)
    (hcounted : child.subtree.Counted lang) (hfuel : child.subtree.height ≤ fuel)
    (h : child.IsIntruder lang) :
    enumeratedSelf lang false fuel child ≠ [] ∧ child.relevantSelf lang false = [] := by
  obtain ⟨hvisible, hnot, hcount⟩ := h
  refine ⟨length_pos_iff.mp ?_, TSNode.relevantSelf_of_visible hvisible hnot⟩
  rw [length_enumeratedSelf hwf hcounted hfuel hnot]
  exact hcount

/-- A child that is not hidden and no intruder contributes what it should. -/
theorem enumeratedSelf_eq_of_visible (h : ¬ child.IsIntruder lang)
    (hvisible : child.isRelevant lang true = true) :
    enumeratedSelf lang false fuel child = child.relevantSelf lang false := by
  by_cases hrelevant : child.isRelevant lang false = true
  · rw [enumeratedSelf, if_pos hrelevant, TSNode.relevantSelf_of_isRelevant hrelevant]
  · have hnot := Bool.eq_false_iff.mpr hrelevant
    have hcount : child.relevantChildCount false = 0 := by
      by_contra hne
      exact h ⟨hvisible, hnot, Nat.pos_of_ne_zero hne⟩
    rw [enumeratedSelf, if_neg hrelevant, hcount, take_zero,
      TSNode.relevantSelf_of_visible hvisible hnot]

theorem enumeratedSelf_eq_iff {children : List TSNode} :
    (∀ child ∈ children, ¬ child.IsIntruder lang →
      enumeratedSelf lang false fuel child = child.relevantSelf lang false) ↔
    ∀ child ∈ children, child.isRelevant lang true = false →
      (enumerated lang false fuel child).take (child.relevantChildCount false) =
        child.relevantShown lang false := by
  have hhidden : ∀ child : TSNode, child.isRelevant lang true = false →
      (enumeratedSelf lang false fuel child = child.relevantSelf lang false ↔
        (enumerated lang false fuel child).take (child.relevantChildCount false) =
          child.relevantShown lang false) := by
    intro child hhidden
    have hnot : ¬ child.isRelevant lang false = true := fun h => by
      rw [TSNode.isRelevant_of_false h] at hhidden
      cases hhidden
    rw [enumeratedSelf, if_neg hnot, TSNode.relevantSelf_of_hidden hhidden]
  constructor
  · intro h child hchild hchildHidden
    refine (hhidden child hchildHidden).mp (h child hchild fun hintruder => ?_)
    rw [hintruder.1] at hchildHidden
    cases hchildHidden
  · intro h child hchild hnot
    by_cases hvisible : child.isRelevant lang true = true
    · exact enumeratedSelf_eq_of_visible hnot hvisible
    · have hchildHidden := Bool.eq_false_iff.mpr hvisible
      exact (hhidden child hchildHidden).mpr (h child hchild hchildHidden)

theorem intrudersLast_iff : IntrudersLast lang node ↔
    ∀ front intruder back, node.children lang = front ++ intruder :: back →
      intruder.IsIntruder lang → back.flatMap (TSNode.relevantSelf lang false) = [] := by
  have hnil : ∀ back : List TSNode, back.flatMap (TSNode.relevantSelf lang false) = [] ↔
      ∀ shown ∈ back.flatMap (TSNode.shownSelf lang), shown.isRelevant lang false = false := by
    intro back
    have hfilter : back.flatMap (TSNode.relevantSelf lang false) =
        (back.flatMap (TSNode.shownSelf lang)).filter (TSNode.isRelevant lang false) := by
      rw [filter_flatMap]
      rfl
    rw [hfilter, filter_eq_nil_iff]
    simp only [Bool.not_eq_true]
  simp only [IntrudersLast, hnil]

theorem TSNode.counted_children (hwf : node.subtree.WellFormed lang)
    (hfuel : node.subtree.height ≤ fuel + 1) :
    ∀ child ∈ node.children lang, child.subtree.WellFormed lang ∧
      child.subtree.Counted lang ∧ child.subtree.height ≤ fuel := by
  intro child hchild
  have hlt := TSNode.height_lt hchild
  exact ⟨hwf.child (TSNode.subtree_mem hchild), hwf.counted_child (TSNode.subtree_mem hchild),
    by omega⟩

/-- In a hidden node the enumeration is right, as far as it is used, exactly if intruders come
last there and in the hidden nodes below. -/
theorem take_enumerated_eq_iff (hwf : node.subtree.WellFormed lang)
    (hcounted : node.subtree.Counted lang) (hfuel : node.subtree.height ≤ fuel) :
    (enumerated lang false fuel node).take (node.relevantChildCount false) =
        node.relevantShown lang false ↔
      IntrudersLast lang node ∧
        ∀ hidden : TSNode, node.HiddenBelow lang hidden → IntrudersLast lang hidden := by
  induction fuel generalizing node with
  | zero =>
    have hpos := node.subtree.height_pos
    omega
  | succ fuel ih =>
    have hchildren := TSNode.counted_children hwf hfuel
    have hnodup : (node.children lang).Nodup := List.Nodup.of_map _ node.nodup_children
    have hdisjoint : ∀ a ∈ node.children lang, ∀ b ∈ node.children lang, a ≠ b →
        ∀ c ∈ enumeratedSelf lang false fuel a, c ∉ b.relevantSelf lang false := by
      intro a ha b hb hne c hc hcb
      exact hne (TSNode.Within.unique (within_of_mem_enumeratedSelf hc)
        (TSNode.within_of_mem_shownSelf (mem_filter.mp hcb).1) ha hb)
    rw [← TSNode.length_relevantShown hcounted, TSNode.relevantShown_eq, enumerated_succ,
      take_flatMap_eq_iff hnodup (fun child hchild h => length_enumeratedSelf_eq
        (hchildren child hchild).1 (hchildren child hchild).2.1 (hchildren child hchild).2.2 h)
        (fun child hchild h => intruder_contributes (hchildren child hchild).1
          (hchildren child hchild).2.1 (hchildren child hchild).2.2 h) hdisjoint,
      ← intrudersLast_iff, enumeratedSelf_eq_iff, and_comm]
    refine and_congr_right fun _ => ?_
    rw [← TSNode.forall_hiddenBelow_iff]
    exact forall₃_congr fun child hchild _ =>
      ih (hchildren child hchild).1 (hchildren child hchild).2.1 (hchildren child hchild).2.2

end Named

/-! ### The whole enumeration -/

theorem enumerated_true (hwf : node.subtree.WellFormed lang) (hfuel : node.subtree.height ≤ fuel) :
    enumerated lang true fuel node = node.relevantShown lang true := by
  induction fuel generalizing node with
  | zero =>
    have hpos := node.subtree.height_pos
    omega
  | succ fuel ih =>
    rw [enumerated_succ, TSNode.relevantShown_eq]
    refine flatMap_congr fun child hchild => ?_
    have hlt := TSNode.height_lt hchild
    rw [enumeratedSelf]
    by_cases hrelevant : child.isRelevant lang true = true
    · rw [if_pos hrelevant, TSNode.relevantSelf_of_isRelevant hrelevant]
    · rw [if_neg hrelevant, TSNode.relevantSelf_of_hidden (Bool.eq_false_iff.mpr hrelevant),
        ih (hwf.child (TSNode.subtree_mem hchild)) (by omega),
        ← TSNode.length_relevantShown (hwf.counted_child (TSNode.subtree_mem hchild)), take_length]

theorem TSNode.relevantShown_true (node : TSNode) :
    node.relevantShown lang true = node.shown lang :=
  filter_eq_self.mpr fun _ hshown => isRelevant_of_mem_shown hshown

/-- The named ones are enumerated right exactly if there are no intruders. -/
theorem enumerated_false_iff (hwf : node.subtree.WellFormed lang)
    (hfuel : node.subtree.height ≤ fuel + 1) :
    enumerated lang false (fuel + 1) node = node.relevantShown lang false ↔
      NoIntruders lang node := by
  have hchildren := TSNode.counted_children hwf hfuel
  have hlength : ∀ child ∈ node.children lang, ¬ child.IsIntruder lang →
      (enumeratedSelf lang false fuel child).length = (child.relevantSelf lang false).length :=
    fun child hchild => length_enumeratedSelf_eq (hchildren child hchild).1
      (hchildren child hchild).2.1 (hchildren child hchild).2.2
  have hintruder : ∀ child ∈ node.children lang, child.IsIntruder lang →
      enumeratedSelf lang false fuel child ≠ [] ∧ child.relevantSelf lang false = [] :=
    fun child hchild => intruder_contributes (hchildren child hchild).1
      (hchildren child hchild).2.1 (hchildren child hchild).2.2
  rw [enumerated_succ, TSNode.relevantShown_eq]
  have hnone : (node.children lang).flatMap (enumeratedSelf lang false fuel) =
      (node.children lang).flatMap (TSNode.relevantSelf lang false) →
      ∀ child ∈ node.children lang, ¬ child.IsIntruder lang := by
    intro heq child hchild hbad
    have hsum : ((node.children lang).map fun child =>
          (child.relevantSelf lang false).length).sum <
        ((node.children lang).map fun child =>
          (enumeratedSelf lang false fuel child).length).sum := by
      refine sum_lt_sum _ _ (fun other hother => ?_) ⟨child, hchild, ?_⟩
      · by_cases hotherBad : other.IsIntruder lang
        · rw [(hintruder other hother hotherBad).2]
          exact Nat.zero_le _
        · exact (hlength other hother hotherBad).ge
      · obtain ⟨hne, hnil⟩ := hintruder child hchild hbad
        rw [hnil]
        exact length_pos_iff.mpr hne
    have hlen := congrArg List.length heq
    rw [length_flatMap, length_flatMap] at hlen
    omega
  have hbelow : (∀ child ∈ node.children lang, child.isRelevant lang true = false →
      (enumerated lang false fuel child).take (child.relevantChildCount false) =
        child.relevantShown lang false) ↔
      ∀ hidden : TSNode, node.HiddenBelow lang hidden → IntrudersLast lang hidden := by
    rw [← TSNode.forall_hiddenBelow_iff]
    exact forall₃_congr fun child hchild _ => take_enumerated_eq_iff (hchildren child hchild).1
      (hchildren child hchild).2.1 (hchildren child hchild).2.2
  constructor
  · intro h
    have hno := hnone h
    refine ⟨hno, hbelow.mp (enumeratedSelf_eq_iff.mp fun child hchild _ => ?_)⟩
    exact (flatMap_eq_iff fun child hchild => hlength child hchild (hno child hchild)).mp h child
      hchild
  · intro h
    rw [flatMap_eq_iff fun child hchild => hlength child hchild (h.children child hchild)]
    exact fun child hchild => enumeratedSelf_eq_iff.mpr (hbelow.mpr h.hidden) child hchild
      (h.children child hchild)

/-- Children by index are right exactly if there are no intruders. The end of the input, a child
of the root, is an extra. -/
theorem nodeChild_iff {node : TSNode} (hwf : node.subtree.WellFormed lang)
    (hend : ∀ child ∈ node.subtree.children, child.symbol = 0 → child.extra = true) :
    ChildIndexing lang node ↔ NoIntruders lang node := by
  have hcounted := hwf.counted_of_extra hend
  obtain ⟨fuel, hfuel⟩ : ∃ fuel, node.subtree.height = fuel + 1 :=
    ⟨node.subtree.height - 1, by have := node.subtree.height_pos; omega⟩
  have hchild : ∀ b i, nodeChild lang b node i = (enumerated lang b (fuel + 1) node)[i]? := by
    intro b i
    rw [nodeChild, nodeChildLoop_eq hwf le_rfl, hfuel]
  rw [← enumerated_false_iff hwf hfuel.le]
  constructor
  · intro h
    refine ext_getElem? fun i => ?_
    rw [← hchild, h.namedChild]
  · intro h
    refine ⟨fun i => ?_, TSNode.childCount_eq hcounted, fun i => ?_, ?_⟩
    · rw [hchild, enumerated_true hwf hfuel.le, TSNode.relevantShown_true]
    · rw [hchild, h]
    · rw [TSNode.length_relevantShown hcounted]
      rfl

/-- An anonymous child with a named child of its own, such as an alias gives. -/
def anonymousParent : SyntaxTree := rowNode 1 [rowNode 2 [rowTree 1 1 []], rowTree 1 1 []]

theorem anonymousParent_isRow : IsRow anonymousParent :=
  isRow_node (by simp [isRow_node])

theorem nodeChild_iff_anonymousParent :
    ChildIndexing rowLanguage anonymousParent.rootNode ↔
      NoIntruders rowLanguage anonymousParent.rootNode :=
  nodeChild_iff anonymousParent_isRow.wellFormed
    fun child hchild hzero => absurd hzero (anonymousParent_isRow.noEnd child hchild)

/-- The first named child that is returned is not a child of the node. -/
theorem not_childIndexing_anonymousParent : ∃ node : TSNode,
    node.subtree.WellFormed rowLanguage ∧
      (∀ child ∈ node.subtree.children, child.symbol = 0 → child.extra = true) ∧
      ¬ ChildIndexing rowLanguage node := by
  refine ⟨anonymousParent.rootNode, anonymousParent_isRow.wellFormed,
    fun child hchild hzero => absurd hzero (anonymousParent_isRow.noEnd child hchild), fun h => ?_⟩
  have hreturned : (nodeChild rowLanguage false anonymousParent.rootNode 0).map TSNode.id =
      some [0, 0] := by decide
  have hnamed : (anonymousParent.rootNode.relevantShown rowLanguage false)[0]?.map TSNode.id =
      some [1] := by decide
  rw [h.namedChild, hnamed] at hreturned
  cases hreturned

end TreeSitter.Lib
