import TreeSitter.Lib.Node.Parent

/-!
# TreeSitter.Lib.Node.NextSibling

**The search for the next sibling ends** (`ts_node__next_sibling`). It goes down to the node, into
one child after the other that has it within, and remembers the last child that it has seen behind
such a child. Where no child has the node within, it goes on with a later child, and if there is
none, with the remembered one, which it does not forget: it would go round for ever if it found
nothing there.

But a **remembered** node starts behind a child that ends after the target (`Remembered`). All
that is in it ends after the target too, so no child of it is passed over, and since it counts
relevant children, some child is relevant or counts some itself. From there on the search goes
down until it returns (`nextSiblingLoop_of_remembered`).
-/

namespace TreeSitter.Lib

variable {β : Type} {R : Length → List β → Prop} {lang : TreeLanguage}

/-- What the search has found when it has looked at some children of a node. -/
theorem nextSiblingScan_spec {self : TSNode} {includeAnonymous : Bool} {P : TSNode → Prop}
    {children : List TSNode} (hchildren : ∀ child ∈ children, P child)
    (hpairwise : children.Pairwise fun a b => a.endByte ≤ b.startByte)
    {containing : Option TSNode} (hcontaining : ∀ child, containing = some child →
      P child ∧ self.endByte < child.endByte ∧ ∀ other ∈ children, child.endByte ≤ other.startByte) :
    (∀ child, (nextSiblingScan lang self includeAnonymous children containing).containing =
      some child → P child ∧ self.endByte < child.endByte ∧ ∀ later relevant,
        (nextSiblingScan lang self includeAnonymous children containing).later =
          some (later, relevant) → child.endByte ≤ later.startByte) ∧
    ∀ later relevant, (nextSiblingScan lang self includeAnonymous children containing).later =
      some (later, relevant) →
      P later ∧ (relevant = false → later.relevantChildCount includeAnonymous > 0) := by
  induction children generalizing containing with
  | nil =>
    constructor
    · intro child hchild
      obtain ⟨hP, hend, _⟩ := hcontaining child hchild
      exact ⟨hP, hend, fun later relevant h => by cases h⟩
    · intro later relevant h
      cases h
  | cons child children ih =>
    rw [List.forall_mem_cons] at hchildren
    rw [List.pairwise_cons] at hpairwise
    have hrest : ∀ other, containing = some other → P other ∧ self.endByte < other.endByte ∧
        ∀ later ∈ children, other.endByte ≤ later.startByte := by
      intro other hother
      obtain ⟨hP, hend, hle⟩ := hcontaining other hother
      exact ⟨hP, hend, fun later hlater => hle later (List.mem_cons_of_mem child hlater)⟩
    have hstop : ∀ flag : Bool, (flag = false → child.relevantChildCount includeAnonymous > 0) →
        (∀ other, containing = some other → P other ∧ self.endByte < other.endByte ∧
          ∀ later relevant, some (child, flag) = some (later, relevant) →
            other.endByte ≤ later.startByte) ∧
        ∀ later relevant, some (child, flag) = some (later, relevant) →
          P later ∧ (relevant = false → later.relevantChildCount includeAnonymous > 0) := by
      intro flag hflag
      constructor
      · intro other hother
        obtain ⟨hP, hend, hle⟩ := hcontaining other hother
        refine ⟨hP, hend, fun later relevant h => ?_⟩
        cases h
        exact hle child List.mem_cons_self
      · intro later relevant h
        cases h
        exact ⟨hchildren.1, hflag⟩
    rw [nextSiblingScan]
    by_cases hend : child.endByte ≤ self.endByte
    · rw [if_pos hend]
      exact ih hchildren.2 hpairwise.2 hrest
    · rw [if_neg hend]
      dsimp only
      generalize (if self.startByte = self.endByte then decide (child.startByte < self.startByte)
        else decide (child.startByte ≤ self.startByte)) = containsTarget
      split_ifs with hcontains hid hrelevant hcount
      · refine ih hchildren.2 hpairwise.2 fun other hother => ?_
        cases hother
        exact ⟨hchildren.1, Nat.lt_of_not_le hend, hpairwise.1⟩
      · exact ih hchildren.2 hpairwise.2 hrest
      · exact hstop true fun h => by cases h
      · exact hstop false fun _ => hcount
      · exact ih hchildren.2 hpairwise.2 hrest

/-- Among children that start behind the target, the first one is found that is relevant or
counts relevant children. -/
theorem nextSiblingScan_behind {self : TSNode} {includeAnonymous : Bool} {children : List TSNode}
    (hself : self.startByte ≤ self.endByte)
    (hstart : ∀ child ∈ children, self.endByte < child.startByte ∧ child.startByte ≤ child.endByte)
    (hfound : ∃ child ∈ children, child.isRelevant lang includeAnonymous = true ∨
      child.relevantChildCount includeAnonymous > 0) :
    (nextSiblingScan lang self includeAnonymous children none).containing = none ∧
      (nextSiblingScan lang self includeAnonymous children none).later.isSome := by
  induction children with
  | nil =>
    obtain ⟨child, hchild, _⟩ := hfound
    cases hchild
  | cons child children ih =>
    rw [List.forall_mem_cons] at hstart
    obtain ⟨hchildStart, hchildEnd⟩ := hstart.1
    rw [nextSiblingScan, if_neg (by omega)]
    dsimp only
    rw [if_neg (by split <;> simp <;> omega)]
    split_ifs with hrelevant hcount
    · exact ⟨rfl, rfl⟩
    · exact ⟨rfl, rfl⟩
    · refine ih hstart.2 ?_
      obtain ⟨other, hother, hother'⟩ := hfound
      rcases List.mem_cons.mp hother with rfl | hmem
      · rcases hother' with h | h
        · exact absurd h hrelevant
        · exact absurd h hcount
      · exact ⟨other, hmem, hother'⟩

/-! ### What is remembered -/

/-- The node can be a later node of the search: it is further down in the tree, starts behind the
target, and counts relevant children. -/
structure Remembered (R : Length → List β → Prop) (lang : TreeLanguage) (text : List β)
    (target : TSNode) (includeAnonymous : Bool) (node : TSNode) : Prop where
  reads : node.Reads R text
  wellFormed : node.subtree.WellFormed lang
  counted : node.subtree.Counted lang
  behind : target.endByte < node.startByte
  count : node.relevantChildCount includeAnonymous > 0

section Search

variable {text : List β} {self : TSNode} {includeAnonymous : Bool}

/-- A remembered node has a later node for the search, a child of it. -/
theorem Remembered.step (hR : Measures R) (hlen : text.length < 2 ^ 32)
    (hself : self.startByte ≤ self.endByte) {node : TSNode}
    (h : Remembered R lang text self includeAnonymous node) (later : Option (TSNode × Bool)) :
    ∃ child ∈ node.children lang,
      nextSiblingStep lang self includeAnonymous node later = .done (some child) ∨
      nextSiblingStep lang self includeAnonymous node later = .goOn child later ∧
        Remembered R lang text self includeAnonymous child := by
  have hcounted : ∀ child ∈ node.children lang, child.subtree.Counted lang :=
    fun child hchild => h.wellFormed.counted_child (TSNode.subtree_mem hchild)
  have hstart : ∀ child ∈ node.children lang, self.endByte < child.startByte ∧
      child.startByte ≤ child.endByte := by
    intro child hchild
    have hreads := h.reads.child hR hlen hchild
    exact ⟨h.behind.trans_le (h.reads.startByte_child hR hlen hchild), hreads.startByte_le hR hlen⟩
  obtain ⟨hnone, hsome⟩ := nextSiblingScan_behind hself hstart
    (TSNode.exists_of_relevantChildCount_pos h.counted hcounted h.count)
  obtain ⟨_, hlater⟩ := @nextSiblingScan_spec lang self includeAnonymous
    (· ∈ node.children lang) _ (fun _ h => h) (h.reads.children hR hlen).2 none
    (fun child hchild => by cases hchild)
  obtain ⟨⟨child, relevant⟩, hchild⟩ := Option.isSome_iff_exists.mp hsome
  obtain ⟨hmem, hcount⟩ := hlater child relevant hchild
  refine ⟨child, hmem, ?_⟩
  unfold nextSiblingStep
  dsimp only
  rw [hnone, hchild]
  cases relevant with
  | true => exact Or.inl rfl
  | false =>
    exact Or.inr ⟨rfl, h.reads.child hR hlen hmem, h.wellFormed.child (TSNode.subtree_mem hmem),
      hcounted child hmem, (hstart child hmem).1, hcount rfl⟩

theorem nextSiblingLoop_of_remembered (hR : Measures R) (hlen : text.length < 2 ^ 32)
    (hself : self.startByte ≤ self.endByte) {node : TSNode}
    (h : Remembered R lang text self includeAnonymous node) (later : Option (TSNode × Bool))
    {fuel : Nat} (hfuel : node.subtree.height ≤ fuel) :
    ∃ result, nextSiblingLoop lang self includeAnonymous fuel node later = some result := by
  induction fuel generalizing node with
  | zero =>
    obtain ⟨child, hchild, _⟩ := h.step hR hlen hself later
    have hlt := TSNode.height_lt hchild
    omega
  | succ fuel ih =>
    obtain ⟨child, hchild, hstep⟩ := h.step hR hlen hself later
    have hlt := TSNode.height_lt hchild
    rw [nextSiblingLoop]
    rcases hstep with hstep | ⟨hstep, hremembered⟩
    · rw [hstep]
      exact ⟨some child, rfl⟩
    · rw [hstep]
      exact ih hremembered (by omega)

theorem nextSiblingLoop_terminates (hR : Measures R) (hlen : text.length < 2 ^ 32)
    (hself : self.startByte ≤ self.endByte) {bound : Nat} {node : TSNode}
    (hreads : node.Reads R text) (hwf : node.subtree.WellFormed lang)
    (hbound : node.subtree.height ≤ bound) {later : Option (TSNode × Bool)}
    (hlater : ∀ other, later = some (other, false) →
      Remembered R lang text self includeAnonymous other ∧ other.subtree.height ≤ bound)
    {fuel : Nat} (hfuel : node.subtree.height + bound ≤ fuel) :
    ∃ result, nextSiblingLoop lang self includeAnonymous fuel node later = some result := by
  induction fuel generalizing node later with
  | zero =>
    have hpos := node.subtree.height_pos
    omega
  | succ fuel ih =>
    obtain ⟨hcontaining, hfound⟩ := @nextSiblingScan_spec lang self includeAnonymous
      (· ∈ node.children lang) _ (fun _ h => h) (hreads.children hR hlen).2 none
      (fun child hchild => by cases hchild)
    have hpos := node.subtree.height_pos
    have hdown : ∀ child ∈ node.children lang, ∀ later : Option (TSNode × Bool),
        (∀ other, later = some (other, false) →
          Remembered R lang text self includeAnonymous other ∧ other.subtree.height ≤ bound) →
        ∃ result, nextSiblingLoop lang self includeAnonymous fuel child later = some result := by
      intro child hchild later hlater
      have hlt := TSNode.height_lt hchild
      exact ih (hreads.child hR hlen hchild) (hwf.child (TSNode.subtree_mem hchild)) (by omega)
        hlater (by omega)
    rw [nextSiblingLoop]
    unfold nextSiblingStep
    dsimp only
    generalize nextSiblingScan lang self includeAnonymous (node.children lang) none = scan at *
    obtain ⟨containing, found⟩ := scan
    cases containing with
    | some child =>
      obtain ⟨hchild, hend, hbehind⟩ := hcontaining child rfl
      cases found with
      | none => exact hdown child hchild later hlater
      | some found =>
        refine hdown child hchild (some found) fun other hother => ?_
        cases hother
        -- The later child is behind the one with the target, which ends after it.
        obtain ⟨hmem, hcount⟩ := hfound other false rfl
        have hlt := TSNode.height_lt hmem
        exact ⟨⟨hreads.child hR hlen hmem, hwf.child (TSNode.subtree_mem hmem),
          hwf.counted_child (TSNode.subtree_mem hmem),
          hend.trans_le (hbehind other false rfl), hcount rfl⟩, by omega⟩
    | none =>
      cases found with
      | some found =>
        obtain ⟨child, relevant⟩ := found
        cases relevant with
        | true => exact ⟨some child, rfl⟩
        | false => exact hdown child (hfound child false rfl).1 later hlater
      | none =>
        cases later with
        | none => exact ⟨none, rfl⟩
        | some later =>
          obtain ⟨other, relevant⟩ := later
          cases relevant with
          | true => exact ⟨some other, rfl⟩
          | false =>
            obtain ⟨hremembered, hheight⟩ := hlater other rfl
            exact nextSiblingLoop_of_remembered hR hlen hself hremembered _ (by omega)

end Search

/-! ### The whole search -/

theorem nextSiblingLoop_mono {self : TSNode} {includeAnonymous : Bool} {node : TSNode}
    {later : Option (TSNode × Bool)} {fuel more : Nat} {result : Option TSNode}
    (h : nextSiblingLoop lang self includeAnonymous fuel node later = some result)
    (hle : fuel ≤ more) :
    nextSiblingLoop lang self includeAnonymous more node later = some result := by
  induction fuel generalizing more node later with
  | zero => cases h
  | succ fuel ih =>
    obtain ⟨more, rfl⟩ : ∃ k, more = k + 1 := ⟨more - 1, by omega⟩
    rw [nextSiblingLoop] at h ⊢
    cases hstep : nextSiblingStep lang self includeAnonymous node later with
    | done found =>
      rw [hstep] at h
      exact h
    | goOn next remembered =>
      rw [hstep] at h
      exact ih h (by omega)

/-- `ts_node_next_sibling` and `ts_node_next_named_sibling` end for every node of a tree, after
twice as many turns as the tree has levels. -/
theorem nextSibling_terminates (hR : Measures R) {root : SyntaxTree} {padding content : List β}
    (hspells : root.Spells R padding content) (hlen : (padding ++ content).length < 2 ^ 32)
    (hwf : root.WellFormed lang) {self : TSNode} (hself : root.rootNode.Within lang self)
    (includeAnonymous : Bool) :
    ∃ result, ∀ fuel ≥ 2 * root.height,
      nextSibling lang root self includeAnonymous fuel = some result := by
  have hroot := hspells.rootNode
  have hreads : self.Reads R (padding ++ content) := by
    rcases hself with rfl | hbelow
    · exact hroot
    · exact hbelow.reads hroot hR hlen
  cases hparent : nodeParent lang root self with
  | none => exact ⟨none, fun fuel _ => by rw [nextSibling, hparent]⟩
  | some parent =>
    have hwithin : root.rootNode.Within lang parent := nodeParent_within hparent
    obtain ⟨hparentReads, hparentWf, hheight⟩ : parent.Reads R (padding ++ content) ∧
        parent.subtree.WellFormed lang ∧ parent.subtree.height ≤ root.height := by
      rcases hwithin with rfl | hbelow
      · exact ⟨hroot, hwf, le_rfl⟩
      · exact ⟨hbelow.reads hroot hR hlen, hbelow.wellFormed hwf, hbelow.height_lt.le⟩
    obtain ⟨result, hresult⟩ := @nextSiblingLoop_terminates _ _ _ _ _ includeAnonymous
      hR hlen (hreads.startByte_le hR hlen) _ _ hparentReads hparentWf hheight none
      (fun other h => by cases h) (2 * root.height) (by omega)
    refine ⟨result, fun fuel hfuel => ?_⟩
    rw [nextSibling, hparent]
    exact nextSiblingLoop_mono hresult hfuel

/-- Behind a hidden node with a visible one there is another with an empty one. -/
def emptyLater : SyntaxTree :=
  rowNode 1 [rowNode 3 [rowTree 1 1 [], rowTree 3 1 []], rowNode 3 [rowTree 1 0 [], rowTree 3 1 []]]

theorem emptyLater_isRow : IsRow emptyLater :=
  isRow_node (by simp [isRow_node])

/-- The hidden node behind is remembered, and the empty one in it is found. -/
theorem nextSibling_terminates_remembered : ∃ result sibling, sibling.id = [0, 1] ∧
    result = some sibling ∧ ∀ fuel ≥ 2 * emptyLater.height,
      nextSibling rowLanguage emptyLater ⟨[0, 0], rowTree 1 1 [], ⟨0, 0, 0⟩, 0⟩ true fuel =
        some result := by
  have hnode : emptyLater.rootNode.Below rowLanguage ⟨[0, 0], rowTree 1 1 [], ⟨0, 0, 0⟩, 0⟩ :=
    .step (.head _) (.child (.head _))
  obtain ⟨result, hresult⟩ := nextSibling_terminates measures_lengthOf emptyLater_isRow.spells
    (by decide) emptyLater_isRow.wellFormed (Or.inr hnode) true
  have hid : (nextSibling rowLanguage emptyLater ⟨[0, 0], rowTree 1 1 [], ⟨0, 0, 0⟩, 0⟩ true
      (2 * emptyLater.height)).map (·.map TSNode.id) = some (some [0, 1]) := by decide
  rw [hresult _ le_rfl, Option.map_some, Option.some_inj, Option.map_eq_some_iff] at hid
  obtain ⟨sibling, hsibling, hid⟩ := hid
  exact ⟨result, sibling, hid, hsibling, hresult⟩

end TreeSitter.Lib
