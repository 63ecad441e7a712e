import TreeSitter.Lib.Stack.Consistent

/-!
# TreeSitter.Lib.Stack.Maxima

**The precedence and the node count of a stack node.** They are meant to be the largest ones of
its links: those of the predecessor, plus those of the link's subtree.

A push makes a node for which this is so. Adding a link can break it in three ways: a subtree is
**replaced** and another link of the node has more than the new one; two predecessors are **merged**
and the node, which is told of one of them, has a link whose total has risen further; and a node
**rises** on which other nodes are built, which are not told. `LinkKept` says that a call of
`stack_node_add_link` takes none of these ways, and that no sum that it forms overflows. In runs of
such calls all nodes that are in use have their maxima (`KeptReachable.maxima`), and there are
others (`not_maxima_replaced`).
-/

namespace TreeSitter.Lib

open Option List

variable {τ : Type} (view : τ → SubtreeView)

/-- The dynamic precedence that a link's subtree adds. -/
def linkPrecedence (subtree : Option τ) : Int :=
  match subtree with
  | none => 0
  | some tree => (view tree).dynamicPrecedence

def linkNodeCount (subtree : Option τ) : Nat :=
  match subtree with
  | none => 0
  | some tree => (view tree).nodeCount

/-- The dynamic precedence of a node together with a subtree, as a number of any size. -/
def StackNode.precedenceTotal (node : StackNode τ) (subtree : Option τ) : Int :=
  node.dynamicPrecedence + linkPrecedence view subtree

/-- The node count of a node together with a subtree, as a number of any size. -/
def StackNode.countTotal (node : StackNode τ) (subtree : Option τ) : Nat :=
  node.nodeCount + linkNodeCount view subtree

/-- The sum of the precedences is an `int32_t`. -/
def StackNode.PrecedenceFits (node : StackNode τ) (subtree : Option τ) : Prop :=
  -2 ^ 31 ≤ node.precedenceTotal view subtree ∧ node.precedenceTotal view subtree < 2 ^ 31

/-- The sum of the counts is a `uint32_t`. -/
def StackNode.CountFits (node : StackNode τ) (subtree : Option τ) : Prop :=
  node.countTotal view subtree < 2 ^ 32

/-- What the links of a node give it, by a function of the predecessor and the subtree. -/
def StackNode.totals {α : Type} (total : StackNode τ → Option τ → α) (nodes : List (StackNode τ))
    (node : StackNode τ) : Set α :=
  {x | ∃ link ∈ node.links, ∃ predecessor, nodes[link.node]? = some predecessor ∧
    total predecessor link.subtree = x}

/-- **The values of the node are the largest ones of its links.** -/
def StackNode.HasMaxima (nodes : List (StackNode τ)) (node : StackNode τ) : Prop :=
  IsGreatest (node.totals (StackNode.precedenceTotal view) nodes) node.dynamicPrecedence ∧
  IsGreatest (node.totals (StackNode.countTotal view) nodes) node.nodeCount

/-! ### When a call keeps the maxima -/

section Kept

variable (inUse : Nat → Prop)

/-- If the values of a node become `precedence` and `count`, no node that is built on it has to
rise. The nodes to which links are being added, `underway`, may have to. -/
def RisesUnseen (nodes : List (StackNode τ)) (underway : List Nat) (self : Nat)
    (precedence : Int) (count : Nat) : Prop :=
  ∀ i node, inUse i → nodes[i]? = some node → ∀ link ∈ node.links, link.node = self →
    i ∉ underway →
      precedence + linkPrecedence view link.subtree ≤ node.dynamicPrecedence ∧
      count + linkNodeCount view link.subtree ≤ node.nodeCount

/-- A link gets another subtree, and no link of the node has more than it has then. -/
def ReplaceKept (nodes : List (StackNode τ)) (underway : List Nat) (self : Nat)
    (node source : StackNode τ) (i : Nat) (existing link : StackLink τ) : Prop :=
  source.PrecedenceFits view link.subtree ∧
  (∀ x ∈ node.totals (StackNode.precedenceTotal view) nodes,
    x ≤ source.precedenceTotal view link.subtree) ∧
  source.countTotal view link.subtree ≤ node.nodeCount ∧
  (∃ other ∈ node.links.set i { existing with subtree := link.subtree }, ∃ predecessor,
    nodes[other.node]? = some predecessor ∧
      node.nodeCount ≤ predecessor.countTotal view other.subtree) ∧
  RisesUnseen view inUse nodes underway self (source.precedenceTotal view link.subtree)
    node.nodeCount

/-- Predecessors of the node have been merged, and its links have no more than it gets, and as
much as the link has that was to be added. -/
def RaiseKept (nodes : List (StackNode τ)) (underway : List Nat) (self : Nat)
    (link : StackLink τ) : Prop :=
  ∀ node source, nodes[self]? = some node → nodes[link.node]? = some source →
    source.PrecedenceFits view link.subtree ∧
    (∀ x ∈ node.totals (StackNode.precedenceTotal view) nodes,
      x ≤ max node.dynamicPrecedence (source.precedenceTotal view link.subtree)) ∧
    (∀ x ∈ node.totals (StackNode.countTotal view) nodes, x ≤ node.nodeCount) ∧
    (node.dynamicPrecedence < source.precedenceTotal view link.subtree →
      ∃ x ∈ node.totals (StackNode.precedenceTotal view) nodes,
        source.precedenceTotal view link.subtree ≤ x) ∧
    RisesUnseen view inUse nodes underway self
      (max node.dynamicPrecedence (source.precedenceTotal view link.subtree)) node.nodeCount

/-- A link is appended, a node that had none has no more than it gives, and no node that is built
on this one has to rise. -/
def AppendKept (nodes : List (StackNode τ)) (underway : List Nat) (self : Nat)
    (node source : StackNode τ) (link : StackLink τ) : Prop :=
  source.PrecedenceFits view link.subtree ∧ source.CountFits view link.subtree ∧
  (node.links = [] → node.dynamicPrecedence ≤ source.precedenceTotal view link.subtree ∧
    node.nodeCount ≤ source.countTotal view link.subtree) ∧
  RisesUnseen view inUse nodes underway self
    (max node.dynamicPrecedence (source.precedenceTotal view link.subtree))
    (max node.nodeCount (source.countTotal view link.subtree))

/-! ### What a call keeps -/

/-- The values of a node are no larger than what some links give. -/
def StackNode.Reached (nodes : List (StackNode τ)) (node : StackNode τ) : Prop :=
  (∃ x ∈ node.totals (StackNode.precedenceTotal view) nodes, node.dynamicPrecedence ≤ x) ∧
  ∃ x ∈ node.totals (StackNode.countTotal view) nodes, node.nodeCount ≤ x

/-- No link of a node gives more than its values. -/
def StackNode.Bounded (nodes : List (StackNode τ)) (node : StackNode τ) : Prop :=
  (∀ x ∈ node.totals (StackNode.precedenceTotal view) nodes, x ≤ node.dynamicPrecedence) ∧
  ∀ x ∈ node.totals (StackNode.countTotal view) nodes, x ≤ node.nodeCount

theorem StackNode.Reached.hasMaxima {nodes : List (StackNode τ)} {node : StackNode τ}
    (h : node.Reached view nodes) (hbounded : node.Bounded view nodes) :
    node.HasMaxima view nodes := by
  obtain ⟨⟨x, hx, hle⟩, y, hy, hle'⟩ := h
  refine ⟨⟨?_, hbounded.1⟩, ?_, hbounded.2⟩
  · rwa [le_antisymm hle (hbounded.1 x hx)]
  · rwa [le_antisymm hle' (hbounded.2 y hy)]

/-- **The nodes in use while links are added.** All but those to which they are being added have
their maxima. -/
structure Held (underway : List Nat) (nodes : List (StackNode τ)) : Prop where
  valid {i : Nat} (h : inUse i) : i < nodes.length
  closed {i : Nat} {node : StackNode τ} (h : inUse i) (hnode : nodes[i]? = some node)
    {link : StackLink τ} (hlink : link ∈ node.links) : inUse link.node ∧ link.node ≠ i
  reached {i : Nat} {node : StackNode τ} (h : inUse i) (hnode : nodes[i]? = some node)
    (hlinks : node.links ≠ []) : node.Reached view nodes
  bounded {i : Nat} {node : StackNode τ} (h : inUse i) (hi : i ∉ underway)
    (hnode : nodes[i]? = some node) : node.Bounded view nodes

variable {view inUse} {underway : List Nat} {nodes nodes' : List (StackNode τ)} {self : Nat}
  {node node' source : StackNode τ} {link : StackLink τ}

theorem mem_totals_set {α : Type} {total : StackNode τ → Option τ → α} {x : α}
    (h : x ∈ node.totals total (nodes.set self node')) :
    x ∈ node.totals total nodes ∨
      ∃ link ∈ node.links, link.node = self ∧ total node' link.subtree = x := by
  obtain ⟨link, hlink, predecessor, hpredecessor, hx⟩ := h
  rw [getElem?_set] at hpredecessor
  split at hpredecessor
  · next hself =>
    split at hpredecessor
    · cases hpredecessor
      exact .inr ⟨link, hlink, hself.symm, hx⟩
    · cases hpredecessor
  · exact .inl ⟨link, hlink, predecessor, hpredecessor, hx⟩

theorem exists_mem_totals_set {α : Type} [Preorder α] {total : StackNode τ → Option τ → α} {x : α}
    (hnode : nodes[self]? = some node)
    (hrise : ∀ link ∈ source.links, link.node = self →
      total node link.subtree ≤ total node' link.subtree)
    (h : x ∈ source.totals total nodes) :
    ∃ y ∈ source.totals total (nodes.set self node'), x ≤ y := by
  obtain ⟨link, hlink, predecessor, hpredecessor, rfl⟩ := h
  by_cases hself : link.node = self
  · obtain rfl := Option.some.inj (hnode.symm.trans (hself ▸ hpredecessor))
    refine ⟨_, ⟨link, hlink, node', ?_, rfl⟩, hrise link hlink hself⟩
    rw [hself]
    exact List.getElem?_set_self (List.getElem?_eq_some_iff.mp hnode).1
  · refine ⟨_, ⟨link, hlink, predecessor, ?_, rfl⟩, le_refl _⟩
    rwa [getElem?_set_ne (Ne.symm hself)]

theorem StackNode.PrecedenceFits.precedenceWith_eq {subtree : Option τ}
    (h : source.PrecedenceFits view subtree) :
    source.precedenceWith view subtree = source.precedenceTotal view subtree := by
  cases subtree with
  | none => exact (Int.add_zero _).symm
  | some tree => exact addI32_of_lt h.1 h.2

theorem StackNode.CountFits.countWith_eq {subtree : Option τ}
    (h : source.CountFits view subtree) :
    source.countWith view subtree = source.countTotal view subtree := by
  cases subtree with
  | none => rfl
  | some tree => exact addU32_of_lt h

theorem Held.mono (h : Held view inUse underway nodes) {underway' : List Nat}
    (hsub : underway ⊆ underway') : Held view inUse underway' nodes where
  valid := h.valid
  closed := h.closed
  reached := h.reached
  bounded hi hnot hnode := h.bounded hi (fun hmem => hnot (hsub hmem)) hnode

/-- **A node rises, and no other has to.** -/
theorem Held.set (h : Held view inUse underway nodes) {underway' : List Nat}
    (hnode : nodes[self]? = some node) (hself : inUse self)
    (hsub : underway ⊆ self :: underway')
    (hprecedence : node.dynamicPrecedence ≤ node'.dynamicPrecedence)
    (hcount : node.nodeCount ≤ node'.nodeCount)
    (hlinks : ∀ link ∈ node'.links, inUse link.node ∧ link.node ≠ self)
    (hreached : node'.links ≠ [] → node'.Reached view nodes)
    (hbounded : self ∉ underway' → node'.Bounded view nodes)
    (hrises : RisesUnseen view inUse nodes underway' self node'.dynamicPrecedence
      node'.nodeCount) : Held view inUse underway' (nodes.set self node') := by
  -- No link of the node leads to itself, so it sees no change.
  have hown {α : Type} (total : StackNode τ → Option τ → α) (x : α) :
      x ∈ node'.totals total (nodes.set self node') ↔ x ∈ node'.totals total nodes := by
    refine exists_congr fun link => and_congr_right fun hlink => ?_
    rw [getElem?_set_ne (hlinks link hlink).2.symm]
  have hget {i : Nat} {n : StackNode τ} (hn : (nodes.set self node')[i]? = some n) :
      (i = self ∧ n = node') ∨ (i ≠ self ∧ nodes[i]? = some n) := by
    rw [getElem?_set] at hn
    split at hn
    · next heq =>
      split at hn
      · exact .inl ⟨heq.symm, (Option.some.inj hn).symm⟩
      · cases hn
    · next hne => exact .inr ⟨Ne.symm hne, hn⟩
  refine ⟨fun hi => ?_, fun {i n} hi hn {link} hlink => ?_, fun {i n} hi hn hne => ?_,
    fun {i n} hi hnot hn => ?_⟩
  · rw [length_set]
    exact h.valid hi
  · obtain ⟨rfl, rfl⟩ | ⟨-, hn⟩ := hget hn
    · exact hlinks link hlink
    · exact h.closed hi hn hlink
  · obtain ⟨rfl, rfl⟩ | ⟨-, hn⟩ := hget hn
    · obtain ⟨⟨x, hx, hle⟩, y, hy, hle'⟩ := hreached hne
      exact ⟨⟨x, (hown _ x).mpr hx, hle⟩, y, (hown _ y).mpr hy, hle'⟩
    · obtain ⟨⟨x, hx, hle⟩, y, hy, hle'⟩ := h.reached hi hn hne
      obtain ⟨x', hx', hx⟩ := exists_mem_totals_set hnode (fun link _ _ =>
        (add_le_add_left hprecedence (linkPrecedence view link.subtree) :
          node.precedenceTotal view link.subtree ≤ node'.precedenceTotal view link.subtree)) hx
      obtain ⟨y', hy', hy⟩ := exists_mem_totals_set hnode (fun link _ _ =>
        (Nat.add_le_add_right hcount (linkNodeCount view link.subtree) :
          node.countTotal view link.subtree ≤ node'.countTotal view link.subtree)) hy
      exact ⟨⟨x', hx', hle.trans hx⟩, y', hy', hle'.trans hy⟩
  · obtain ⟨rfl, rfl⟩ | ⟨hne, hn⟩ := hget hn
    · obtain ⟨hprecedences, hcounts⟩ := hbounded hnot
      exact ⟨fun x hx => hprecedences x ((hown _ x).mp hx),
        fun x hx => hcounts x ((hown _ x).mp hx)⟩
    · have hold := h.bounded hi (fun hmem =>
        (mem_cons.mp (hsub hmem)).elim hne hnot) hn
      refine ⟨fun x hx => ?_, fun x hx => ?_⟩
      · rcases mem_totals_set hx with hx | ⟨link, hlink, hto, rfl⟩
        · exact hold.1 x hx
        · exact (hrises i n hi hn link hlink hto hnot).1
      · rcases mem_totals_set hx with hx | ⟨link, hlink, hto, rfl⟩
        · exact hold.2 x hx
        · exact (hrises i n hi hn link hlink hto hnot).2

theorem ite_lt_eq_max {α : Type} [LinearOrder α] (x y : α) :
    (if y > x then y else x) = max x y := by
  split
  · next hlt => exact (max_eq_right (le_of_lt hlt)).symm
  · next hle => exact (max_eq_left (not_lt.mp hle)).symm

theorem appendLink_eq (nodes : List (StackNode τ)) (self : Nat) (node : StackNode τ)
    (hprecedence : source.PrecedenceFits view link.subtree)
    (hcount : source.CountFits view link.subtree) : appendLink view nodes self node source link =
      if node.links.length = maxLinkCount then nodes
      else nodes.set self { node with
        links := node.links ++ [link]
        nodeCount := max node.nodeCount (source.countTotal view link.subtree)
        dynamicPrecedence :=
          max node.dynamicPrecedence (source.precedenceTotal view link.subtree) } := by
  rw [← ite_lt_eq_max, ← ite_lt_eq_max, ← hprecedence.precedenceWith_eq, ← hcount.countWith_eq]
  rfl

theorem appendLink_held (h : Held view inUse underway nodes) (hself : inUse self)
    (hto : inUse link.node) (hne : link.node ≠ self) (hnode : nodes[self]? = some node)
    (hsource : nodes[link.node]? = some source)
    (hkept : node.links.length ≠ maxLinkCount →
      AppendKept view inUse nodes underway self node source link) :
    Held view inUse underway (appendLink view nodes self node source link) := by
  by_cases hroom : node.links.length = maxLinkCount
  · unfold appendLink
    rwa [if_pos hroom]
  obtain ⟨hprecedence, hcount, hfirst, hrises⟩ := hkept hroom
  rw [appendLink_eq nodes self node hprecedence hcount, if_neg hroom]
  have hmem {α : Type} {total : StackNode τ → Option τ → α} {x : α} :
      x ∈ StackNode.totals total nodes { node with
        links := node.links ++ [link]
        nodeCount := max node.nodeCount (source.countTotal view link.subtree)
        dynamicPrecedence :=
          max node.dynamicPrecedence (source.precedenceTotal view link.subtree) } ↔
      x ∈ node.totals total nodes ∨ x = total source link.subtree := by
    refine ⟨fun ⟨other, hother, predecessor, hpredecessor, hx⟩ => ?_, ?_⟩
    · rcases mem_append.mp hother with hother | hother
      · exact .inl ⟨other, hother, predecessor, hpredecessor, hx⟩
      · rw [mem_singleton.mp hother] at hpredecessor hx
        cases hsource.symm.trans hpredecessor
        exact .inr hx.symm
    · rintro (⟨other, hother, hx⟩ | rfl)
      · exact ⟨other, mem_append_left _ hother, hx⟩
      · exact ⟨link, mem_append_right _ (mem_singleton.mpr rfl), source, hsource, rfl⟩
  refine h.set hnode hself (List.subset_cons_of_subset _ fun _ hx => hx) (le_max_left ..)
    (le_max_left ..) (fun other hother => ?_) (fun _ => ?_) (fun hnot => ?_) hrises
  · rcases mem_append.mp hother with hother | hother
    · exact h.closed hself hnode hother
    · rw [mem_singleton.mp hother]
      exact ⟨hto, hne⟩
  · -- Each value is the node's old one or what the new link gives.
    have hold : (∃ x ∈ node.totals (StackNode.precedenceTotal view) nodes,
        node.dynamicPrecedence ≤ x) ∨
        node.dynamicPrecedence ≤ source.precedenceTotal view link.subtree := by
      by_cases hempty : node.links = []
      · exact .inr (hfirst hempty).1
      · exact .inl (h.reached hself hnode hempty).1
    have hold' : (∃ x ∈ node.totals (StackNode.countTotal view) nodes, node.nodeCount ≤ x) ∨
        node.nodeCount ≤ source.countTotal view link.subtree := by
      by_cases hempty : node.links = []
      · exact .inr (hfirst hempty).2
      · exact .inl (h.reached hself hnode hempty).2
    have hreach {α : Type} [LinearOrder α] {total : StackNode τ → Option τ → α} {value : α}
        (hvalue : (∃ x ∈ node.totals total nodes, value ≤ x) ∨ value ≤ total source link.subtree) :
        ∃ x, (x ∈ node.totals total nodes ∨ x = total source link.subtree) ∧
          max value (total source link.subtree) ≤ x := by
      rcases le_total value (total source link.subtree) with hle | hle
      · exact ⟨_, .inr rfl, max_le hle (le_refl _)⟩
      · rcases hvalue with ⟨x, hx, hvalue⟩ | hvalue
        · exact ⟨x, .inl hx, max_le hvalue (hle.trans hvalue)⟩
        · exact ⟨_, .inr rfl, max_le hvalue (le_refl _)⟩
    obtain ⟨x, hx, hle⟩ := hreach hold
    obtain ⟨y, hy, hle'⟩ := hreach hold'
    exact ⟨⟨x, hmem.mpr hx, hle⟩, y, hmem.mpr hy, hle'⟩
  · obtain ⟨hprecedences, hcounts⟩ := h.bounded hself hnot hnode
    refine ⟨fun x hx => ?_, fun x hx => ?_⟩
    · rcases hmem.mp hx with hx | rfl
      · exact (hprecedences x hx).trans (le_max_left ..)
      · exact le_max_right ..
    · rcases hmem.mp hx with hx | rfl
      · exact (hcounts x hx).trans (le_max_left ..)
      · exact le_max_right ..

theorem replaceLink_held (h : Held view inUse underway nodes) (hself : inUse self)
    (hnode : nodes[self]? = some node) (hsource : nodes[link.node]? = some source) {i : Nat}
    {existing : StackLink τ} (hexisting : node.links[i]? = some existing)
    (hsame : existing.node = link.node)
    (hkept : linkPrecedence view existing.subtree < linkPrecedence view link.subtree →
      ReplaceKept view inUse nodes underway self node source i existing link)
    (hreplace : replaceLink view nodes self node source i existing link = some nodes') :
    Held view inUse underway nodes' := by
  obtain ⟨tree, htree, hreplace⟩ := bind_eq_some_iff.mp hreplace
  obtain ⟨existingTree, hexistingTree, hreplace⟩ := bind_eq_some_iff.mp hreplace
  split at hreplace
  · next hgt =>
    cases hreplace
    have hlower : linkPrecedence view existing.subtree < linkPrecedence view link.subtree := by
      rw [htree, hexistingTree]
      exact hgt
    obtain ⟨hfits, hprecedence, hcount, hcounted, hrises⟩ := hkept hlower
    have hnew : addI32 source.dynamicPrecedence (view tree).dynamicPrecedence =
        source.precedenceTotal view link.subtree := by
      rw [← hfits.precedenceWith_eq, htree]
      rfl
    rw [hnew, ← htree]
    have hmem := mem_of_getElem? hexisting
    obtain ⟨⟨x, hx, hle⟩, -⟩ := h.reached hself hnode (ne_nil_of_mem hmem)
    have hset : { existing with subtree := link.subtree } ∈
        node.links.set i { existing with subtree := link.subtree } :=
      List.mem_set (List.getElem?_eq_some_iff.mp hexisting).1 _
    refine h.set hnode hself (List.subset_cons_of_subset _ fun _ hx => hx)
      (hle.trans (hprecedence x hx)) (le_refl _) (fun other hother => ?_) (fun _ => ?_)
      (fun hnot => ?_) hrises
    · rcases mem_or_eq_of_mem_set hother with hother | rfl
      · exact h.closed hself hnode hother
      · have hto := h.closed hself hnode hmem
        exact hto
    · obtain ⟨other, hother, predecessor, hpredecessor, hle⟩ := hcounted
      exact ⟨⟨_, ⟨_, hset, source, hsame ▸ hsource, rfl⟩, le_refl _⟩, _,
        ⟨other, hother, predecessor, hpredecessor, rfl⟩, hle⟩
    · obtain ⟨-, hcounts⟩ := h.bounded hself hnot hnode
      refine ⟨fun x ⟨other, hother, predecessor, hpredecessor, hx⟩ => ?_,
        fun x ⟨other, hother, predecessor, hpredecessor, hx⟩ => ?_⟩
      · rcases mem_or_eq_of_mem_set hother with hother | rfl
        · exact hprecedence x ⟨other, hother, predecessor, hpredecessor, hx⟩
        · cases hsource.symm.trans (hsame ▸ hpredecessor)
          exact hx.symm.le
      · rcases mem_or_eq_of_mem_set hother with hother | rfl
        · exact hcounts x ⟨other, hother, predecessor, hpredecessor, hx⟩
        · cases hsource.symm.trans (hsame ▸ hpredecessor)
          exact hx.symm.le.trans hcount
  · cases hreplace
    exact h

/-- After its predecessors were merged, the node is one of the others again. -/
theorem raisePrecedence_held (h : Held view inUse (self :: underway) nodes) (hself : inUse self)
    (hkept : RaiseKept view inUse nodes underway self link)
    (hraise : raisePrecedence view nodes self link = some nodes') :
    Held view inUse underway nodes' := by
  obtain ⟨source, hsource, hraise⟩ := bind_eq_some_iff.mp hraise
  obtain ⟨node, hnode, hraise⟩ := bind_eq_some_iff.mp hraise
  obtain ⟨hfits, hprecedence, hcount, hreached, hrises⟩ := hkept node source hnode hsource
  rw [hfits.precedenceWith_eq] at hraise
  dsimp only at hraise
  split at hraise
  · next hgt =>
    cases hraise
    have hmax := max_eq_right (le_of_lt hgt)
    change max node.dynamicPrecedence (source.precedenceTotal view link.subtree) = _ at hmax
    rw [hmax] at hprecedence hrises
    refine h.set hnode hself (fun _ hx => hx) (le_of_lt hgt) (le_refl _)
      (fun other hother => h.closed hself hnode hother) (fun hne => ?_)
      (fun _ => ⟨hprecedence, hcount⟩) hrises
    exact ⟨hreached hgt, (h.reached hself hnode hne).2⟩
  · next hle =>
    cases hraise
    have hmax := max_eq_left (not_lt.mp hle)
    change max node.dynamicPrecedence (source.precedenceTotal view link.subtree) = _ at hmax
    rw [hmax] at hprecedence
    refine ⟨h.valid, h.closed, h.reached, fun {i n} hi hnot hn => ?_⟩
    by_cases heq : i = self
    · subst heq
      cases hnode.symm.trans hn
      exact ⟨hprecedence, hcount⟩
    · exact h.bounded hi (fun hmem => (mem_cons.mp hmem).elim heq hnot) hn

/-! ### Adding links -/

variable (view inUse) [DecidableEq τ]

mutual

/-- A call of `stack_node_add_link` goes none of the ways that break maxima. The calls in it are
looked at in the state in which they are made. -/
def LinkKept : Nat → List Nat → List (StackNode τ) → Nat → StackLink τ → Prop
  | 0, _, _, _, _ => True
  | fuel + 1, underway, nodes, self, link =>
    link.node ≠ self → ∀ node source, nodes[self]? = some node → nodes[link.node]? = some source →
      match findLink view nodes link source node.links 0 with
      | some (some (i, existing)) =>
        if existing.node = link.node then
          linkPrecedence view existing.subtree < linkPrecedence view link.subtree →
            ReplaceKept view inUse nodes underway self node source i existing link
        else
          LinksKept fuel (self :: underway) nodes existing.node link.node 0 ∧
          ∀ nodes', addLinks view fuel nodes existing.node link.node 0 = some nodes' →
            RaiseKept view inUse nodes' underway self link
      | some none => node.links.length ≠ maxLinkCount →
          AppendKept view inUse nodes underway self node source link
      | none => True

/-- The calls for the links of a node, from the given one on. -/
def LinksKept : Nat → List Nat → List (StackNode τ) → Nat → Nat → Nat → Prop
  | 0, _, _, _, _, _ => True
  | fuel + 1, underway, nodes, self, source, j =>
    ∀ node, nodes[source]? = some node → ∀ link, node.links[j]? = some link →
      LinkKept fuel underway nodes self link ∧
      ∀ nodes', addLink view fuel nodes self link = some nodes' →
        LinksKept fuel underway nodes' self source (j + 1)

end

variable {view inUse}

theorem findLink_getElem? {links : List (StackLink τ)} {k i : Nat} {existing : StackLink τ}
    (h : findLink view nodes link source links k = some (some (i, existing))) :
    k ≤ i ∧ links[i - k]? = some existing := by
  induction links generalizing k with
  | nil => cases h
  | cons first links ih =>
    rw [findLink] at h
    have hrest (h : findLink view nodes link source links (k + 1) = some (some (i, existing))) :
        k ≤ i ∧ (first :: links)[i - k]? = some existing := by
      obtain ⟨hle, hget⟩ := ih h
      refine ⟨by omega, ?_⟩
      rwa [show i - k = (i - (k + 1)) + 1 by omega, getElem?_cons_succ]
    have hfirst (h : some (some (k, first)) = some (some (i, existing))) :
        k ≤ i ∧ (first :: links)[i - k]? = some existing := by
      cases h
      rw [Nat.sub_self]
      exact ⟨le_refl _, rfl⟩
    split at h
    · split at h
      · exact hfirst h
      · obtain ⟨target, -, h⟩ := bind_eq_some_iff.mp h
        split at h
        · exact hfirst h
        · exact hrest h
    · exact hrest h

/-- `addLink` and `addLinks` keep the maxima, if no call in them goes a way that breaks them. -/
theorem addLink_addLinks_held (fuel : Nat) :
    (∀ {underway : List Nat} {nodes nodes' : List (StackNode τ)} {self link},
      Held view inUse underway nodes → inUse self → inUse link.node →
      LinkKept view inUse fuel underway nodes self link →
      addLink view fuel nodes self link = some nodes' → Held view inUse underway nodes') ∧
    ∀ {underway : List Nat} {nodes nodes' : List (StackNode τ)} {self source j},
      Held view inUse underway nodes → inUse self → inUse source →
      LinksKept view inUse fuel underway nodes self source j →
      addLinks view fuel nodes self source j = some nodes' → Held view inUse underway nodes' := by
  induction fuel with
  | zero =>
    refine ⟨fun _ _ _ _ h => ?_, fun _ _ _ _ h => ?_⟩
    · cases h
    · cases h
  | succ fuel ih =>
    obtain ⟨ihLink, ihLinks⟩ := ih
    refine ⟨fun {underway nodes nodes' self link} hheld hself hto hkept h => ?_,
      fun {underway nodes nodes' self source j} hheld hself hfrom hkept h => ?_⟩
    · rw [addLink] at h
      split at h
      · cases h
        exact hheld
      next hne =>
      obtain ⟨node, hnode, h⟩ := bind_eq_some_iff.mp h
      obtain ⟨source, hsource, h⟩ := bind_eq_some_iff.mp h
      obtain ⟨found, hfound, h⟩ := bind_eq_some_iff.mp h
      replace hkept := hkept hne node source hnode hsource
      rw [hfound] at hkept
      split at h
      · next i existing =>
        obtain ⟨-, hexisting⟩ := findLink_getElem? hfound
        dsimp only at hkept
        split at h
        · next hsame =>
          rw [if_pos hsame] at hkept
          exact replaceLink_held hheld hself hnode hsource hexisting hsame hkept h
        · next hother =>
          rw [if_neg hother] at hkept
          obtain ⟨hkept, hraised⟩ := hkept
          obtain ⟨merged, hmerged, h⟩ := bind_eq_some_iff.mp h
          have hpredecessor := (hheld.closed hself hnode (mem_of_getElem? hexisting)).1
          have hheld' := ihLinks (hheld.mono (subset_cons_self ..)) hpredecessor hto hkept
            hmerged
          exact raisePrecedence_held hheld' hself (hraised merged hmerged) h
      · cases h
        exact appendLink_held hheld hself hto hne hnode hsource hkept
    · obtain ⟨node, hnode, h⟩ := bind_eq_some_iff.mp h
      split at h
      · cases h
        exact hheld
      · next link hlink =>
        obtain ⟨hkept, hrest⟩ := hkept node hnode link hlink
        obtain ⟨added, hadded, h⟩ := bind_eq_some_iff.mp h
        have hto := (hheld.closed hfrom hnode (mem_of_getElem? hlink)).1
        have hheld' := ihLink hheld hself hto hkept hadded
        exact ihLinks hheld' hself hfrom (hrest added hadded) h

end Kept

/-! ### Runs -/

namespace Stack

variable {stack stack' : Stack τ}

variable {view}

/-- A call that only moves heads on the nodes in use keeps the maxima. -/
theorem MovesHeads.held (hmoves : MovesHeads stack stack')
    (h : Held view stack.InUse [] stack.nodes) : Held view stack'.InUse [] stack'.nodes := by
  have hold {i : Nat} (hi : InUse stack' i) : InUse stack i :=
    hi.of_heads hmoves.nodes hmoves.base hmoves.heads
  have hnodes := hmoves.nodes
  exact ⟨fun hi => hnodes ▸ h.valid (hold hi),
    fun hi hnode _ hlink => ⟨.link hi hnode hlink, (h.closed (hold hi) (hnodes ▸ hnode) hlink).2⟩,
    fun hi hnode hne => hnodes ▸ h.reached (hold hi) (hnodes ▸ hnode) hne,
    fun hi hnot hnode => hnodes ▸ h.bounded (hold hi) hnot (hnodes ▸ hnode)⟩

@[simp] theorem new_links (index : Nat) (previous : StackNode τ) (subtree : Option τ)
    (isPending : Bool) (state : Nat) :
    (StackNode.new view index previous subtree isPending state).links =
      [⟨index, subtree, isPending⟩] := by
  cases subtree <;> rfl

theorem new_precedence (index : Nat) (previous : StackNode τ) (subtree : Option τ)
    (isPending : Bool) (state : Nat) :
    (StackNode.new view index previous subtree isPending state).dynamicPrecedence =
      previous.precedenceWith view subtree := by
  cases subtree <;> rfl

theorem new_count (index : Nat) (previous : StackNode τ) (subtree : Option τ)
    (isPending : Bool) (state : Nat) :
    (StackNode.new view index previous subtree isPending state).nodeCount =
      previous.countWith view subtree := by
  cases subtree <;> rfl

theorem push_length {version : Nat} {subtree : Option τ} {pending : Bool} {state : Nat}
    (hpush : stack.push view version subtree pending state = some stack') :
    stack'.heads.length = stack.heads.length := by
  obtain ⟨head, -, hpush⟩ := bind_eq_some_iff.mp hpush
  obtain ⟨previous, -, hpush⟩ := bind_eq_some_iff.mp hpush
  cases hpush
  exact length_set

variable (view) in
/-- The sums that a push forms are numbers of 32 bits. -/
def PushFits (stack : Stack τ) (version : Nat) (subtree : Option τ) : Prop :=
  ∀ head previous, stack.heads[version]? = some head → stack.nodes[head.node]? = some previous →
    previous.PrecedenceFits view subtree ∧ previous.CountFits view subtree

theorem push_held (h : Held view stack.InUse [] stack.nodes) {version : Nat} {subtree : Option τ}
    {pending : Bool} {state : Nat}
    (hpush : stack.push view version subtree pending state = some stack')
    (hfits : stack.PushFits view version subtree) :
    Held view stack'.InUse [] stack'.nodes := by
  obtain ⟨head, hhead, hpush⟩ := bind_eq_some_iff.mp hpush
  obtain ⟨previous, hprevious, hpush⟩ := bind_eq_some_iff.mp hpush
  obtain ⟨hprecedence, hcount⟩ := hfits head previous hhead hprevious
  have hin := inUse_getElem? hhead
  have hnodes : stack'.nodes =
      stack.nodes ++ [StackNode.new view head.node previous subtree pending state] := by
    cases hpush
    rfl
  have hbase : stack'.baseNode = stack.baseNode := by
    cases hpush
    rfl
  have hheads : ∀ x ∈ stack'.heads, InUse stack x.node ∨ x.node = stack.nodes.length := by
    cases hpush
    intro x hx
    rcases mem_or_eq_of_mem_set hx with hx | rfl
    · exact .inl (.head hx)
    · exact .inr rfl
  have hget {i : Nat} {node : StackNode τ} (hnode : stack'.nodes[i]? = some node) :
      (i < stack.nodes.length ∧ stack.nodes[i]? = some node) ∨ (i = stack.nodes.length ∧
        node = StackNode.new view head.node previous subtree pending state) := by
    rw [hnodes] at hnode
    rcases lt_trichotomy i stack.nodes.length with hlt | rfl | hgt
    · rw [getElem?_append_left hlt] at hnode
      exact .inl ⟨hlt, hnode⟩
    · rw [getElem?_concat_length] at hnode
      exact .inr ⟨rfl, (Option.some.inj hnode).symm⟩
    · rw [getElem?_eq_none (by rw [length_append]; exact hgt)] at hnode
      cases hnode
  -- The nodes in use are those that were, and the new one.
  have hcases {i : Nat} (hi : InUse stack' i) : InUse stack i ∨ i = stack.nodes.length := by
    have hbottom : InUse stack stack'.baseNode := by
      rw [hbase]
      exact .base
    refine InUse.of_closed (P := fun i => InUse stack i ∨ i = stack.nodes.length) (.inl hbottom)
      hheads (fun i node hi hnode link hlink => ?_) hi
    rcases hget hnode with ⟨hlt, hnode⟩ | ⟨-, rfl⟩
    · rcases hi with hi | rfl
      · exact .inl (.link hi hnode hlink)
      · exact absurd hlt (lt_irrefl _)
    · rw [new_links, mem_singleton] at hlink
      subst hlink
      exact .inl hin
  have hold {i : Nat} (hi : InUse stack' i) (hlt : i < stack.nodes.length) : InUse stack i :=
    (hcases hi).resolve_right hlt.ne
  -- A node's links see the nodes that there were.
  have htotals {α : Type} {total : StackNode τ → Option τ → α} {node : StackNode τ} {x : α}
      (hlinks : ∀ link ∈ node.links, link.node < stack.nodes.length) :
      x ∈ node.totals total stack'.nodes ↔ x ∈ node.totals total stack.nodes := by
    refine exists_congr fun link => and_congr_right fun hlink => ?_
    rw [hnodes, getElem?_append_left (hlinks link hlink)]
  have hnew {α : Type} {total : StackNode τ → Option τ → α} {x : α} :
      x ∈ (StackNode.new view head.node previous subtree pending state).totals total
        stack'.nodes ↔ x = total previous subtree := by
    rw [htotals fun link hlink => by
      rw [new_links, mem_singleton] at hlink
      subst hlink
      exact h.valid hin]
    rw [StackNode.totals, new_links]
    refine ⟨fun ⟨link, hlink, predecessor, hpredecessor, hx⟩ => ?_, fun hx => ?_⟩
    · obtain rfl := mem_singleton.mp hlink
      cases hprevious.symm.trans hpredecessor
      exact hx.symm
    · exact ⟨_, mem_singleton.mpr rfl, previous, hprevious, hx.symm⟩
  refine ⟨fun {i} hi => ?_, fun {i node} hi hnode {link} hlink => ?_,
    fun {i node} hi hnode hne => ?_, fun {i node} hi _ hnode => ?_⟩
  · rw [hnodes, length_append, length_singleton]
    rcases hcases hi with hi | rfl
    · exact Nat.lt_succ_of_lt (h.valid hi)
    · exact Nat.lt_succ_self _
  · refine ⟨.link hi hnode hlink, ?_⟩
    rcases hget hnode with ⟨hlt, hnode⟩ | ⟨rfl, rfl⟩
    · exact (h.closed (hold hi hlt) hnode hlink).2
    · rw [new_links, mem_singleton] at hlink
      subst hlink
      exact (h.valid hin).ne
  · rcases hget hnode with ⟨hlt, hnode⟩ | ⟨-, rfl⟩
    · have hlinks : ∀ link ∈ node.links, link.node < stack.nodes.length :=
        fun link hlink => h.valid (h.closed (hold hi hlt) hnode hlink).1
      obtain ⟨⟨x, hx, hle⟩, y, hy, hle'⟩ := h.reached (hold hi hlt) hnode hne
      exact ⟨⟨x, (htotals hlinks).mpr hx, hle⟩, y, (htotals hlinks).mpr hy, hle'⟩
    · rw [StackNode.Reached, new_precedence, new_count, hprecedence.precedenceWith_eq,
        hcount.countWith_eq]
      exact ⟨⟨_, hnew.mpr rfl, le_refl _⟩, _, hnew.mpr rfl, le_refl _⟩
  · rcases hget hnode with ⟨hlt, hnode⟩ | ⟨-, rfl⟩
    · have hlinks : ∀ link ∈ node.links, link.node < stack.nodes.length :=
        fun link hlink => h.valid (h.closed (hold hi hlt) hnode hlink).1
      obtain ⟨hprecedences, hcounts⟩ := h.bounded (hold hi hlt) not_mem_nil hnode
      exact ⟨fun x hx => hprecedences x ((htotals hlinks).mp hx),
        fun x hx => hcounts x ((htotals hlinks).mp hx)⟩
    · rw [StackNode.Bounded, new_precedence, new_count, hprecedence.precedenceWith_eq,
        hcount.countWith_eq]
      exact ⟨fun x hx => (hnew.mp hx).le, fun x hx => (hnew.mp hx).le⟩

variable (view) [DecidableEq τ]

/-- The links that a merge adds leave the maxima. -/
def MergeKept (stack : Stack τ) (fuel version1 version2 : Nat) : Prop :=
  ∀ head1 head2, stack.heads[version1]? = some head1 → stack.heads[version2]? = some head2 →
    LinksKept view stack.InUse fuel [] stack.nodes head1.node head2.node 0

/-- A stack that calls lead to, from a new one, with no merge in which maxima get lost and no sum
that overflows. -/
inductive KeptReachable : Stack τ → Prop where
  | new : KeptReachable new
  | merge {stack stack' : Stack τ} (h : KeptReachable stack) (fuel version1 version2 : Nat)
      (hmerge : stack.merge view fuel version1 version2 = some (stack', true))
      (hkept : stack.MergeKept view fuel version1 version2) : KeptReachable stack'
  | push {stack stack' : Stack τ} (h : KeptReachable stack) (version : Nat) (subtree : Option τ)
      (pending : Bool) (state : Nat)
      (hpush : stack.push view version subtree pending state = some stack')
      (hfits : stack.PushFits view version subtree) : KeptReachable stack'
  | other {stack stack' : Stack τ} (h : KeptReachable stack) (hstep : Step view stack stack')
      (hmerge : ∀ fuel version1 version2,
        stack.merge view fuel version1 version2 ≠ some (stack', true))
      (hpush : ∀ version subtree pending state,
        stack.push view version subtree pending state ≠ some stack') : KeptReachable stack'

variable {view}
variable {fuel version1 version2 : Nat}

theorem merge_held (h : Held view stack.InUse [] stack.nodes)
    (hmerge : stack.merge view fuel version1 version2 = some (stack', true))
    (hkept : stack.MergeKept view fuel version1 version2) :
    Held view stack'.InUse [] stack'.nodes := by
  rcases merge_cases hmerge with
    ⟨h, -⟩ | ⟨-, -, head1, head2, nodes, head, hhead1, hhead2, hnodes, hhead, rfl⟩
  · cases h
  · have hin := inUse_getElem? hhead1
    have hheld := (addLink_addLinks_held fuel).2 h hin (inUse_getElem? hhead2)
      (hkept head1 head2 hhead1 hhead2) hnodes
    -- All nodes in use were so before.
    have hold {i : Nat} (hi : InUse { stack with
        nodes, heads := (stack.heads.set version1 head).eraseIdx version2 } i) : InUse stack i :=
      hi.of_closed .base (fun x hx => inUse_set (hhead ▸ hin) x (mem_of_mem_eraseIdx hx))
        fun i node hi hnode link hlink => (hheld.closed hi hnode hlink).1
    exact ⟨fun hi => hheld.valid (hold hi),
      fun hi hnode _ hlink => ⟨.link hi hnode hlink, (hheld.closed (hold hi) hnode hlink).2⟩,
      fun hi hnode hne => hheld.reached (hold hi) hnode hne,
      fun hi hnot hnode => hheld.bounded (hold hi) hnot hnode⟩

theorem Step.held (hstep : Step view stack stack') (h : Held view stack.InUse [] stack.nodes)
    (hmerge : ∀ fuel version1 version2,
      stack.merge view fuel version1 version2 ≠ some (stack', true))
    (hpush : ∀ version subtree pending state,
      stack.push view version subtree pending state ≠ some stack') :
    Held view stack'.InUse [] stack'.nodes := by
  rcases hstep.cases with hmoves | ⟨version, subtree, pending, state, hpushed⟩ |
    ⟨fuel, version1, version2, hmerged⟩
  · exact hmoves.held h
  · exact absurd hpushed (hpush version subtree pending state)
  · exact absurd hmerged (hmerge fuel version1 version2)

theorem KeptReachable.held (h : KeptReachable view stack) :
    Held view stack.InUse [] stack.nodes := by
  induction h with
  | new =>
    have hbase {i : Nat} (hi : InUse (Stack.new : Stack τ) i) : i = 0 :=
      InUse.of_closed (P := (· = 0)) rfl (fun x hx => by rw [mem_singleton.mp hx])
        (fun i node hi hnode link hlink => by
          obtain rfl := hi
          cases hnode
          cases hlink) hi
    refine ⟨fun hi => ?_, fun {i node} hi hnode link hlink => ?_, fun hi hnode hne => ?_,
      fun hi _ hnode => ?_⟩
    · rw [hbase hi]
      exact Nat.one_pos
    · obtain rfl := hbase hi
      cases hnode
      cases hlink
    · obtain rfl := hbase hi
      cases hnode
      exact absurd rfl hne
    · obtain rfl := hbase hi
      cases hnode
      constructor
      · rintro x ⟨link, hlink, -⟩
        cases hlink
      · rintro x ⟨link, hlink, -⟩
        cases hlink
  | merge _ fuel version1 version2 hmerge hkept ih => exact merge_held ih hmerge hkept
  | push _ _ _ _ _ hpush hfits ih => exact push_held ih hpush hfits
  | other _ hstep hmerge hpush ih => exact hstep.held ih hmerge hpush

/-- **Maxima.** In every run without a merge in which they get lost, and without a sum that
overflows, the dynamic precedence and the node count of each node that is in use are the largest
sums of its links, as numbers of any size. -/
theorem KeptReachable.maxima (h : KeptReachable view stack) {i : Nat} {node : StackNode τ}
    (hi : stack.InUse i) (hnode : stack.nodes[i]? = some node) (hlinks : node.links ≠ []) :
    node.HasMaxima view stack.nodes :=
  (h.held.reached hi hnode hlinks).hasMaxima _ (h.held.bounded hi not_mem_nil hnode)

theorem merge_length (hmerge : stack.merge view fuel version1 version2 = some (stack', true)) :
    stack'.heads.length < stack.heads.length := by
  rcases merge_cases hmerge with ⟨h, -⟩ | ⟨-, -, _, _, _, _, -, hhead2, -, -, rfl⟩
  · cases h
  · have hlt := (List.getElem?_eq_some_iff.mp hhead2).1
    rw [length_eraseIdx_of_lt (by rwa [length_set]), length_set]
    omega

/-! ### A run that keeps the maxima, and one that does not -/

/-- The two versions of `mergedVersions`, before they are merged. -/
def unmergedVersions : Option (Stack Nat) := do
  let (stack, _) ← Stack.new.copyVersion 0
  let stack ← stack.push threeBytes 0 (some 2) false 7
  stack.push threeBytes 1 (some 3) false 7

/-- The node of a version on top of the bottom one. -/
def threeBytesNode (symbol : Nat) : StackNode Nat where
  state := 7
  position := ⟨3, 0, 3⟩
  links := [⟨0, some symbol, false⟩]
  errorCost := 0
  nodeCount := 1
  dynamicPrecedence := 0

/-- The head of such a version. -/
def threeBytesHead (node : Nat) : StackHead Nat :=
  ⟨node, none, 0, none, none, .active⟩

theorem unmergedVersions_eq : unmergedVersions =
    some ⟨[.base 1, threeBytesNode 2, threeBytesNode 3],
      [threeBytesHead 1, threeBytesHead 2], 0⟩ := by
  decide +kernel

theorem mergedVersions_eq : Stack.merge threeBytes
    ⟨[.base 1, threeBytesNode 2, threeBytesNode 3], [threeBytesHead 1, threeBytesHead 2], 0⟩ 3 0 1 =
      some (⟨[.base 1, { threeBytesNode 2 with
        links := [⟨0, some 2, false⟩, ⟨0, some 3, false⟩] }, threeBytesNode 3],
        [threeBytesHead 1], 0⟩, true) := by
  decide +kernel

theorem kept_unmerged : MergeKept threeBytes
    ⟨[.base 1, threeBytesNode 2, threeBytesNode 3], [threeBytesHead 1, threeBytesHead 2], 0⟩
    3 0 1 := by
  intro head1 head2 hhead1 hhead2
  cases hhead1
  cases hhead2
  intro node hnode link hlink
  cases hnode
  cases hlink
  refine ⟨fun _ node source hnode hsource => ?_, fun nodes' hnodes' node hnode link hlink => ?_⟩
  · cases hnode
    cases hsource
    intro _
    refine ⟨⟨by decide, by decide⟩, (by decide : 1 < 2 ^ 32), fun hempty => (by cases hempty),
      fun i node _ hnode link hlink hto _ => ?_⟩
    -- No node is built on this one.
    obtain _ | _ | _ | i := i
    · cases hnode
      cases hlink
    · cases hnode
      obtain rfl := mem_singleton.mp hlink
      cases hto
    · cases hnode
      obtain rfl := mem_singleton.mp hlink
      cases hto
    · cases hnode
  · cases hnodes'
    cases hnode
    cases hlink

theorem KeptReachable.maxima_merged : ∃ stack node, KeptReachable threeBytes stack ∧
    stack.nodes[1]? = some node ∧ node.links.length = 2 ∧
    node.HasMaxima threeBytes stack.nodes := by
  have hunmerged := unmergedVersions_eq
  unfold unmergedVersions at hunmerged
  obtain ⟨⟨stack₁, version⟩, hcopy, hunmerged⟩ := bind_eq_some_iff.mp hunmerged
  obtain ⟨stack₂, hpush, hpush'⟩ := bind_eq_some_iff.mp hunmerged
  have hone : stack₁.heads.length = 2 := by
    cases hcopy
    rfl
  have hnew : KeptReachable threeBytes Stack.new := .new
  have hreach := hnew.other (.copyVersion 0 version hcopy)
    (fun _ _ _ hmerge => absurd (merge_length hmerge) (by rw [hone]; decide))
    (fun _ _ _ _ hpushed => absurd (push_length hpushed) (by rw [hone]; decide))
  replace hreach := hreach.push 0 _ _ _ hpush fun head previous hhead hprevious => by
    cases hcopy
    cases hhead
    cases hprevious
    exact ⟨⟨by decide, by decide⟩, (by decide : 1 < 2 ^ 32)⟩
  replace hreach := hreach.push 1 _ _ _ hpush' fun head previous hhead hprevious => by
    cases hcopy
    cases hpush
    cases hhead
    cases hprevious
    exact ⟨⟨by decide, by decide⟩, (by decide : 1 < 2 ^ 32)⟩
  have hreach' := hreach.merge 3 0 1 mergedVersions_eq kept_unmerged
  have hhead : [threeBytesHead 1][0]? = some (threeBytesHead 1) := rfl
  exact ⟨_, _, hreach', rfl, rfl,
    hreach'.maxima (inUse_getElem? hhead) rfl (fun hempty => by cases hempty)⟩

/-- Subtrees of no bytes, by number: the second has the symbol of the third and less precedence,
and the first has a symbol of its own and the highest precedence. -/
def emptyTree (tree : Nat) : SubtreeView :=
  { threeBytes (if tree = 0 then 1 else 2) with
    size := .zero
    dynamicPrecedence := if tree = 0 then 5 else if tree = 1 then 0 else 1 }

/-- Three versions that reach one state over these subtrees, and are merged. -/
def emptyVersions : Option (Stack Nat) := do
  let (stack, _) ← Stack.new.copyVersion 0
  let (stack, _) ← stack.copyVersion 0
  let stack ← stack.push emptyTree 0 (some 0) false 7
  let stack ← stack.push emptyTree 1 (some 1) false 7
  let stack ← stack.push emptyTree 2 (some 2) false 7
  let (stack, _) ← stack.merge emptyTree 3 0 1
  let (stack, _) ← stack.merge emptyTree 3 0 1
  some stack

/-- A subtree takes the place of another, and the node gets the precedence of its link, though it
has one with more. -/
theorem not_maxima_replaced : ∃ stack node, Reachable emptyTree stack ∧ stack.InUse 1 ∧
    stack.nodes[1]? = some node ∧ node.links ≠ [] ∧ node.dynamicPrecedence = 1 ∧
    5 ∈ node.totals (StackNode.precedenceTotal emptyTree) stack.nodes ∧
    ¬ node.HasMaxima emptyTree stack.nodes := by
  obtain ⟨stack, hstack⟩ := isSome_iff_exists.mp
    (show emptyVersions.isSome by decide +kernel)
  have hnode : (emptyVersions.bind fun stack => stack.nodes[1]?) =
      some ⟨7, .zero, [⟨0, some 0, false⟩, ⟨0, some 2, false⟩], 0, 1, 1⟩ := by
    decide +kernel
  have hbase : (emptyVersions.bind fun stack => stack.nodes[0]?) = some (.base 1) := by
    decide +kernel
  have hhead : (emptyVersions.bind fun stack => stack.heads[0]?).map StackHead.node = some 1 := by
    decide +kernel
  rw [hstack, bind_some] at hnode hbase hhead
  unfold emptyVersions at hstack
  obtain ⟨⟨stack₁, version₁⟩, hcopy, hstack⟩ := bind_eq_some_iff.mp hstack
  obtain ⟨⟨stack₂, version₂⟩, hcopy', hstack⟩ := bind_eq_some_iff.mp hstack
  obtain ⟨stack₃, hpush, hstack⟩ := bind_eq_some_iff.mp hstack
  obtain ⟨stack₄, hpush', hstack⟩ := bind_eq_some_iff.mp hstack
  obtain ⟨stack₅, hpush'', hstack⟩ := bind_eq_some_iff.mp hstack
  obtain ⟨⟨stack₆, merged⟩, hmerge, hstack⟩ := bind_eq_some_iff.mp hstack
  obtain ⟨⟨stack₇, merged'⟩, hmerge', hstack⟩ := bind_eq_some_iff.mp hstack
  obtain rfl := Option.some.inj hstack
  have hreach : Reachable emptyTree stack₇ :=
    ((((((Reachable.new.step (.copyVersion 0 version₁ hcopy)).step
      (.copyVersion 0 version₂ hcopy')).step (.push 0 _ _ _ hpush)).step
      (.push 1 _ _ _ hpush')).step (.push 2 _ _ _ hpush'')).step
      (.merge 3 0 1 merged hmerge)).step (.merge 3 0 1 merged' hmerge')
  obtain ⟨head, hhead, hto⟩ := map_eq_some_iff.mp hhead
  have hin : stack₇.InUse 1 := hto ▸ inUse_getElem? hhead
  have htotal : (5 : Int) ∈ StackNode.totals (StackNode.precedenceTotal emptyTree) stack₇.nodes
      ⟨7, .zero, [⟨0, some 0, false⟩, ⟨0, some 2, false⟩], 0, 1, 1⟩ :=
    ⟨⟨0, some 0, false⟩, mem_cons_self .., .base 1, hbase, rfl⟩
  refine ⟨stack₇, _, hreach, hin, hnode, fun hempty => (by cases hempty), rfl, htotal, fun h => ?_⟩
  exact absurd (h.1.2 htotal) (by decide)

end Stack

end TreeSitter.Lib
