import TreeSitter.Lib.Stack.InUse

/-!
# TreeSitter.Lib.Stack.Consistent

**All paths to a node describe the same text.** In every stack that its functions lead to, the
position of a node is the one of each predecessor plus the bytes of the subtree between them, and
so for the error cost (`Stack.Reachable.linksOk`).

Nodes are shared, and merging changes them in place. What never changes about a node is its state,
its position and its error cost, its **core**: a link that fits its node does so as long as the
cores stay, and nodes are merged only if their cores agree.
-/

namespace TreeSitter.Lib

open Option List

variable {τ : Type} (view : τ → SubtreeView)

/-- What merging does not change. -/
def StackNode.core (node : StackNode τ) : Nat × Length × Nat :=
  (node.state, node.position, node.errorCost)

/-- The byte behind a subtree that starts at a node. -/
def StackNode.endByte (node : StackNode τ) : Option τ → Nat
  | none => node.position.bytes
  | some tree => addU32 node.position.bytes (view tree).totalBytes

/-- The error cost of a node together with a subtree. -/
def StackNode.costWith (node : StackNode τ) : Option τ → Nat
  | none => node.errorCost
  | some tree => addU32 node.errorCost (view tree).errorCost

/-- The link leads from the node to a predecessor that its subtree continues. -/
def StackLink.Fits (nodes : List (StackNode τ)) (node : StackNode τ) (link : StackLink τ) : Prop :=
  ∃ predecessor, nodes[link.node]? = some predecessor ∧
    predecessor.endByte view link.subtree = node.position.bytes ∧
    predecessor.costWith view link.subtree = node.errorCost

/-- All links fit. -/
def LinksOk (nodes : List (StackNode τ)) : Prop :=
  ∀ (i : Nat) (node : StackNode τ), nodes[i]? = some node →
    ∀ link ∈ node.links, link.Fits view nodes node

/-- The nodes have the same cores. -/
def SameCores (nodes nodes' : List (StackNode τ)) : Prop :=
  nodes'.map StackNode.core = nodes.map StackNode.core

variable {view} {nodes nodes' nodes'' : List (StackNode τ)} {node node' source : StackNode τ}
  {link : StackLink τ} {self : Nat}

theorem SameCores.refl (nodes : List (StackNode τ)) : SameCores nodes nodes := rfl

theorem SameCores.trans (h : SameCores nodes nodes') (h' : SameCores nodes' nodes'') :
    SameCores nodes nodes'' :=
  Eq.trans h' h

variable {i : Nat}

theorem SameCores.get (h : SameCores nodes nodes') (hnode : nodes[i]? = some node) :
    ∃ node', nodes'[i]? = some node' ∧ node'.core = node.core := by
  have hmap : (nodes'.map StackNode.core)[i]? = some node.core := by
    rw [h, List.getElem?_map, hnode, map_some]
  rw [List.getElem?_map] at hmap
  exact map_eq_some_iff.mp hmap

theorem SameCores.set (hnode : nodes[self]? = some node) (hcore : node'.core = node.core) :
    SameCores nodes (nodes.set self node') := by
  rw [SameCores, map_set, hcore]
  refine ext_getElem? fun i => ?_
  rw [getElem?_set, length_map]
  split
  · next heq =>
    subst heq
    obtain ⟨hlt, -⟩ := List.getElem?_eq_some_iff.mp hnode
    rw [if_pos hlt, List.getElem?_map, hnode, map_some]
  · rfl

theorem StackLink.Fits.congr (h : link.Fits view nodes node) (hcores : SameCores nodes nodes')
    (hcore : node'.core = node.core) : link.Fits view nodes' node' := by
  obtain ⟨predecessor, hpredecessor, hend, hcost⟩ := h
  obtain ⟨predecessor', hpredecessor', heq⟩ := hcores.get hpredecessor
  simp only [StackNode.core, Prod.mk.injEq] at hcore heq
  refine ⟨predecessor', hpredecessor', ?_, ?_⟩
  · rw [hcore.2.1, ← hend]
    cases link.subtree with
    | none | some tree => rw [StackNode.endByte, StackNode.endByte, heq.2.1]
  · rw [hcore.2.2, ← hcost]
    cases link.subtree with
    | none | some tree => rw [StackNode.costWith, StackNode.costWith, heq.2.2]

theorem LinksOk.set (h : LinksOk view nodes) (hnode : nodes[self]? = some node)
    (hcore : node'.core = node.core) (hlinks : ∀ link ∈ node'.links, link.Fits view nodes node) :
    LinksOk view (nodes.set self node') ∧ SameCores nodes (nodes.set self node') := by
  have hcores := SameCores.set hnode hcore
  refine ⟨fun i n hn link hlink => ?_, hcores⟩
  rw [getElem?_set] at hn
  split at hn
  · split at hn
    · cases hn
      exact (hlinks link hlink).congr hcores hcore
    · cases hn
  · exact (h i n hn link hlink).congr hcores rfl

/-! ### The functions of the stack -/

namespace Stack

variable {stack stack' : Stack τ}

variable {version fuel : Nat}

theorem new_fits {index : Nat} {previous : StackNode τ} {subtree : Option τ} {isPending : Bool}
    {state : Nat} (h : nodes[index]? = some previous) :
    ∀ link ∈ (StackNode.new view index previous subtree isPending state).links,
      link.Fits view nodes (StackNode.new view index previous subtree isPending state) := by
  intro link hlink
  cases subtree with
  | none | some tree =>
    obtain rfl := mem_singleton.mp hlink
    exact ⟨previous, h, rfl, rfl⟩

theorem push_linksOk (h : LinksOk view stack.nodes) {subtree : Option τ} {pending : Bool}
    {state : Nat} (hpush : stack.push view version subtree pending state = some stack') :
    LinksOk view stack'.nodes := by
  obtain ⟨head, -, hpush⟩ := bind_eq_some_iff.mp hpush
  obtain ⟨previous, hprevious, hpush⟩ := bind_eq_some_iff.mp hpush
  cases hpush
  -- A link that fits in the nodes so far does so with one node more.
  have hmono : ∀ {node : StackNode τ} {link : StackLink τ}, link.Fits view stack.nodes node →
      link.Fits view (stack.nodes ++ [StackNode.new view head.node previous subtree pending state]) node := by
    intro node link ⟨predecessor, hpredecessor, hfits⟩
    refine ⟨predecessor, ?_, hfits⟩
    rw [List.getElem?_append_left (List.getElem?_eq_some_iff.mp hpredecessor).1]
    exact hpredecessor
  intro i node hnode link hlink
  dsimp only at hnode
  rcases lt_or_ge i stack.nodes.length with hlt | hge
  · rw [List.getElem?_append_left hlt] at hnode
    exact hmono (h i node hnode link hlink)
  · rw [getElem?_append_right hge] at hnode
    obtain rfl := mem_singleton.mp (mem_of_getElem? hnode)
    exact hmono (new_fits hprevious link hlink)

end Stack

/-! ### Adding links -/

theorem appendLink_spec (h : LinksOk view nodes) (hnode : nodes[self]? = some node)
    (hlink : link.Fits view nodes node) :
    LinksOk view (appendLink view nodes self node source link) ∧
      SameCores nodes (appendLink view nodes self node source link) := by
  unfold appendLink
  split
  · exact ⟨h, .refl nodes⟩
  · refine h.set hnode rfl fun l hl => ?_
    rcases mem_append.mp hl with hl | hl
    · exact h self node hnode l hl
    · rw [mem_singleton.mp hl]
      exact hlink

variable {existing : StackLink τ}

theorem replaceLink_spec (h : LinksOk view nodes) (hnode : nodes[self]? = some node)
    (hlink : link.Fits view nodes node)
    (hsame : existing.node = link.node)
    (hreplace : replaceLink view nodes self node source i existing link = some nodes') :
    LinksOk view nodes' ∧ SameCores nodes nodes' := by
  obtain ⟨tree, htree, hreplace⟩ := bind_eq_some_iff.mp hreplace
  obtain ⟨existingTree, -, hreplace⟩ := bind_eq_some_iff.mp hreplace
  split at hreplace
  · cases hreplace
    refine h.set hnode rfl fun l hl => ?_
    rcases mem_or_eq_of_mem_set hl with hl | rfl
    · exact h self node hnode l hl
    · obtain ⟨predecessor, hpredecessor, hend, hcost⟩ := hlink
      rw [htree] at hend hcost
      exact ⟨predecessor, hsame ▸ hpredecessor, hend, hcost⟩
  · cases hreplace
    exact ⟨h, .refl nodes⟩

theorem raisePrecedence_spec (h : LinksOk view nodes)
    (hraise : raisePrecedence view nodes self link = some nodes') :
    LinksOk view nodes' ∧ SameCores nodes nodes' := by
  obtain ⟨source, -, hraise⟩ := bind_eq_some_iff.mp hraise
  obtain ⟨node, hnode, hraise⟩ := bind_eq_some_iff.mp hraise
  dsimp only at hraise
  split at hraise
  · cases hraise
    exact h.set hnode rfl (h self node hnode)
  · cases hraise
    exact ⟨h, .refl nodes⟩

theorem StackLink.Fits.of_mergeable (h : link.Fits view nodes source)
    (hmergeable : node.mergeable source) : link.Fits view nodes node := by
  simp only [StackNode.mergeable, Bool.and_eq_true, decide_eq_true_eq] at hmergeable
  obtain ⟨predecessor, hpredecessor, hend, hcost⟩ := h
  exact ⟨predecessor, hpredecessor, by rw [hend, hmergeable.1.2], by rw [hcost, hmergeable.2]⟩

theorem mergeable_congr {node node' source source' : StackNode τ} (hnode : node'.core = node.core)
    (hsource : source'.core = source.core) : node'.mergeable source' = node.mergeable source := by
  simp only [StackNode.core, Prod.mk.injEq] at hnode hsource
  rw [StackNode.mergeable, StackNode.mergeable, hnode.1, hnode.2.1, hnode.2.2, hsource.1,
    hsource.2.1, hsource.2.2]

variable [DecidableEq τ]

theorem findLink_mem {links : List (StackLink τ)} {k : Nat}
    (h : findLink view nodes link source links k = some (some (i, existing))) :
    existing ∈ links ∧
      (existing.node = link.node ∨ ∃ node, nodes[existing.node]? = some node ∧
        node.mergeable source) := by
  induction links generalizing k with
  | nil => cases h
  | cons first links ih =>
    rw [findLink] at h
    have hrest : findLink view nodes link source links (k + 1) = some (some (i, existing)) →
        existing ∈ first :: links ∧ (existing.node = link.node ∨
          ∃ node, nodes[existing.node]? = some node ∧ node.mergeable source) :=
      fun h => (ih h).imp_left (mem_cons_of_mem _)
    split at h
    · split at h
      · next hsame =>
        cases h
        exact ⟨mem_cons_self .., .inl hsame⟩
      · obtain ⟨node, hnode, h⟩ := bind_eq_some_iff.mp h
        split at h
        · next hmergeable =>
          cases h
          exact ⟨mem_cons_self .., .inr ⟨node, hnode, hmergeable⟩⟩
        · exact hrest h
    · exact hrest h

/-- `addLink` of a link that fits, and `addLinks` of nodes that can be merged. -/
theorem addLink_addLinks_spec (fuel : Nat) :
    (∀ {nodes nodes' : List (StackNode τ)} {self node link}, LinksOk view nodes →
      nodes[self]? = some node → link.Fits view nodes node →
      addLink view fuel nodes self link = some nodes' →
      LinksOk view nodes' ∧ SameCores nodes nodes') ∧
    ∀ {nodes nodes' : List (StackNode τ)} {self sourceIndex node source j}, LinksOk view nodes →
      nodes[self]? = some node → nodes[sourceIndex]? = some source → node.mergeable source →
      addLinks view fuel nodes self sourceIndex j = some nodes' →
      LinksOk view nodes' ∧ SameCores nodes nodes' := by
  induction fuel with
  | zero =>
    refine ⟨fun _ _ _ h => ?_, fun _ _ _ _ h => ?_⟩
    · rw [addLink] at h
      cases h
    · rw [addLinks] at h
      cases h
  | succ fuel ih =>
    obtain ⟨ihLink, ihLinks⟩ := ih
    refine ⟨fun {nodes nodes' self node link} hok hnode hfits h => ?_,
      fun {nodes nodes' self sourceIndex node source j} hok hnode hsource hmergeable h => ?_⟩
    · rw [addLink] at h
      split at h
      · cases h
        exact ⟨hok, .refl nodes⟩
      · obtain ⟨node', hnode', h⟩ := bind_eq_some_iff.mp h
        obtain rfl := Option.some.inj (hnode.symm.trans hnode')
        obtain ⟨source, hsource, h⟩ := bind_eq_some_iff.mp h
        obtain ⟨found, hfound, h⟩ := bind_eq_some_iff.mp h
        split at h
        · next i existing =>
          obtain ⟨-, hcase⟩ := findLink_mem hfound
          split at h
          · next hsame => exact replaceLink_spec hok hnode hfits hsame h
          · next hne =>
            obtain ⟨merged, hmerged, h⟩ := bind_eq_some_iff.mp h
            rcases hcase with hsame | ⟨target, htarget, hmergeable⟩
            · exact absurd hsame hne
            · obtain ⟨hok', hcores⟩ := ihLinks hok htarget hsource hmergeable hmerged
              obtain ⟨hok'', hcores'⟩ := raisePrecedence_spec hok' h
              exact ⟨hok'', hcores.trans hcores'⟩
        · cases h
          exact appendLink_spec hok hnode hfits
    · rw [addLinks] at h
      obtain ⟨source', hsource', h⟩ := bind_eq_some_iff.mp h
      obtain rfl := Option.some.inj (hsource.symm.trans hsource')
      split at h
      · cases h
        exact ⟨hok, .refl nodes⟩
      · next link hlink =>
        obtain ⟨added, hadded, h⟩ := bind_eq_some_iff.mp h
        have hfits := hok sourceIndex source hsource link (mem_of_getElem? hlink)
        obtain ⟨hok', hcores⟩ := ihLink hok hnode (hfits.of_mergeable hmergeable) hadded
        -- The cores of both nodes are as before, so the rest of the links can be added, too.
        obtain ⟨node', hnode', hcore⟩ := hcores.get hnode
        obtain ⟨source', hsource', hcore'⟩ := hcores.get hsource
        rw [← mergeable_congr hcore hcore'] at hmergeable
        obtain ⟨hok'', hcores'⟩ := ihLinks hok' hnode' hsource' hmergeable h
        exact ⟨hok'', hcores.trans hcores'⟩

namespace Stack

variable {stack stack' : Stack τ}
variable {fuel version1 version2 : Nat}

/-- A merge adds the links of one head's node to that of another head, and removes the head. -/
theorem merge_cases {merged : Bool}
    (h : stack.merge view fuel version1 version2 = some (stack', merged)) :
    merged = false ∧ stack' = stack ∨ merged = true ∧
      stack.canMerge view version1 version2 = some true ∧ ∃ head1 head2 nodes head,
        stack.heads[version1]? = some head1 ∧ stack.heads[version2]? = some head2 ∧
        addLinks view fuel stack.nodes head1.node head2.node 0 = some nodes ∧
        head.node = head1.node ∧ stack' = { stack with
          nodes, heads := (stack.heads.set version1 head).eraseIdx version2 } := by
  obtain ⟨can, hcan, h⟩ := bind_eq_some_iff.mp h
  split at h
  · obtain ⟨head1, hhead1, h⟩ := bind_eq_some_iff.mp h
    obtain ⟨head2, hhead2, h⟩ := bind_eq_some_iff.mp h
    obtain ⟨nodes, hnodes, h⟩ := bind_eq_some_iff.mp h
    obtain ⟨node1, -, h⟩ := bind_eq_some_iff.mp h
    obtain ⟨removed, hremoved, h⟩ := bind_eq_some_iff.mp h
    obtain ⟨-, -, hremoved⟩ := bind_eq_some_iff.mp hremoved
    cases hremoved
    cases h
    subst can
    exact .inr ⟨rfl, hcan, head1, head2, nodes, _, hhead1, hhead2, hnodes, by split <;> rfl, rfl⟩
  · cases h
    exact .inl ⟨rfl, rfl⟩

theorem merge_linksOk (h : LinksOk view stack.nodes) {merged : Bool}
    (hmerge : stack.merge view fuel version1 version2 = some (stack', merged)) :
    LinksOk view stack'.nodes := by
  rcases merge_cases hmerge with
    ⟨-, rfl⟩ | ⟨-, hcan, head1, head2, nodes, head, hhead1, hhead2, hnodes, -, rfl⟩
  · exact h
  · simp only [canMerge, hhead1, hhead2, bind_eq_bind, bind_some] at hcan
    obtain ⟨node1, hnode1, hcan⟩ := bind_eq_some_iff.mp hcan
    obtain ⟨node2, hnode2, hcan⟩ := bind_eq_some_iff.mp hcan
    simp only [Option.some.injEq, Bool.and_eq_true] at hcan
    exact ((addLink_addLinks_spec fuel).2 h hnode1 hnode2 hcan.1.2 hnodes).1

/-! ### Runs -/

variable (view)

/-- One call of a function of the stack; the loops of those that walk over it have ended. -/
inductive Step : Stack τ → Stack τ → Prop where
  | clear {stack : Stack τ} : Step stack stack.clear
  | push {stack stack' : Stack τ} (version : Nat) (subtree : Option τ) (pending : Bool)
      (state : Nat) (h : stack.push view version subtree pending state = some stack') :
      Step stack stack'
  | popCount {stack stack' : Stack τ} (fuel version count : Nat) (slices : List (StackSlice τ))
      (h : stack.popCount view fuel version count = some (stack', slices)) : Step stack stack'
  | popPending {stack stack' : Stack τ} (fuel version : Nat) (slices : List (StackSlice τ))
      (h : stack.popPending view fuel version = some (stack', slices)) : Step stack stack'
  | popError {stack stack' : Stack τ} (fuel version : Nat) (subtrees : List τ)
      (h : stack.popError view fuel version = some (stack', subtrees)) : Step stack stack'
  | popAll {stack stack' : Stack τ} (fuel version : Nat) (slices : List (StackSlice τ))
      (h : stack.popAll view fuel version = some (stack', slices)) : Step stack stack'
  | recordSummary {stack stack' : Stack τ} (fuel version maxDepth : Nat)
      (h : stack.recordSummary view fuel version maxDepth = some stack') : Step stack stack'
  | merge {stack stack' : Stack τ} (fuel version1 version2 : Nat) (merged : Bool)
      (h : stack.merge view fuel version1 version2 = some (stack', merged)) : Step stack stack'
  | copyVersion {stack stack' : Stack τ} (version version' : Nat)
      (h : stack.copyVersion version = some (stack', version')) : Step stack stack'
  | renumberVersion {stack stack' : Stack τ} (v1 v2 : Nat)
      (h : stack.renumberVersion v1 v2 = some stack') : Step stack stack'
  | swapVersions {stack stack' : Stack τ} (v1 v2 : Nat)
      (h : stack.swapVersions v1 v2 = some stack') : Step stack stack'
  | removeVersion {stack stack' : Stack τ} (version : Nat)
      (h : stack.removeVersion version = some stack') : Step stack stack'
  | halt {stack stack' : Stack τ} (version : Nat) (h : stack.halt version = some stack') :
      Step stack stack'
  | pause {stack stack' : Stack τ} (version : Nat) (lookahead : Option τ)
      (h : stack.pause version lookahead = some stack') : Step stack stack'
  | resume {stack stack' : Stack τ} (version : Nat) (lookahead : Option τ)
      (h : stack.resume version = some (stack', lookahead)) : Step stack stack'
  | setLastExternalToken {stack stack' : Stack τ} (version : Nat) (token : Option τ)
      (h : stack.setLastExternalToken version token = some stack') : Step stack stack'
  | nodeCountSinceError {stack stack' : Stack τ} (version count : Nat)
      (h : stack.nodeCountSinceError version = some (stack', count)) : Step stack stack'

/-- A stack that calls lead to, from a new one. -/
inductive Reachable : Stack τ → Prop where
  | new : Reachable new
  | step {stack stack' : Stack τ} (h : Reachable stack) (hstep : Step view stack stack') :
      Reachable stack'

variable {view}

/-- **Only a push and a merge change nodes.** -/
theorem Step.cases (hstep : Step view stack stack') : MovesHeads stack stack' ∨
    (∃ version subtree pending state, stack.push view version subtree pending state = some stack') ∨
    ∃ fuel version1 version2, stack.merge view fuel version1 version2 = some (stack', true) := by
  cases hstep with
  | push version subtree pending state h => exact .inr (.inl ⟨version, subtree, pending, state, h⟩)
  | merge fuel version1 version2 merged h =>
    rcases merge_cases h with ⟨-, rfl⟩ | ⟨rfl, -⟩
    · exact .inl (.refl _)
    · exact .inr (.inr ⟨fuel, version1, version2, h⟩)
  | clear =>
    refine .inl ⟨rfl, rfl, fun x hx => ?_⟩
    rw [mem_singleton.mp hx]
    exact .base
  | popCount fuel version count slices h | popAll fuel version slices h =>
    obtain ⟨⟨walked, popped, payload⟩, hiter, h⟩ := bind_eq_some_iff.mp h
    cases h
    exact .inl (iter_moves hiter)
  | popPending fuel version slices h =>
    obtain ⟨⟨walked, popped, payload⟩, hiter, h⟩ := bind_eq_some_iff.mp h
    cases popped with
    | nil =>
      cases h
      exact .inl (iter_moves hiter)
    | cons slice popped =>
      obtain ⟨renumbered, hrenumber, h⟩ := bind_eq_some_iff.mp h
      cases h
      exact .inl ((iter_moves hiter).trans (renumberVersion_moves hrenumber))
  | popError fuel version subtrees h =>
    obtain ⟨head, -, h⟩ := bind_eq_some_iff.mp h
    obtain ⟨node, -, h⟩ := bind_eq_some_iff.mp h
    split at h
    · obtain ⟨⟨walked, popped, payload⟩, hiter, h⟩ := bind_eq_some_iff.mp h
      dsimp only at h
      split at h
      · cases h
        exact .inl (iter_moves hiter)
      · obtain ⟨renumbered, hrenumber, h⟩ := bind_eq_some_iff.mp h
        cases h
        exact .inl ((iter_moves hiter).trans (renumberVersion_moves hrenumber))
      · cases h
    · cases h
      exact .inl (.refl _)
  | recordSummary fuel version maxDepth h =>
    obtain ⟨⟨walked, slices, summary⟩, hiter, h⟩ := bind_eq_some_iff.mp h
    obtain ⟨head, hhead, h⟩ := bind_eq_some_iff.mp h
    cases h
    exact .inl ((iter_moves hiter).trans (.set hhead rfl))
  | copyVersion version version' h =>
    obtain ⟨head, hhead, h⟩ := bind_eq_some_iff.mp h
    cases h
    refine .inl ⟨rfl, rfl, fun x hx => ?_⟩
    rcases mem_append.mp hx with hx | hx
    · exact .head hx
    · have hin := inUse_getElem? hhead
      rwa [mem_singleton.mp hx]
  | renumberVersion v1 v2 h => exact .inl (renumberVersion_moves h)
  | swapVersions v1 v2 h =>
    obtain ⟨head1, hhead1, h⟩ := bind_eq_some_iff.mp h
    obtain ⟨head2, hhead2, h⟩ := bind_eq_some_iff.mp h
    cases h
    refine .inl ⟨rfl, rfl, fun x hx => ?_⟩
    rcases mem_or_eq_of_mem_set hx with hx | rfl
    · exact inUse_set (inUse_getElem? hhead2) x hx
    · exact inUse_getElem? hhead1
  | removeVersion version h =>
    obtain ⟨head, -, h⟩ := bind_eq_some_iff.mp h
    cases h
    exact .inl ⟨rfl, rfl, fun x hx => .head (mem_of_mem_eraseIdx hx)⟩
  | halt version h | setLastExternalToken version token h =>
    obtain ⟨head, hhead, h⟩ := bind_eq_some_iff.mp h
    cases h
    exact .inl (.set hhead rfl)
  | pause version lookahead h =>
    obtain ⟨head, hhead, h⟩ := bind_eq_some_iff.mp h
    obtain ⟨node, -, h⟩ := bind_eq_some_iff.mp h
    cases h
    exact .inl (.set hhead rfl)
  | resume version lookahead h =>
    obtain ⟨head, hhead, h⟩ := bind_eq_some_iff.mp h
    split at h
    · cases h
      exact .inl (.set hhead rfl)
    · cases h
  | nodeCountSinceError version count h =>
    obtain ⟨head, hhead, h⟩ := bind_eq_some_iff.mp h
    obtain ⟨node, -, h⟩ := bind_eq_some_iff.mp h
    split at h
    · cases h
      exact .inl (.set hhead rfl)
    · cases h
      exact .inl (.refl _)

theorem Step.keepsLinks (hstep : Step view stack stack') (h : LinksOk view stack.nodes) :
    LinksOk view stack'.nodes := by
  rcases hstep.cases with hmoves | ⟨version, subtree, pending, state, hpush⟩ |
    ⟨fuel, version1, version2, hmerge⟩
  · exact hmoves.nodes ▸ h
  · exact push_linksOk h hpush
  · exact merge_linksOk h hmerge

theorem Reachable.ok (h : Reachable view stack) : LinksOk view stack.nodes := by
  induction h with
  | new =>
    intro i node hnode link hlink
    obtain rfl := mem_singleton.mp (mem_of_getElem? hnode)
    cases hlink
  | step _ hstep ih => exact hstep.keepsLinks ih

/-- **Consistency of the stack.** In every run, each link leads to a predecessor whose position and
error cost, with those of the link's subtree, are the position and the error cost of the node. -/
theorem Reachable.linksOk (h : Reachable view stack) {i : Nat} {node : StackNode τ}
    (hnode : stack.nodes[i]? = some node) {link : StackLink τ} (hlink : link ∈ node.links) :
    ∃ predecessor, stack.nodes[link.node]? = some predecessor ∧
      predecessor.endByte view link.subtree = node.position.bytes ∧
      predecessor.costWith view link.subtree = node.errorCost := by
  exact h.ok i node hnode link hlink

def threeBytes (symbol : Nat) : SubtreeView where
  symbol := symbol
  padding := .zero
  size := ⟨3, 0, 3⟩
  childCount := 0
  errorCost := 0
  visible := true
  extra := false
  visibleDescendantCount := 0
  dynamicPrecedence := 0
  externalScannerState := []

/-- Two versions that reach the same state over different subtrees, and are merged. -/
def mergedVersions : Option (Stack Nat) := do
  let (stack, _) ← Stack.new.copyVersion 0
  let stack ← stack.push threeBytes 0 (some 2) false 7
  let stack ← stack.push threeBytes 1 (some 3) false 7
  let (stack, _) ← stack.merge threeBytes 3 0 1
  some stack

theorem Reachable.linksOk_merged :
    ∃ stack node predecessor, Reachable threeBytes stack ∧ stack.nodes[1]? = some node ∧
      ⟨0, some 3, false⟩ ∈ node.links ∧ stack.nodes[0]? = some predecessor ∧
      predecessor.endByte threeBytes (some 3) = node.position.bytes := by
  obtain ⟨stack, hstack⟩ := isSome_iff_exists.mp
    (show mergedVersions.isSome by decide +kernel)
  have hlinks : (mergedVersions.bind fun stack => stack.nodes[1]?).map StackNode.links =
      some [⟨0, some 2, false⟩, ⟨0, some 3, false⟩] := by
    decide +kernel
  rw [hstack, bind_some] at hlinks
  obtain ⟨node, hnode, hnodeLinks⟩ := map_eq_some_iff.mp hlinks
  unfold mergedVersions at hstack
  obtain ⟨⟨stack₁, version⟩, hcopy, hstack⟩ := bind_eq_some_iff.mp hstack
  obtain ⟨stack₂, hpush, hstack⟩ := bind_eq_some_iff.mp hstack
  obtain ⟨stack₃, hpush', hstack⟩ := bind_eq_some_iff.mp hstack
  obtain ⟨⟨stack₄, merged⟩, hmerge, hstack⟩ := bind_eq_some_iff.mp hstack
  obtain rfl := Option.some.inj hstack
  have hreach : Reachable threeBytes stack₄ :=
    .step (.step (.step (.step .new (.copyVersion 0 version hcopy)) (.push 0 _ _ _ hpush))
      (.push 1 _ _ _ hpush')) (.merge 3 0 1 merged hmerge)
  have hlink : (⟨0, some 3, false⟩ : StackLink Nat) ∈ node.links := by
    rw [hnodeLinks]
    exact mem_cons_of_mem _ (mem_singleton.mpr rfl)
  obtain ⟨predecessor, hpredecessor, hend, -⟩ := hreach.linksOk hnode hlink
  exact ⟨stack₄, node, predecessor, hreach, hnode, hlink, hpredecessor, hend⟩

end Stack

end TreeSitter.Lib
