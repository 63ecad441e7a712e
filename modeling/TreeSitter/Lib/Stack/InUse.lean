import TreeSitter.Lib.Stack

/-!
# TreeSitter.Lib.Stack.InUse

**The nodes in use**: those that links lead to from a head of the stack. The C code frees the
others. Apart from a push and a merge, calls leave the nodes alone and put heads on nodes in use
only (`Stack.Step.cases`).
-/

namespace TreeSitter.Lib

open Option List

variable {τ : Type} (view : τ → SubtreeView)

/-! ### What a walk leaves in use -/

section Walk

variable {view} {P : Nat → Prop} {nodes : List (StackNode τ)}

theorem follow_node (iterator : StackIterator τ) (includeSubtrees : Bool) (link : StackLink τ) :
    (iterator.follow view includeSubtrees link).node = link.node := by
  unfold StackIterator.follow
  split <;> rfl

theorem followLinks_in {iterator : StackIterator τ} {includeSubtrees : Bool}
    {links : List (StackLink τ)} {iterators : List (StackIterator τ)}
    (h : ∀ x ∈ iterators, P x.node) (hlinks : ∀ link ∈ links, P link.node) :
    ∀ x ∈ followLinks view iterator includeSubtrees links iterators, P x.node := by
  induction links generalizing iterators with
  | nil => exact h
  | cons link links ih =>
    rw [followLinks]
    have hrest := fun other hother => hlinks other (mem_cons_of_mem _ hother)
    split
    · exact ih h hrest
    · refine ih (fun x hx => ?_) hrest
      rcases mem_append.mp hx with hx | hx
      · exact h x hx
      · rw [mem_singleton.mp hx, follow_node]
        exact hlinks link (mem_cons_self ..)

theorem addSlice_in {heads heads' : List (StackHead τ)} {slices slices' : List (StackSlice τ)}
    {version node : Nat} {subtrees : List τ} (h : ∀ head ∈ heads, P head.node) (hnode : P node)
    (hadd : addSlice heads slices version node subtrees = some (heads', slices')) :
    ∀ head ∈ heads', P head.node := by
  obtain ⟨found, -, hadd⟩ := bind_eq_some_iff.mp hadd
  cases found with
  | some found =>
    cases hadd
    exact h
  | none =>
    obtain ⟨added, hversion, hadd⟩ := bind_eq_some_iff.mp hadd
    cases hadd
    obtain ⟨original, -, hversion⟩ := bind_eq_some_iff.mp hversion
    cases hversion
    intro head hhead
    rcases mem_append.mp hhead with hhead | hhead
    · exact h head hhead
    · rw [mem_singleton.mp hhead]
      exact hnode

variable {σ : Type} {version : Nat} {callback : StackCallback τ σ} {includeSubtrees : Bool}

/-- The heads and the iterators of a walk stand on nodes with the property. -/
def WalkIn (P : Nat → Prop) (walk : StackWalk τ σ) : Prop :=
  (∀ head ∈ walk.heads, P head.node) ∧ ∀ iterator ∈ walk.iterators, P iterator.node

variable {walk' walk : StackWalk τ σ}

section

variable (hclosed : ∀ i node, P i → nodes[i]? = some node → ∀ link ∈ node.links, P link.node)

include hclosed

theorem iterOne_in {i : Nat} {removed : Bool}

    (h : WalkIn P walk)
    (hone : iterOne view nodes version callback includeSubtrees walk i = some (walk', removed)) :
    WalkIn P walk' := by
  obtain ⟨iterator, hiterator, hone⟩ := bind_eq_some_iff.mp hone
  obtain ⟨node, hnode, hone⟩ := bind_eq_some_iff.mp hone
  have hin := h.2 iterator (mem_of_getElem? hiterator)
  dsimp only at hone
  obtain ⟨⟨heads, slices⟩, hslices, hone⟩ := bind_eq_some_iff.mp hone
  have hheads : ∀ head ∈ heads, P head.node := by
    split at hslices
    · exact addSlice_in h.1 hin hslices
    · cases hslices
      exact h.1
  have herase : ∀ x ∈ walk.iterators.eraseIdx i, P x.node :=
    fun x hx => h.2 x (mem_of_mem_eraseIdx hx)
  have hlinks := hclosed iterator.node node hin hnode
  split at hone
  · cases hone
    exact ⟨hheads, herase⟩
  · next first links heq =>
    rw [heq] at hlinks
    split at hone
    · cases hone
      exact ⟨hheads, herase⟩
    · cases hone
      refine ⟨hheads, fun x hx => ?_⟩
      rcases mem_or_eq_of_mem_set hx with hx | rfl
      · exact followLinks_in h.2 (fun link hlink => hlinks link (mem_cons_of_mem _ hlink)) x hx
      · rw [follow_node]
        exact hlinks first (mem_cons_self ..)

theorem iterRound_in {count i : Nat}

    (h : WalkIn P walk)
    (hround : iterRound view nodes version callback includeSubtrees count walk i = some walk') :
    WalkIn P walk' := by
  induction count generalizing walk i with
  | zero =>
    cases hround
    exact h
  | succ count ih =>
    obtain ⟨⟨next, removed⟩, hone, hround⟩ := bind_eq_some_iff.mp hround
    exact ih (iterOne_in hclosed h hone) hround

theorem iterRounds_in {fuel : Nat}

    (h : WalkIn P walk)
    (hrounds : iterRounds view nodes version callback includeSubtrees fuel walk = some walk') :
    WalkIn P walk' := by
  induction fuel generalizing walk with
  | zero => cases hrounds
  | succ fuel ih =>
    rw [iterRounds] at hrounds
    split at hrounds
    · obtain ⟨next, hround, hrounds⟩ := bind_eq_some_iff.mp hrounds
      exact ih (iterRound_in hclosed h hround) hrounds
    · cases hrounds
      exact h

end

end Walk

namespace Stack

/-- The nodes that links lead to from a head, and the one at the bottom. -/
inductive InUse (stack : Stack τ) : Nat → Prop where
  | base : InUse stack stack.baseNode
  | head {head : StackHead τ} (h : head ∈ stack.heads) : InUse stack head.node
  | link {i : Nat} {node : StackNode τ} {link : StackLink τ} (h : InUse stack i)
      (hnode : stack.nodes[i]? = some node) (hlink : link ∈ node.links) : InUse stack link.node

variable {stack stack' stack'' : Stack τ}

theorem InUse.of_closed {P : Nat → Prop} (hbase : P stack.baseNode)
    (hheads : ∀ head ∈ stack.heads, P head.node)
    (hclosed : ∀ i node, P i → stack.nodes[i]? = some node → ∀ link ∈ node.links, P link.node)
    {i : Nat} (h : InUse stack i) : P i := by
  induction h with
  | base => exact hbase
  | head h => exact hheads _ h
  | link _ hnode hlink ih => exact hclosed _ _ ih hnode _ hlink

theorem InUse.of_heads (hnodes : stack'.nodes = stack.nodes)
    (hbase : stack'.baseNode = stack.baseNode)
    (hheads : ∀ head ∈ stack'.heads, InUse stack head.node) {i : Nat} (h : InUse stack' i) :
    InUse stack i :=
  h.of_closed (hbase ▸ .base) hheads fun _ _ hi hnode _ hlink => .link hi (hnodes ▸ hnode) hlink

variable {view}

variable {version : Nat}

theorem inUse_getElem? {head : StackHead τ} (h : stack.heads[version]? = some head) :
    InUse stack head.node :=
  .head (mem_of_getElem? h)

theorem inUse_set {head : StackHead τ} (h : InUse stack head.node) :
    ∀ x ∈ stack.heads.set version head, InUse stack x.node := by
  intro x hx
  rcases mem_or_eq_of_mem_set hx with hx | rfl
  · exact .head hx
  · exact h

/-- The nodes are the same, and no head is on one that was not in use. -/
structure MovesHeads (stack stack' : Stack τ) : Prop where
  nodes : stack'.nodes = stack.nodes
  base : stack'.baseNode = stack.baseNode
  heads : ∀ head ∈ stack'.heads, InUse stack head.node

theorem MovesHeads.refl (stack : Stack τ) : MovesHeads stack stack := ⟨rfl, rfl, fun _ => .head⟩

theorem MovesHeads.trans (h : MovesHeads stack stack') (h' : MovesHeads stack' stack'') :
    MovesHeads stack stack'' :=
  ⟨h'.nodes.trans h.nodes, h'.base.trans h.base, fun head hhead =>
    (h'.heads head hhead).of_heads h.nodes h.base h.heads⟩

theorem MovesHeads.set {head head' : StackHead τ} (h : stack.heads[version]? = some head)
    (hnode : head'.node = head.node) :
    MovesHeads stack { stack with heads := stack.heads.set version head' } :=
  ⟨rfl, rfl, inUse_set (by rw [hnode]; exact inUse_getElem? h)⟩

theorem iter_moves {σ : Type} {fuel : Nat} {callback : StackCallback τ σ} {payload payload' : σ}
    {includeSubtrees : Bool} {slices : List (StackSlice τ)} (h : stack.iter view fuel version
      callback payload includeSubtrees = some (stack', slices, payload')) :
    MovesHeads stack stack' := by
  obtain ⟨head, hhead, h⟩ := bind_eq_some_iff.mp h
  obtain ⟨walk, hwalk, h⟩ := bind_eq_some_iff.mp h
  cases h
  refine ⟨rfl, rfl, (iterRounds_in (fun i node hi hnode link hlink => .link hi hnode hlink)
    ⟨fun x hx => .head hx, fun x hx => ?_⟩ hwalk).1⟩
  rw [mem_singleton.mp hx]
  exact inUse_getElem? hhead

theorem renumberVersion_moves {v1 v2 : Nat} (h : stack.renumberVersion v1 v2 = some stack') :
    MovesHeads stack stack' := by
  unfold renumberVersion at h
  split at h
  · cases h
    exact .refl stack
  · split at h
    · obtain ⟨source, hsource, h⟩ := bind_eq_some_iff.mp h
      obtain ⟨target, -, h⟩ := bind_eq_some_iff.mp h
      cases h
      have hin := inUse_getElem? hsource
      refine ⟨rfl, rfl, fun x hx => inUse_set ?_ x (mem_of_mem_eraseIdx hx)⟩
      split <;> exact hin
    · cases h

end Stack

end TreeSitter.Lib
