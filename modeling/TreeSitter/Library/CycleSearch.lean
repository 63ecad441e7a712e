import Mathlib

/-!
# TreeSitter.Library.CycleSearch

**Cycles of a finite graph, by depth-first search.** The search keeps the path from where it
started, and the nodes that it has visited. It stops at a node that is on the path: what follows
that node there is a cycle (`search_found`). A node that it leaves is settled: its successors are
settled too, and it is on no cycle (`search_missed`); so a search that finds nothing from any node
means that there is no cycle.
-/

namespace Library.CycleSearch

open List

variable {α : Type*}

/-- **A cycle**: distinct nodes, each with an edge to the next one, the last one to the first. -/
structure IsCycle (E : α → α → Prop) (a : α) (as : List α) : Prop where
  nodup : (a :: as).Nodup
  edges : (a :: as ++ [a]).IsChain E

variable {E : α → α → Prop} {as : List α} {a : α}

theorem IsCycle.imp {E' : α → α → Prop} (h : IsCycle E a as) (himp : ∀ x y, E x y → E' x y) :
    IsCycle E' a as :=
  ⟨h.nodup, h.edges.imp himp⟩

theorem transGen_of_isChain {b : α} : ∀ {a : α} {as : List α},
    (a :: as ++ [b]).IsChain E → Relation.TransGen E a b := by
  intro a as
  induction as generalizing a with
  | nil => exact fun h => .single (isChain_pair.mp h)
  | cons c as ih =>
    intro h
    obtain ⟨hac, hrest⟩ := isChain_cons_cons.mp h
    exact .head hac (ih hrest)

theorem exists_edge_of_isChain {b : α} : ∀ {as : List α},
    (as ++ [b]).IsChain E → ∀ x ∈ as, ∃ y, E x y := by
  intro as
  induction as with
  | nil => simp
  | cons a as ih =>
    intro h x hx
    cases as with
    | nil =>
      rw [mem_singleton.mp hx]
      exact ⟨b, isChain_pair.mp h⟩
    | cons c as =>
      obtain ⟨hac, hrest⟩ := isChain_cons_cons.mp h
      rcases mem_cons.mp hx with rfl | hx
      · exact ⟨c, hac⟩
      · exact ih hrest x hx

/-- **A cycle under a map** that keeps its nodes apart and takes its edges to edges. -/
theorem IsCycle.map {β : Type*} {E' : β → β → Prop} (h : IsCycle E a as) (f : α → β)
    (hinj : ∀ x ∈ a :: as, ∀ y ∈ a :: as, f x = f y → x = y)
    (hedge : ∀ x ∈ a :: as, ∀ y ∈ a :: as, E x y → E' (f x) (f y)) :
    IsCycle E' (f a) (as.map f) := by
  have hmem : ∀ x ∈ a :: as ++ [a], x ∈ a :: as := by
    intro x hx
    rcases mem_append.mp hx with hx | hx
    · exact hx
    · rw [mem_singleton.mp hx]
      exact mem_cons_self
  constructor
  · rw [← map_cons]
    exact h.nodup.map_on hinj
  · have hchain : ((a :: as ++ [a]).map f).IsChain E' := by
      rw [isChain_map]
      exact h.edges.imp_of_mem_imp fun x y hx hy => hedge x (hmem x hx) y (hmem y hy)
    rwa [map_append, map_cons] at hchain

theorem IsCycle.transGen (h : IsCycle E a as) :
    Relation.TransGen E a a := transGen_of_isChain h.edges

theorem nodup_concat (h : as.Nodup) (ha : a ∉ as) : (as ++ [a]).Nodup := by
  rw [← concat_eq_append]
  exact h.concat ha

/-! ### Settled nodes -/

section Settled

/-- The edges of a graph. -/
def Edge (next : α → List α) (a b : α) : Prop := b ∈ next a

/-- The search has left a node. -/
def Left (visited path : List α) (x : α) : Prop := x ∈ visited ∧ x ∉ path

/-- **What the search has left is settled**: all of its successors are, and it is on no cycle. -/
structure Settled (next : α → List α) (visited path : List α) : Prop where
  entered : ∀ x ∈ path, x ∈ visited
  closed : ∀ x, Left visited path x → ∀ y ∈ next x, Left visited path y
  acyclic : ∀ x, Left visited path x → ¬ Relation.TransGen (Edge next) x x

theorem settled_nil (next : α → List α) : Settled next [] [] where
  entered := by simp
  closed := by simp [Left]
  acyclic := by simp [Left]

variable {next : α → List α} {visited visited' path : List α} {current : α}

theorem Settled.left_of_transGen (h : Settled next visited path) {x y : α}
    (hx : Left visited path x) (hxy : Relation.TransGen (Edge next) x y) :
    Left visited path y := by
  induction hxy with
  | single hedge => exact h.closed x hx _ hedge
  | tail _ hedge ih => exact h.closed _ ih _ hedge

theorem Settled.enter (h : Settled next visited path) (hcurrent : current ∉ visited) :
    Settled next (current :: visited) (path ++ [current]) := by
  have hleft : ∀ x, Left (current :: visited) (path ++ [current]) x ↔ Left visited path x := by
    intro x
    unfold Left
    rw [mem_cons, mem_append, mem_singleton]
    constructor
    · rintro ⟨rfl | hx, hnot⟩
      · exact absurd (Or.inr rfl) hnot
      · exact ⟨hx, fun hpath => hnot (Or.inl hpath)⟩
    · rintro ⟨hx, hnot⟩
      refine ⟨Or.inr hx, ?_⟩
      rintro (hpath | rfl)
      · exact hnot hpath
      · exact hcurrent hx
  constructor
  · intro x hx
    rcases mem_append.mp hx with hx | hx
    · exact mem_cons_of_mem _ (h.entered x hx)
    · rw [mem_singleton.mp hx]
      exact mem_cons_self
  · intro x hx y hy
    exact (hleft y).mpr (h.closed x ((hleft x).mp hx) y hy)
  · exact fun x hx => h.acyclic x ((hleft x).mp hx)

theorem Settled.leave (h : Settled next visited (path ++ [current])) (hpath : current ∉ path)
    (hnext : ∀ y ∈ next current, Left visited (path ++ [current]) y) :
    Settled next visited path := by
  have hvisited : current ∈ visited := h.entered current (by simp)
  have hcurrent : ¬ Left visited (path ++ [current]) current := fun hleft => hleft.2 (by simp)
  have hleft : ∀ x, Left visited path x ↔ Left visited (path ++ [current]) x ∨ x = current := by
    intro x
    unfold Left
    rw [mem_append, mem_singleton, not_or]
    constructor
    · rintro ⟨hx, hnot⟩
      by_cases hxc : x = current
      · exact Or.inr hxc
      · exact Or.inl ⟨hx, hnot, hxc⟩
    · rintro (⟨hx, hnot, -⟩ | rfl)
      · exact ⟨hx, hnot⟩
      · exact ⟨hvisited, hpath⟩
  constructor
  · exact fun x hx => h.entered x (mem_append_left _ hx)
  · intro x hx y hy
    rcases (hleft x).mp hx with hx | rfl
    · exact (hleft y).mpr (Or.inl (h.closed x hx y hy))
    · exact (hleft y).mpr (Or.inl (hnext y hy))
  · intro x hx hcycle
    rcases (hleft x).mp hx with hx | rfl
    · exact h.acyclic x hx hcycle
    · -- Its successors have been left, and so has what they reach.
      obtain ⟨y, hedge, hrest⟩ := Relation.TransGen.head'_iff.mp hcycle
      rcases Relation.reflTransGen_iff_eq_or_transGen.mp hrest with rfl | hrest
      · exact hcurrent (hnext _ hedge)
      · exact hcurrent (h.left_of_transGen (hnext y hedge) hrest)

end Settled

/-! ### The search -/

section Search

variable [DecidableEq α] (next : α → List α)

/-- What a search comes to: a path that ends in a node that is on it already, at an index, or the
nodes that have been visited. -/
inductive Result (α : Type*) where
  | found (path : List α) (first : Nat)
  | missed (visited : List α)

/-- The search from each of some nodes, until a cycle is found. -/
def searchAny (step : α → List α → List α → Option (Result α)) :
    List α → List α → List α → Option (Result α)
  | [], visited, _ => some (.missed visited)
  | a :: as, visited, path =>
    (step a visited path).bind fun
      | .found path first => some (.found path first)
      | .missed visited => searchAny step as visited path

/-- The search from a node; `none` if it goes deeper than the given bound. -/
def search : Nat → α → List α → List α → Option (Result α)
  | 0, _, _, _ => none
  | fuel + 1, current, visited, path =>
    if current ∈ path then some (.found (path ++ [current]) (path.idxOf current))
    else if current ∈ visited then some (.missed visited)
    else searchAny (search fuel) (next current) (current :: visited) (path ++ [current])

/-! ### What is found -/

/-- A path that ends in one of its nodes has a cycle behind the first one. -/
theorem isCycle_of_mem {E : α → α → Prop} {path : List α} {a : α} (hnodup : path.Nodup)
    (hedges : (path ++ [a]).IsChain E) (ha : a ∈ path) :
    ∃ as, (path ++ [a]).drop (path.idxOf a) = a :: as ++ [a] ∧ IsCycle E a as := by
  have hlt : path.idxOf a < path.length := idxOf_lt_length_of_mem ha
  have hdrop : path.drop (path.idxOf a) = a :: path.drop (path.idxOf a + 1) := by
    rw [drop_eq_getElem_cons hlt, getElem_idxOf hlt]
  have hdrop' : (path ++ [a]).drop (path.idxOf a) = a :: path.drop (path.idxOf a + 1) ++ [a] := by
    rw [drop_append_of_le_length hlt.le, hdrop]
  refine ⟨path.drop (path.idxOf a + 1), hdrop', ?_, ?_⟩
  · rw [← hdrop]
    exact hnodup.sublist (drop_sublist _ _)
  · rw [← hdrop']
    exact hedges.drop _

variable {next}

/-- **What is found is a cycle.** -/
theorem search_found : ∀ {fuel : Nat} {current : α} {visited path path' : List α} {first : Nat},
    path.Nodup → (path ++ [current]).IsChain (Edge next) →
    search next fuel current visited path = some (.found path' first) →
    ∃ a as, path'.drop first = a :: as ++ [a] ∧ IsCycle (Edge next) a as := by
  intro fuel
  induction fuel with
  | zero =>
    intro current visited path path' first _ _ h
    cases h
  | succ fuel ih =>
    intro current visited path path' first hnodup hedges h
    rw [search] at h
    split_ifs at h with hpath hvisited
    · cases h
      obtain ⟨as, hdrop, hcycle⟩ := isCycle_of_mem hnodup hedges hpath
      exact ⟨current, as, hdrop, hcycle⟩
    · cases h
    · have hnodup' := nodup_concat hnodup hpath
      have hany : ∀ (as visited : List α), (∀ a ∈ as, a ∈ next current) →
          searchAny (search next fuel) as visited (path ++ [current]) =
            some (.found path' first) →
          ∃ a as, path'.drop first = a :: as ++ [a] ∧ IsCycle (Edge next) a as := by
        intro as
        induction as with
        | nil =>
          intro visited _ h
          cases h
        | cons a as ihas =>
          intro visited has h
          obtain ⟨result, hstep, h⟩ := Option.bind_eq_some_iff.mp h
          cases result with
          | found p i =>
            cases h
            refine ih hnodup' ?_ hstep
            rw [append_assoc]
            refine isChain_split.mpr ?_
            exact ⟨hedges, isChain_pair.mpr (has a mem_cons_self)⟩
          | missed visited =>
            exact ihas visited (fun b hb => has b (mem_cons_of_mem _ hb)) h
      exact hany _ _ (fun _ ha => ha) h

/-! ### What is missed -/

/-- **What a search has left is settled**, if it finds nothing. -/
theorem search_missed : ∀ {fuel : Nat} {current : α} {visited visited' path : List α},
    Settled next visited path → search next fuel current visited path = some (.missed visited') →
    Settled next visited' path ∧ visited ⊆ visited' ∧ Left visited' path current := by
  intro fuel
  induction fuel with
  | zero =>
    intro current visited visited' path _ h
    cases h
  | succ fuel ih =>
    intro current visited visited' path hsettled h
    rw [search] at h
    split_ifs at h with hpath hvisited
    · cases h
    · cases h
      exact ⟨hsettled, List.Subset.refl _, hvisited, hpath⟩
    · have hany : ∀ (as visited : List α), Settled next visited (path ++ [current]) →
          searchAny (search next fuel) as visited (path ++ [current]) =
            some (.missed visited') →
          Settled next visited' (path ++ [current]) ∧ visited ⊆ visited' ∧
            ∀ a ∈ as, Left visited' (path ++ [current]) a := by
        intro as
        induction as with
        | nil =>
          intro visited hsettled h
          cases h
          exact ⟨hsettled, List.Subset.refl _, by simp⟩
        | cons a as ihas =>
          intro visited hsettled h
          obtain ⟨result, hstep, h⟩ := Option.bind_eq_some_iff.mp h
          cases result with
          | found p i => cases h
          | missed visited₁ =>
            obtain ⟨hsettled₁, hsub, hleft⟩ := ih hsettled hstep
            obtain ⟨hsettled₂, hsub', hall⟩ := ihas visited₁ hsettled₁ h
            exact ⟨hsettled₂, List.Subset.trans hsub hsub',
              forall_mem_cons.mpr ⟨⟨hsub' hleft.1, hleft.2⟩, hall⟩⟩
      obtain ⟨hsettled', hsub, hall⟩ := hany _ _ (hsettled.enter hvisited) h
      refine ⟨hsettled'.leave hpath hall, fun x hx => hsub (mem_cons_of_mem _ hx),
        hsub mem_cons_self, hpath⟩

/-! ### The bound -/

/-- **A bound larger than the number of nodes is enough.** -/
theorem search_isSome {nodes : List α} (hclosed : ∀ x ∈ nodes, ∀ y ∈ next x, y ∈ nodes) :
    ∀ {fuel : Nat} {current : α} {visited path : List α}, path.Nodup → path ⊆ nodes →
      current ∈ nodes → nodes.length < fuel + path.length →
      ∃ result, search next fuel current visited path = some result := by
  intro fuel
  induction fuel with
  | zero =>
    intro current visited path hnodup hsub _ hlt
    have hle := (hnodup.subperm hsub).length_le
    omega
  | succ fuel ih =>
    intro current visited path hnodup hsub hcurrent hlt
    rw [search]
    split_ifs with hpath hvisited
    · exact ⟨_, rfl⟩
    · exact ⟨_, rfl⟩
    · have hnodup' := nodup_concat hnodup hpath
      have hsub' : path ++ [current] ⊆ nodes :=
        append_subset.mpr ⟨hsub, by simpa using hcurrent⟩
      have hany : ∀ (as visited : List α), (∀ a ∈ as, a ∈ nodes) →
          ∃ result, searchAny (search next fuel) as visited (path ++ [current]) =
            some result := by
        intro as
        induction as with
        | nil => exact fun visited _ => ⟨_, rfl⟩
        | cons a as ihas =>
          intro visited has
          obtain ⟨ha, has⟩ := forall_mem_cons.mp has
          obtain ⟨result, hstep⟩ := ih hnodup' hsub' ha (by simp; omega)
          rw [searchAny, hstep, Option.bind_some]
          cases result with
          | found p i => exact ⟨_, rfl⟩
          | missed visited => exact ihas visited has
      exact hany _ _ (hclosed current hcurrent)

end Search

end Library.CycleSearch
