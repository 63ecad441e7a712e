import TreeSitter.Lib.Stack.Consistent
import TreeSitter.Library.Frontier

/-!
# TreeSitter.Lib.Stack.PopCount

**Popping a number of subtrees.** `ts_stack_pop_count` follows all paths back from a version's head
until they have the number of subtrees. Extra subtrees are not counted, and a link without a subtree
is. There is one slice for each of these paths, with its subtrees from left to right; the slices
that end at one node have one version, which is new (`Stack.popCount_slices`).

The iterators are a `Frontier` of the search for these paths, as long as their number suffices.
Each slice is put beside those that end at its node (`Collected`).
-/

namespace TreeSitter.Lib

open Option List Library

variable {τ : Type} (view : τ → SubtreeView)

/-! ### Paths -/

def StackLink.counts (link : StackLink τ) : Bool :=
  match link.subtree with
  | some tree => !(view tree).extra
  | none => true

/-- The links of a path back from a node, which is given by the number of the link at each node. -/
def linksAlong (nodes : List (StackNode τ)) : Nat → List Nat → Option (List (StackLink τ))
  | _, [] => some []
  | i, k :: path => do
      let node ← nodes[i]?
      let link ← node.links[k]?
      let links ← linksAlong nodes link.node path
      some (link :: links)

/-- The node at the end of a path. -/
def lastNode (i : Nat) (links : List (StackLink τ)) : Nat :=
  (links.getLast?.map StackLink.node).getD i

/-- A path back from a node that has the number of counted links, and ends with one of them. -/
structure PopPath (nodes : List (StackNode τ)) (i count : Nat) (path : List Nat)
    (links : List (StackLink τ)) : Prop where
  along : linksAlong nodes i path = some links
  counted : links.countP (StackLink.counts view) = count
  ends {link : StackLink τ} (h : links.getLast? = some link) : link.counts view

/-- What the slice for a path has: its subtrees from left to right, and the node where it ends. -/
def SliceOf (nodes : List (StackNode τ)) (i count : Nat) (path : List Nat)
    (slice : List τ × Option Nat) : Prop :=
  ∃ links, PopPath view nodes i count path links ∧
    slice.1 = (links.filterMap StackLink.subtree).reverse ∧ slice.2 = some (lastNode i links)

/-- The paths back from a node that do not have the number of counted links before they end are no
longer than some bound. -/
def PathsBounded (nodes : List (StackNode τ)) (i count : Nat) : Prop :=
  ∃ bound, ∀ path links, linksAlong nodes i path = some links →
    (∀ n < links.length, (links.take n).countP (StackLink.counts view) ≠ count) →
      path.length ≤ bound

/-- A link to the first node from the second is not counted. -/
def UncountedLink (nodes : List (StackNode τ)) (j i : Nat) : Prop :=
  ∃ (node : StackNode τ) (link : StackLink τ), nodes[i]? = some node ∧ link ∈ node.links ∧
    ¬ link.counts view = true ∧ link.node = j

/-- Links lead to nodes. -/
def LinksValid (nodes : List (StackNode τ)) : Prop :=
  ∀ (i : Nat) (node : StackNode τ), nodes[i]? = some node →
    ∀ link ∈ node.links, link.node < nodes.length

/-- The search of `ts_stack_pop_count`. -/
def popSearch (nodes : List (StackNode τ)) (count : Nat) : Search (StackIterator τ) where
  next iterator := (nodes[iterator.node]?.elim [] StackNode.links).map (iterator.follow view true)
  isGoal iterator := iterator.subtreeCount = count

/-- The iterator at the head of a version. -/
def StackIterator.start (node : Nat) : StackIterator τ := ⟨node, [], 0, true⟩

section Paths

variable {view} {nodes : List (StackNode τ)} {count : Nat}

theorem follow_count (iterator : StackIterator τ) (link : StackLink τ) :
    (iterator.follow view true link).subtreeCount =
      iterator.subtreeCount + (if link.counts view then 1 else 0) := by
  unfold StackIterator.follow StackLink.counts
  cases link.subtree with
  | none => rfl
  | some tree => cases hextra : (view tree).extra <;> simp [hextra]

theorem follow_subtrees (iterator : StackIterator τ) (link : StackLink τ) :
    (iterator.follow view true link).subtrees = iterator.subtrees ++ link.subtree.toList := by
  unfold StackIterator.follow
  cases link.subtree with
  | none => exact (append_nil _).symm
  | some tree => rfl

variable {path : List Nat}

theorem along_popSearch {iterator iterator' : StackIterator τ}
    (h : (popSearch view nodes count).along iterator path = some iterator') :
    ∃ links, linksAlong nodes iterator.node path = some links ∧
      iterator'.node = lastNode iterator.node links ∧
      iterator'.subtrees = iterator.subtrees ++ links.filterMap StackLink.subtree ∧
      iterator'.subtreeCount = iterator.subtreeCount + links.countP (StackLink.counts view) ∧
      ∀ n < links.length,
        iterator.subtreeCount + (links.take n).countP (StackLink.counts view) ≠ count := by
  induction path generalizing iterator with
  | nil =>
    cases h
    exact ⟨[], rfl, rfl, (append_nil _).symm, rfl, fun n hn => absurd hn (Nat.not_lt_zero n)⟩
  | cons k path ih =>
    rw [Search.along] at h
    split at h
    · cases h
    next hgoal =>
    obtain ⟨next, hnext, h⟩ := bind_eq_some_iff.mp h
    rw [popSearch, getElem?_map] at hnext
    obtain ⟨link, hlink, rfl⟩ := map_eq_some_iff.mp hnext
    cases hnode : nodes[iterator.node]? with
    | none =>
      rw [hnode] at hlink
      cases hlink
    | some node =>
    rw [hnode, elim_some] at hlink
    obtain ⟨links, hlinks, hlast, hsubtrees, hcount, hbefore⟩ := ih h
    rw [follow_node] at hlinks hlast
    rw [follow_subtrees, append_assoc] at hsubtrees
    refine ⟨link :: links, ?_, ?_, ?_, ?_, fun n hn => ?_⟩
    · simp only [linksAlong, hnode, hlink, hlinks, bind_eq_bind, bind_some]
    · rw [hlast]
      cases links with
      | nil => rfl
      | cons other links => simp [lastNode, getLast?_cons]
    · rw [hsubtrees, filterMap_cons]
      cases link.subtree <;> rfl
    · rw [hcount, follow_count, countP_cons]
      omega
    · cases n with
      | zero =>
        rw [take_zero, countP_nil, Nat.add_zero]
        exact fun heq => hgoal (decide_eq_true heq)
      | succ n =>
        have hne := hbefore n (Nat.lt_of_succ_lt_succ hn)
        rw [follow_count] at hne
        rw [take_succ_cons, countP_cons]
        omega

theorem goal_popSearch {iterator : StackIterator τ} :
    (∃ goal, (popSearch view nodes count).along iterator path = some goal ∧
      (popSearch view nodes count).isGoal goal = true) ↔
    ∃ links, linksAlong nodes iterator.node path = some links ∧
      iterator.subtreeCount + links.countP (StackLink.counts view) = count ∧
      ∀ link, links.getLast? = some link → link.counts view := by
  induction path generalizing iterator with
  | nil =>
    constructor
    · rintro ⟨goal, halong, hgoal⟩
      cases halong
      exact ⟨[], rfl, of_decide_eq_true hgoal, fun link hlast => by cases hlast⟩
    · rintro ⟨links, hlinks, hcount, -⟩
      cases hlinks
      exact ⟨iterator, rfl, decide_eq_true hcount⟩
  | cons k path ih =>
    rw [Search.along]
    split
    · next hgoal =>
      -- A path that has enough already cannot end with a counted link.
      refine iff_of_false (fun hfound => ?_) fun hpath => ?_
      · obtain ⟨_, halong, _⟩ := hfound
        cases halong
      obtain ⟨links, hlinks, hcount, hends⟩ := hpath
      have hzero : links.countP (StackLink.counts view) = 0 := by
        have hstart := of_decide_eq_true hgoal
        omega
      obtain ⟨node, -, hlinks⟩ := bind_eq_some_iff.mp hlinks
      obtain ⟨link, -, hlinks⟩ := bind_eq_some_iff.mp hlinks
      obtain ⟨rest, -, hlinks⟩ := bind_eq_some_iff.mp hlinks
      cases hlinks
      have hlast := getLast?_eq_some_getLast (cons_ne_nil link rest)
      exact absurd (hends _ hlast)
        (countP_eq_zero.mp hzero _ (getLast_mem (cons_ne_nil link rest)))
    next hgoal =>
    have hstart : iterator.subtreeCount ≠ count := fun heq => hgoal (decide_eq_true heq)
    cases hnode : nodes[iterator.node]? with
    | none =>
      simp [popSearch, linksAlong, hnode]
    | some node =>
    cases hlink : node.links[k]? with
    | none =>
      simp [popSearch, linksAlong, hnode, hlink]
    | some link =>
    have hnext : ((popSearch view nodes count).next iterator)[k]? =
        some (iterator.follow view true link) := by
      simp only [popSearch, hnode, elim_some, getElem?_map, hlink, map_some]
    rw [hnext, bind_some, ih, follow_node, follow_count]
    simp only [linksAlong, hnode, hlink, bind_eq_bind, bind_some]
    constructor
    · rintro ⟨rest, hrest, hcount, hends⟩
      refine ⟨link :: rest, by rw [hrest, bind_some],
        by rw [countP_cons]; omega, fun other hother => ?_⟩
      cases rest with
      | nil =>
        cases hother
        rw [countP_nil] at hcount
        split at hcount
        · assumption
        · exact absurd hcount hstart
      | cons first rest =>
        rw [getLast?_cons_cons] at hother
        exact hends other hother
    · rintro ⟨links, hlinks, hcount, hends⟩
      obtain ⟨rest, hrest, hlinks⟩ := bind_eq_some_iff.mp hlinks
      cases hlinks
      rw [countP_cons] at hcount
      refine ⟨rest, hrest, by omega, fun other hother => hends other ?_⟩
      cases rest with
      | nil => cases hother
      | cons first rest => rwa [getLast?_cons_cons]

theorem goal_popSearch_start {i : Nat} :
    (∃ goal, (popSearch view nodes count).along (.start i) path = some goal ∧
      (popSearch view nodes count).isGoal goal = true) ↔
    ∃ links, PopPath view nodes i count path links := by
  rw [goal_popSearch]
  refine exists_congr fun links => ⟨fun ⟨halong, hcount, hends⟩ => ?_, fun h => ?_⟩
  · exact ⟨halong, (Nat.zero_add _).symm.trans hcount, hends _⟩
  · exact ⟨h.along, (Nat.zero_add _).trans h.counted, fun _ => h.ends⟩

end Paths

/-! ### The slices -/

section Collect

variable {view}

/-- The slices for the iterators that were found. -/
def collect (heads : List (StackHead τ)) (version : Nat) (found : List (StackIterator τ)) :
    Option (List (StackHead τ) × List (StackSlice τ)) :=
  found.foldlM (fun collected iterator =>
    addSlice collected.1 collected.2 version iterator.node iterator.subtrees.reverse) (heads, [])

/-- **The slices are grouped by their ends**: they are in the order of their versions, which are new
ones, and the new versions are at different nodes. -/
structure Collected (before : List (StackHead τ)) (found : List (StackIterator τ))
    (heads : List (StackHead τ)) (slices : List (StackSlice τ)) : Prop where
  isPrefix : before <+: heads
  nodes : ((heads.drop before.length).map StackHead.node).Nodup
  sorted : slices.Pairwise fun slice slice' => slice.version ≤ slice'.version
  versions {slice : StackSlice τ} (h : slice ∈ slices) :
    before.length ≤ slice.version ∧ slice.version < heads.length
  used {version : Nat} (h : before.length ≤ version) (hlt : version < heads.length) :
    ∃ slice ∈ slices, slice.version = version
  perm : (slices.map fun slice => (slice.subtrees, heads[slice.version]?.map StackHead.node)).Perm
    (found.map fun iterator => (iterator.subtrees.reverse, some iterator.node))

variable {before heads : List (StackHead τ)} {slices : List (StackSlice τ)}
  {found : List (StackIterator τ)}

theorem Collected.version_eq (h : Collected before found heads slices)
    {slice slice' : StackSlice τ} (hslice : slice ∈ slices) (hslice' : slice' ∈ slices)
    (heq : heads[slice.version]?.map StackHead.node = heads[slice'.version]?.map StackHead.node) :
    slice.version = slice'.version := by
  obtain ⟨hle, hlt⟩ := h.versions hslice
  obtain ⟨hle', hlt'⟩ := h.versions hslice'
  have hget {v : Nat} (hv : before.length ≤ v) :
      ((heads.drop before.length).map StackHead.node)[v - before.length]? =
        heads[v]?.map StackHead.node := by
    rw [getElem?_map, getElem?_drop, Nat.add_sub_cancel' hv]
  have hlength : slice.version - before.length <
      ((heads.drop before.length).map StackHead.node).length := by
    rw [length_map, length_drop]
    omega
  have hsub : slice.version - before.length = slice'.version - before.length := by
    refine (getElem?_inj hlength h.nodes).mp ?_
    rw [hget hle, hget hle', heq]
  omega

theorem findSlice_spec (node : Nat) {n : Nat} (hn : n ≤ slices.length)
    (hvalid : ∀ slice ∈ slices, slice.version < heads.length) :
    (∃ i slice, findSlice heads slices node n = some (some (i, slice.version)) ∧
      slices[i]? = some slice ∧ heads[slice.version]?.map StackHead.node = some node) ∨
    (findSlice heads slices node n = some none ∧ ∀ i < n, ∀ slice, slices[i]? = some slice →
      heads[slice.version]?.map StackHead.node ≠ some node) := by
  induction n with
  | zero => exact .inr ⟨rfl, fun i hi => absurd hi (Nat.not_lt_zero i)⟩
  | succ n ih =>
    obtain ⟨slice, hslice⟩ : ∃ slice, slices[n]? = some slice :=
      ⟨_, getElem?_eq_getElem hn⟩
    obtain ⟨head, hhead⟩ : ∃ head, heads[slice.version]? = some head :=
      ⟨_, getElem?_eq_getElem (hvalid _ (List.mem_of_getElem? hslice))⟩
    have heq : findSlice heads slices node (n + 1) =
        if head.node = node then some (some (n, slice.version))
        else findSlice heads slices node n := by
      simp only [findSlice, hslice, bind_eq_bind, bind_some, hhead]
    rw [heq]
    split
    · next hnode =>
      refine .inl ⟨n, _, rfl, hslice, ?_⟩
      rw [hhead, map_some, hnode]
    · next hnode =>
      refine (ih (by omega)).imp_right fun ⟨hnone, hbefore⟩ => ⟨hnone, fun i hi other hget => ?_⟩
      rcases Nat.lt_succ_iff_lt_or_eq.mp hi with hi | rfl
      · exact hbefore i hi other hget
      · cases hslice.symm.trans hget
        rw [hhead, map_some]
        exact fun heq => hnode (Option.some.inj heq)

theorem sorted_insertIdx {i : Nat} {slice new : StackSlice τ}
    (h : slices.Pairwise fun slice slice' => slice.version ≤ slice'.version)
    (hslice : slices[i]? = some slice) (hnew : new.version = slice.version) :
    (slices.insertIdx (i + 1) new).Pairwise fun slice slice' =>
      slice.version ≤ slice'.version := by
  induction slices generalizing i with
  | nil => cases hslice
  | cons first slices ih =>
    obtain ⟨hfirst, hrest⟩ := pairwise_cons.mp h
    cases i with
    | zero =>
      cases hslice
      refine pairwise_cons.mpr ⟨fun other hother => ?_, pairwise_cons.mpr
        ⟨fun other hother => hnew ▸ hfirst other hother, hrest⟩⟩
      rcases mem_cons.mp hother with rfl | hother
      · exact hnew.ge
      · exact hfirst other hother
    | succ i =>
      rw [insertIdx_succ_cons]
      refine pairwise_cons.mpr ⟨fun other hother => ?_, ih hrest hslice⟩
      rw [getElem?_cons_succ] at hslice
      have hlt := (List.getElem?_eq_some_iff.mp hslice).1
      rcases (List.mem_insertIdx hlt).mp hother with rfl | hother
      · exact hnew ▸ hfirst slice (List.mem_of_getElem? hslice)
      · exact hfirst other hother

theorem Collected.add (h : Collected before found heads slices) {version : Nat}
    (hversion : version < before.length) (iterator : StackIterator τ) :
    ∃ heads' slices', addSlice heads slices version iterator.node iterator.subtrees.reverse =
        some (heads', slices') ∧
      Collected before (found ++ [iterator]) heads' slices' := by
  have hvalid : ∀ slice ∈ slices, slice.version < heads.length := fun slice hslice =>
    (h.versions hslice).2
  obtain ⟨new, rfl⟩ := h.isPrefix
  have hfound : (found ++ [iterator]).map
      (fun iterator => (iterator.subtrees.reverse, some iterator.node)) =
      found.map (fun iterator => (iterator.subtrees.reverse, some iterator.node)) ++
        [(iterator.subtrees.reverse, some iterator.node)] := map_append
  rcases findSlice_spec iterator.node le_rfl hvalid with
    ⟨i, slice, hfind, hslice, hnode⟩ | ⟨hfind, hno⟩
  · refine ⟨before ++ new,
      slices.insertIdx (i + 1) ⟨iterator.subtrees.reverse, slice.version⟩, ?_, ?_⟩
    · rw [addSlice, hfind]
      rfl
    · have hlt := (List.getElem?_eq_some_iff.mp hslice).1
      have hmem := List.mem_of_getElem? hslice
      have hperm := perm_insertIdx
        (⟨iterator.subtrees.reverse, slice.version⟩ : StackSlice τ) slices hlt
      refine ⟨h.isPrefix, h.nodes, sorted_insertIdx h.sorted hslice rfl, fun {other} hother => ?_,
        fun hle hlt => ?_, ?_⟩
      · rcases mem_cons.mp (hperm.mem_iff.mp hother) with rfl | hother
        · have hversions := h.versions hmem
          exact hversions
        · exact h.versions hother
      · obtain ⟨other, hother, heq⟩ := h.used hle hlt
        exact ⟨other, hperm.mem_iff.mpr (mem_cons_of_mem _ hother), heq⟩
      · refine (hperm.map _).trans ?_
        rw [hfound, map_cons, hnode]
        exact (h.perm.cons _).trans (perm_append_singleton _ _).symm
  · obtain ⟨original, horiginal⟩ : ∃ original, (before ++ new)[version]? = some original := by
      refine ⟨_, getElem?_eq_getElem ?_⟩
      rw [length_append]
      omega
    obtain ⟨head, hadd, hhead⟩ : ∃ head : StackHead τ,
        addVersion (before ++ new) version iterator.node = some (before ++ new ++ [head]) ∧
          head.node = iterator.node := by
      rw [addVersion, horiginal]
      exact ⟨_, rfl, rfl⟩
    have hget {slice : StackSlice τ} (hslice : slice ∈ slices) :
        (before ++ new ++ [head])[slice.version]? = (before ++ new)[slice.version]? :=
      getElem?_append_left (hvalid slice hslice)
    refine ⟨before ++ new ++ [head],
      slices ++ [⟨iterator.subtrees.reverse, (before ++ new).length⟩], ?_,
      ⟨new ++ [head], (append_assoc ..).symm⟩, ?_, ?_, fun {slice} hslice => ?_,
      fun {v} hle hlt => ?_, ?_⟩
    · rw [addSlice, hfind]
      simp only [bind_eq_bind, bind_some, hadd]
    · have hnodes := h.nodes
      rw [drop_left] at hnodes
      rw [append_assoc, drop_left, map_append, nodup_append]
      refine ⟨hnodes, nodup_singleton _, fun node hnode other hother => ?_⟩
      rw [map_singleton, mem_singleton] at hother
      rw [hother, hhead]
      rintro rfl
      obtain ⟨same, hsame, heq⟩ := mem_map.mp hnode
      obtain ⟨k, hk⟩ := List.getElem?_of_mem hsame
      -- The version of a new head at the node would have a slice.
      have hk' : (before ++ new)[before.length + k]? = some same := by
        rwa [getElem?_append_right (Nat.le_add_right ..), Nat.add_sub_cancel_left]
      obtain ⟨slice, hslice, hversion⟩ :=
        h.used (Nat.le_add_right ..) (List.getElem?_eq_some_iff.mp hk').1
      obtain ⟨j, hj⟩ := List.getElem?_of_mem hslice
      refine hno j (List.getElem?_eq_some_iff.mp hj).1 slice hj ?_
      rw [hversion, hk', map_some, heq]
    · rw [pairwise_append]
      refine ⟨h.sorted, pairwise_singleton .., fun slice hslice other hother => ?_⟩
      rw [mem_singleton.mp hother]
      exact (hvalid slice hslice).le
    · rw [length_append, length_singleton]
      rcases mem_append.mp hslice with hslice | hslice
      · exact ⟨(h.versions hslice).1, Nat.lt_succ_of_lt (h.versions hslice).2⟩
      · rw [mem_singleton.mp hslice]
        refine ⟨?_, Nat.lt_succ_self _⟩
        rw [length_append]
        exact Nat.le_add_right ..
    · rw [length_append, length_singleton] at hlt
      rcases Nat.lt_succ_iff_lt_or_eq.mp hlt with hlt | rfl
      · obtain ⟨slice, hslice, heq⟩ := h.used hle hlt
        exact ⟨slice, mem_append_left _ hslice, heq⟩
      · exact ⟨_, mem_append_right _ (mem_singleton.mpr rfl), rfl⟩
    · rw [hfound, map_append]
      refine List.Perm.append ?_ ?_
      · rw [map_congr_left fun slice hslice => by rw [hget hslice]]
        exact h.perm
      · rw [map_singleton, getElem?_concat_length, map_some, hhead]

theorem collect_append (version : Nat) (found : List (StackIterator τ))
    (iterator : StackIterator τ) : collect before version (found ++ [iterator]) =
      (collect before version found).bind fun collected =>
        addSlice collected.1 collected.2 version iterator.node iterator.subtrees.reverse := by
  rw [collect, foldlM_append, collect]
  refine congrArg _ (funext fun collected => ?_)
  rw [foldlM_cons]
  cases addSlice collected.1 collected.2 version iterator.node iterator.subtrees.reverse <;> rfl

theorem collect_spec {version : Nat} (hversion : version < before.length)
    (found : List (StackIterator τ)) :
    ∃ heads slices, collect before version found = some (heads, slices) ∧
      Collected before found heads slices := by
  induction found using List.reverseRecOn with
  | nil =>
    refine ⟨before, [], rfl, prefix_rfl, ?_, .nil, fun h => absurd h not_mem_nil,
      fun hle hlt => absurd hle (not_le.mpr hlt), .refl _⟩
    rw [drop_length]
    exact .nil
  | append_singleton found iterator ih =>
    obtain ⟨heads, slices, hcollect, hcollected⟩ := ih
    obtain ⟨heads', slices', hadd, hcollected'⟩ := hcollected.add hversion iterator
    refine ⟨heads', slices', ?_, hcollected'⟩
    rw [collect_append, hcollect, bind_some, hadd]

end Collect

/-! ### The walk -/

section Walk

variable {view} {nodes : List (StackNode τ)} {count version : Nat} {before : List (StackHead τ)}

/-- The iterators of the walk are the frontier, and its slices are those for what was found. -/
structure Simulates (before : List (StackHead τ)) (version : Nat) (walk : StackWalk τ Unit)
    (frontier : Frontier (StackIterator τ)) : Prop where
  iterators : walk.iterators = frontier.pending
  collected : collect before version frontier.found = some (walk.heads, walk.slices)

theorem followLinks_eq {iterator : StackIterator τ} {links : List (StackLink τ)}
    {iterators : List (StackIterator τ)} (h : iterators.length + links.length ≤ maxIteratorCount) :
    followLinks view iterator true links iterators =
      iterators ++ links.map (iterator.follow view true) := by
  induction links generalizing iterators with
  | nil => exact (append_nil _).symm
  | cons link links ih =>
    rw [length_cons] at h
    rw [followLinks, if_neg (by omega), ih, append_assoc]
    · rfl
    · rw [length_append, length_singleton]
      omega

variable {frontier : Frontier (StackIterator τ)} {walk : StackWalk τ Unit} {i : Nat}

theorem iterOne_simulates {iterator : StackIterator τ} {node : StackNode τ}
    (h : Simulates before version walk frontier) (hversion : version < before.length)
    (hi : frontier.pending[i]? = some iterator) (hnode : nodes[iterator.node]? = some node)
    (hfits : ((popSearch view nodes count).turn frontier i).1.pending.length ≤ maxIteratorCount) :
    ∃ walk' removed,
      iterOne view nodes version (Stack.popCountCallback count) true walk i =
        some (walk', removed) ∧
      Simulates before version walk' ((popSearch view nodes count).turn frontier i).1 ∧
      (if removed then i else i + 1) = ((popSearch view nodes count).turn frontier i).2 ∧
      frontier.pending.length + (if removed then 0 else 1) ≤
        ((popSearch view nodes count).turn frontier i).1.pending.length + 1 := by
  have hlt := (List.getElem?_eq_some_iff.mp hi).1
  have hnext : (popSearch view nodes count).next iterator =
      node.links.map (iterator.follow view true) := by
    simp only [popSearch, hnode, elim_some]
  have herase : frontier.pending.length ≤ (frontier.pending.eraseIdx i).length + 1 := by
    rw [length_eraseIdx_of_lt hlt]
    omega
  unfold iterOne
  rw [h.iterators]
  simp only [hi, hnode, bind_eq_bind, bind_some]
  by_cases hgoal : iterator.subtreeCount = count
  · rw [Search.turn_goal hi (decide_eq_true hgoal)]
    obtain ⟨heads, slices, hcollect, -⟩ := collect_spec hversion (frontier.found ++ [iterator])
    have hadd := hcollect
    rw [collect_append, h.collected, bind_some] at hadd
    have hcallback : Stack.popCountCallback count walk.payload node iterator =
        ((), true, true) := if_pos hgoal
    simp only [hcallback, Bool.true_or, if_true, hadd, bind_some]
    refine ⟨⟨heads, slices, frontier.pending.eraseIdx i, ()⟩, true, ?_, ⟨rfl, hcollect⟩, rfl,
      herase⟩
    cases node.links <;> rfl
  · have hcallback : Stack.popCountCallback count walk.payload node iterator =
        ((), false, false) := if_neg hgoal
    have hgoal' : ¬ (popSearch view nodes count).isGoal iterator = true :=
      fun heq => hgoal (of_decide_eq_true heq)
    cases hlinks : node.links with
    | nil =>
      rw [hlinks] at hnext
      rw [Search.turn_dead hi hgoal' hnext]
      refine ⟨⟨walk.heads, walk.slices, frontier.pending.eraseIdx i, ()⟩, true, ?_,
        ⟨rfl, h.collected⟩, rfl, herase⟩
      rw [hcallback]
      rfl
    | cons first others =>
      rw [hlinks, map_cons] at hnext
      rw [Search.turn_next hi hgoal' hnext] at hfits ⊢
      rw [length_set, length_append, length_map] at hfits
      refine ⟨⟨walk.heads, walk.slices, (frontier.pending ++ others.map
        (iterator.follow view true)).set i (iterator.follow view true first), ()⟩, false, ?_,
        ⟨rfl, h.collected⟩, rfl, ?_⟩
      · rw [hcallback]
        simp [followLinks_eq hfits]
      · rw [length_set, length_append]
        exact Nat.succ_le_succ (Nat.le_add_right ..)

variable {n : Nat}

theorem roundFits_length {limit : Nat}
    (h : (popSearch view nodes count).RoundFits limit n frontier i) :
    frontier.pending.length ≤ limit := by
  cases n with
  | zero => exact h
  | succ n => exact h.1

def PendingValid (nodes : List (StackNode τ)) (frontier : Frontier (StackIterator τ)) : Prop :=
  ∀ iterator ∈ frontier.pending, iterator.node < nodes.length

theorem PendingValid.turn (hlinks : LinksValid nodes) (h : PendingValid nodes frontier) (i : Nat) :
    PendingValid nodes ((popSearch view nodes count).turn frontier i).1 := by
  cases hi : frontier.pending[i]? with
  | none =>
    rw [Search.turn_none hi]
    exact h
  | some iterator =>
    have herase : ∀ x ∈ frontier.pending.eraseIdx i, x.node < nodes.length :=
      fun x hx => h x (mem_of_mem_eraseIdx hx)
    by_cases hgoal : (popSearch view nodes count).isGoal iterator = true
    · rw [Search.turn_goal hi hgoal]
      exact herase
    · have hnext : ∀ x ∈ (popSearch view nodes count).next iterator, x.node < nodes.length := by
        intro x hx
        obtain ⟨link, hlink, rfl⟩ := mem_map.mp hx
        rw [follow_node]
        cases hnode : nodes[iterator.node]? with
        | none =>
          rw [hnode] at hlink
          cases hlink
        | some node =>
          rw [hnode] at hlink
          exact hlinks _ node hnode link hlink
      cases hcases : (popSearch view nodes count).next iterator with
      | nil =>
        rw [Search.turn_dead hi hgoal hcases]
        exact herase
      | cons first others =>
        rw [hcases] at hnext
        rw [Search.turn_next hi hgoal hcases]
        intro x hx
        rcases mem_or_eq_of_mem_set hx with hx | rfl
        · rcases mem_append.mp hx with hx | hx
          · exact h x hx
          · exact hnext x (mem_cons_of_mem _ hx)
        · exact hnext x (mem_cons_self ..)

theorem iterRound_simulates (hlinks : LinksValid nodes) (hversion : version < before.length)
    (h : Simulates before version walk frontier) (hpending : PendingValid nodes frontier)
    (hfits : (popSearch view nodes count).RoundFits maxIteratorCount n frontier i)
    (hlength : i + n ≤ frontier.pending.length) :
    ∃ walk', iterRound view nodes version (Stack.popCountCallback count) true n walk i =
        some walk' ∧
      Simulates before version walk' ((popSearch view nodes count).round n frontier i) ∧
      PendingValid nodes ((popSearch view nodes count).round n frontier i) := by
  induction n generalizing i walk frontier with
  | zero => exact ⟨walk, rfl, h, hpending⟩
  | succ n ih =>
    obtain ⟨-, hfits⟩ := hfits
    obtain ⟨iterator, hi⟩ : ∃ iterator, frontier.pending[i]? = some iterator :=
      ⟨_, getElem?_eq_getElem (by omega)⟩
    obtain ⟨node, hnode⟩ : ∃ node, nodes[iterator.node]? = some node :=
      ⟨_, getElem?_eq_getElem (hpending _ (List.mem_of_getElem? hi))⟩
    obtain ⟨walk', removed, hone, hsimulates, hindex, hlength'⟩ :=
      iterOne_simulates h hversion hi hnode (roundFits_length hfits)
    obtain ⟨walk'', hround, hresult⟩ := ih hsimulates (hpending.turn hlinks i) hfits (by
      rw [← hindex]
      cases removed with
      | true =>
        rw [if_pos rfl] at hlength' ⊢
        omega
      | false =>
        rw [if_neg Bool.false_ne_true] at hlength' ⊢
        omega)
    refine ⟨walk'', ?_, hresult⟩
    rw [iterRound, hone, bind_eq_bind, bind_some]
    dsimp only
    rw [hindex, hround]

theorem rounds_of_nil (h : frontier.pending = []) :
    (popSearch view nodes count).rounds n frontier = frontier := by
  induction n with
  | zero => rfl
  | succ n ih =>
    rw [Search.rounds, h, length_nil, Search.round, ih]

theorem iterRounds_simulates (hlinks : LinksValid nodes) (hversion : version < before.length)
    (h : Simulates before version walk frontier) (hpending : PendingValid nodes frontier) (hfits :
      ∀ m, (popSearch view nodes count).RoundFits maxIteratorCount ((popSearch view nodes
      count).rounds m frontier).pending.length ((popSearch view nodes count).rounds m frontier) 0)
    (hend : ((popSearch view nodes count).rounds n frontier).pending = []) :
    ∃ walk', (∀ fuel > n, iterRounds view nodes version (Stack.popCountCallback count) true fuel
        walk = some walk') ∧
      Simulates before version walk' ((popSearch view nodes count).rounds n frontier) := by
  induction n generalizing walk frontier with
  | zero =>
    refine ⟨walk, fun fuel hfuel => ?_, h⟩
    obtain ⟨fuel, rfl⟩ := Nat.exists_eq_succ_of_ne_zero (by omega : fuel ≠ 0)
    rw [iterRounds, h.iterators, show frontier.pending = [] from hend]
    rfl
  | succ n ih =>
    by_cases hnil : frontier.pending = []
    · rw [rounds_of_nil hnil]
      refine ⟨walk, fun fuel hfuel => ?_, h⟩
      obtain ⟨fuel, rfl⟩ := Nat.exists_eq_succ_of_ne_zero (by omega : fuel ≠ 0)
      rw [iterRounds, h.iterators, hnil]
      rfl
    · obtain ⟨next, hround, hsimulates, hvalid⟩ :=
        iterRound_simulates hlinks hversion h hpending (hfits 0) (Nat.zero_add _).le
      obtain ⟨walk', hrounds, hresult⟩ :=
        ih hsimulates hvalid (fun m => hfits (m + 1)) hend
      refine ⟨walk', fun fuel hfuel => ?_, hresult⟩
      obtain ⟨fuel, rfl⟩ := Nat.exists_eq_succ_of_ne_zero (by omega : fuel ≠ 0)
      have hpos := length_pos_of_ne_nil hnil
      rw [iterRounds, h.iterators, if_pos hpos]
      change iterRound view nodes version (Stack.popCountCallback count) true
        frontier.pending.length walk 0 = some next at hround
      rw [hround]
      exact hrounds fuel (by omega)

end Walk

/-! ### Popping -/

namespace Stack

variable {view} {stack : Stack τ} {version count : Nat}

theorem pathsBounded_of_wellFounded {nodes : List (StackNode τ)}
    (hwf : WellFounded (UncountedLink view nodes)) (i count : Nat) :
    PathsBounded view nodes i count := by
  induction count generalizing i with
  | zero =>
    refine ⟨0, fun path links hlinks hbefore => ?_⟩
    cases path with
    | nil => exact le_rfl
    | cons k path =>
      obtain ⟨node, -, hlinks⟩ := bind_eq_some_iff.mp hlinks
      obtain ⟨link, -, hlinks⟩ := bind_eq_some_iff.mp hlinks
      obtain ⟨rest, -, hlinks⟩ := bind_eq_some_iff.mp hlinks
      cases hlinks
      exact absurd rfl (hbefore 0 (Nat.succ_pos _))
  | succ count ih =>
    induction i using hwf.induction with
    | _ i ihNode =>
      cases hnode : nodes[i]? with
      | none =>
        refine ⟨0, fun path links hlinks _ => ?_⟩
        cases path with
        | nil => exact le_rfl
        | cons k path =>
          rw [linksAlong, hnode] at hlinks
          cases hlinks
      | some node =>
        -- After each link the rest of a path is bounded.
        have hrest : ∀ link ∈ node.links, ∃ bound, ∀ path links,
            linksAlong nodes link.node path = some links →
            (∀ n < links.length, ((link :: links).take (n + 1)).countP
              (StackLink.counts view) ≠ count + 1) → path.length ≤ bound := by
          intro link hlink
          by_cases hcounts : link.counts view = true
          · obtain ⟨bound, hbound⟩ := ih link.node
            refine ⟨bound, fun path links hlinks hbefore => hbound path links hlinks ?_⟩
            intro n hn heq
            refine hbefore n hn ?_
            rw [take_succ_cons, countP_cons_of_pos hcounts, heq]
          · obtain ⟨bound, hbound⟩ :=
              ihNode link.node ⟨node, link, hnode, hlink, hcounts, rfl⟩
            refine ⟨bound, fun path links hlinks hbefore => hbound path links hlinks ?_⟩
            intro n hn heq
            refine hbefore n hn ?_
            rw [take_succ_cons, countP_cons_of_neg hcounts, heq]
        choose! bounds hbounds using hrest
        refine ⟨(node.links.map bounds).sum + 1, fun path links hlinks hbefore => ?_⟩
        cases path with
        | nil => exact Nat.zero_le _
        | cons k path =>
          rw [linksAlong, hnode, bind_eq_bind, bind_some] at hlinks
          obtain ⟨link, hlink, hlinks⟩ := bind_eq_some_iff.mp hlinks
          obtain ⟨rest, hrest, hlinks⟩ := bind_eq_some_iff.mp hlinks
          cases hlinks
          have hmem := List.mem_of_getElem? hlink
          have hle := hbounds link hmem path rest hrest fun n hn =>
            hbefore (n + 1) (Nat.succ_lt_succ hn)
          have hsum : bounds link ≤ (node.links.map bounds).sum :=
            le_sum_of_mem (mem_map_of_mem hmem)
          rw [length_cons]
          omega

/-- A stack with two links from its top to the bottom. -/
def forkedStack : Stack Nat where
  nodes := [.base 1, ⟨7, ⟨3, 0, 3⟩, [⟨0, some 2, false⟩, ⟨0, some 3, false⟩], 0, 1, 0⟩]
  heads := [⟨1, none, 0, none, none, .active⟩]
  baseNode := 0

theorem forkedStack_links {i : Nat} {node : StackNode Nat}
    (hnode : forkedStack.nodes[i]? = some node) {link : StackLink Nat} (hlink : link ∈ node.links) :
    i = 1 ∧ link.node = 0 := by
  obtain _ | _ | i := i
  · cases hnode
    cases hlink
  · cases hnode
    rcases mem_cons.mp hlink with rfl | hlink
    · exact ⟨rfl, rfl⟩
    · rw [mem_singleton.mp hlink]
      exact ⟨rfl, rfl⟩
  · cases hnode

/-- Subtrees of no bytes, of which the one with the number 0 is extra. -/
def extraZero (tree : Nat) : SubtreeView :=
  { threeBytes tree with size := .zero, extra := tree = 0 }

/-- An extra subtree and another one on top of it. -/
def extraBelow : Option (Stack Nat) := do
  let stack ← Stack.new.push extraZero 0 (some 0) false 1
  stack.push extraZero 0 (some 1) false 7

/-- A version that is two extra subtrees above another one, and merged with it. -/
def extraCircle : Option (Stack Nat) := do
  let (stack, _) ← Stack.new.copyVersion 0
  let stack ← stack.push extraZero 1 (some 0) false 1
  let stack ← stack.push extraZero 1 (some 0) false 1
  let (stack, _) ← stack.merge extraZero 3 0 1
  some stack

def circleNodes : List (StackNode Nat) :=
  [⟨1, .zero, [⟨1, some 0, false⟩], 0, 2, 0⟩, ⟨1, .zero, [⟨0, some 0, false⟩], 0, 1, 0⟩,
    ⟨1, .zero, [⟨1, some 0, false⟩], 0, 2, 0⟩]

theorem iterRounds_circle (fuel : Nat) (subtrees : List Nat) (pending : Bool)
    (heads : List (StackHead Nat)) :
    iterRounds extraZero circleNodes 0 (popCountCallback 1) true fuel
        ⟨heads, [], [⟨0, subtrees, 0, pending⟩], ()⟩ = none ∧
      iterRounds extraZero circleNodes 0 (popCountCallback 1) true fuel
        ⟨heads, [], [⟨1, subtrees, 0, pending⟩], ()⟩ = none := by
  induction fuel generalizing subtrees pending with
  | zero => exact ⟨rfl, rfl⟩
  | succ fuel ih => exact ⟨(ih (subtrees ++ [0]) pending).2, (ih (subtrees ++ [0]) pending).1⟩

end Stack

end TreeSitter.Lib
