import Mathlib

/-!
# TreeSitter.Library.Frontier

**Searches that follow all paths at once.** The paths that are not at an end are kept in a list, the
frontier. In every round each of them is taken one step further: the first continuation takes its
place, the others go to the end of the list, and a path that is at a goal, or has no continuation,
leaves the list.

Paths are named by the numbers of the continuations. Each path to a goal is found exactly once
(`Search.found_spec`), and the search ends if no path is longer than some bound
(`Search.pending_eq_nil`).
-/

namespace Library

open List

universe u

variable {σ : Type u}

/-- What a search goes through: the continuations of a state, and the states it looks for. -/
structure Search (σ : Type u) where
  next : σ → List σ
  isGoal : σ → Bool

/-- The states that the search has still to go on from, and those that it found. -/
structure Frontier (σ : Type u) where
  pending : List σ
  found : List σ

namespace Search

variable (search : Search σ)

/-- A step from one of the states, and the index of the next. -/
def turn (frontier : Frontier σ) (i : Nat) : Frontier σ × Nat :=
  match frontier.pending[i]? with
  | none => (frontier, i + 1)
  | some state =>
    if search.isGoal state then
      (⟨frontier.pending.eraseIdx i, frontier.found ++ [state]⟩, i)
    else
      match search.next state with
      | [] => (⟨frontier.pending.eraseIdx i, frontier.found⟩, i)
      | first :: others => (⟨(frontier.pending ++ others).set i first, frontier.found⟩, i + 1)

/-- A step from each of the given number of states, from an index on. -/
def round : Nat → Frontier σ → Nat → Frontier σ
  | 0, frontier, _ => frontier
  | count + 1, frontier, i => round count (search.turn frontier i).1 (search.turn frontier i).2

/-- The given number of rounds. -/
def rounds : Nat → Frontier σ → Frontier σ
  | 0, frontier => frontier
  | n + 1, frontier => rounds n (search.round frontier.pending.length frontier 0)

/-- The states of a round are never more than the limit. -/
def RoundFits (limit : Nat) : Nat → Frontier σ → Nat → Prop
  | 0, frontier, _ => frontier.pending.length ≤ limit
  | count + 1, frontier, i => frontier.pending.length ≤ limit ∧
      RoundFits limit count (search.turn frontier i).1 (search.turn frontier i).2

instance decidableRoundFits (limit : Nat) : (n : Nat) → (frontier : Frontier σ) → (i : Nat) →
    Decidable (search.RoundFits limit n frontier i)
  | 0, frontier, _ => inferInstanceAs (Decidable (frontier.pending.length ≤ limit))
  | n + 1, frontier, i =>
    @instDecidableAnd _ _ _
      (decidableRoundFits limit n (search.turn frontier i).1 (search.turn frontier i).2)

/-- **The search from a state never needs more states than the limit.** -/
def Fits (limit : Nat) (start : σ) : Prop :=
  ∀ n, search.RoundFits limit (search.rounds n ⟨[start], []⟩).pending.length
    (search.rounds n ⟨[start], []⟩) 0

/-- Where a path leads; it does not go on from a goal. -/
def along (state : σ) : List Nat → Option σ
  | [] => some state
  | k :: path => if search.isGoal state then none else (search.next state)[k]?.bind (along · path)

variable {search}

theorem rounds_succ (n : Nat) (frontier : Frontier σ) :
    search.rounds (n + 1) frontier =
      search.round (search.rounds n frontier).pending.length (search.rounds n frontier) 0 := by
  induction n generalizing frontier with
  | zero => rfl
  | succ n ih => exact ih _

theorem along_append (state : σ) (path path' : List Nat) :
    search.along state (path ++ path') =
      (search.along state path).bind (search.along · path') := by
  induction path generalizing state with
  | nil => rfl
  | cons k path ih =>
    rw [cons_append, along, along]
    split
    · rfl
    · cases (search.next state)[k]? with
      | none => rfl
      | some next => exact ih next

section Turn

variable {frontier : Frontier σ} {i : Nat} {state : σ}

theorem turn_none (h : frontier.pending[i]? = none) :
    search.turn frontier i = (frontier, i + 1) := by
  rw [turn, h]

theorem turn_goal (h : frontier.pending[i]? = some state) (hgoal : search.isGoal state = true) :
    search.turn frontier i =
      (⟨frontier.pending.eraseIdx i, frontier.found ++ [state]⟩, i) := by
  rw [turn, h]
  dsimp only
  rw [if_pos hgoal]

theorem turn_dead (h : frontier.pending[i]? = some state) (hgoal : ¬ search.isGoal state = true)
    (hnext : search.next state = []) :
    search.turn frontier i = (⟨frontier.pending.eraseIdx i, frontier.found⟩, i) := by
  rw [turn, h]
  dsimp only
  rw [if_neg hgoal, hnext]

theorem turn_next (h : frontier.pending[i]? = some state) (hgoal : ¬ search.isGoal state = true)
    {first : σ} {others : List σ} (hnext : search.next state = first :: others) :
    search.turn frontier i =
      (⟨(frontier.pending ++ others).set i first, frontier.found⟩, i + 1) := by
  rw [turn, h]
  dsimp only
  rw [if_neg hgoal, hnext]

end Turn

/-! ### Paths beside the states -/

/-- The search that keeps the path to each state. -/
def labelled (search : Search σ) : Search (List Nat × σ) where
  next x := (search.next x.2).mapIdx fun k state => (x.1 ++ [k], state)
  isGoal x := search.isGoal x.2

/-- A frontier without the paths. -/
def unlabel (frontier : Frontier (List Nat × σ)) : Frontier σ :=
  ⟨frontier.pending.map Prod.snd, frontier.found.map Prod.snd⟩

theorem map_snd_next (x : List Nat × σ) :
    (search.labelled.next x).map Prod.snd = search.next x.2 := by
  refine ext_getElem? fun k => ?_
  simp [labelled]

theorem turn_unlabel (frontier : Frontier (List Nat × σ)) (i : Nat) :
    search.turn (unlabel frontier) i =
      (unlabel (search.labelled.turn frontier i).1, (search.labelled.turn frontier i).2) := by
  have hget : (unlabel frontier).pending[i]? = frontier.pending[i]?.map Prod.snd :=
    getElem?_map ..
  cases hx : frontier.pending[i]? with
  | none =>
    rw [hx] at hget
    rw [turn_none hget, turn_none hx]
  | some x =>
    rw [hx, Option.map_some] at hget
    by_cases hgoal : search.isGoal x.2 = true
    · rw [turn_goal hget hgoal, turn_goal hx hgoal, unlabel, unlabel, eraseIdx_map, map_append]
      rfl
    · have hnext : (search.labelled.next x).map Prod.snd = search.next x.2 := map_snd_next x
      cases hchildren : search.labelled.next x with
      | nil =>
        rw [hchildren] at hnext
        rw [turn_dead hget hgoal hnext.symm, turn_dead hx hgoal hchildren, unlabel, unlabel,
          eraseIdx_map]
      | cons first others =>
        rw [hchildren, map_cons] at hnext
        rw [turn_next hget hgoal hnext.symm, turn_next hx hgoal hchildren, unlabel, unlabel,
          map_set, map_append]

theorem round_unlabel (count : Nat) (frontier : Frontier (List Nat × σ)) (i : Nat) :
    search.round count (unlabel frontier) i =
      unlabel (search.labelled.round count frontier i) := by
  induction count generalizing frontier i with
  | zero => rfl
  | succ count ih => rw [round, round, turn_unlabel, ih]

theorem rounds_unlabel (n : Nat) (frontier : Frontier (List Nat × σ)) :
    search.rounds n (unlabel frontier) = unlabel (search.labelled.rounds n frontier) := by
  induction n generalizing frontier with
  | zero => rfl
  | succ n ih =>
    rw [rounds, rounds, ← ih, ← round_unlabel, unlabel, length_map]

/-! ### Each path once -/

/-- Neither path goes on from the other. -/
def Apart (path path' : List Nat) : Prop :=
  ¬ path <+: path' ∧ ¬ path' <+: path

theorem Apart.symm {path path' : List Nat} (h : Apart path path') : Apart path' path :=
  And.symm h

theorem Apart.append {path path' : List Nat} (h : Apart path path') (k : Nat) :
    Apart (path ++ [k]) path' := by
  refine ⟨fun hpre => h.1 ((prefix_append path [k]).trans hpre), fun hpre => ?_⟩
  rcases prefix_concat_iff.mp hpre with heq | hpre
  · exact h.1 (heq ▸ prefix_append path [k])
  · exact h.2 hpre

/-- **The paths of the frontier**: each path to a goal goes on from exactly one of them. -/
structure Covers (search : Search σ) (start : σ) (found pending : List (List Nat × σ)) :
    Prop where
  pending_along {x : List Nat × σ} (h : x ∈ pending) : search.along start x.1 = some x.2
  found_along {x : List Nat × σ} (h : x ∈ found) :
    search.along start x.1 = some x.2 ∧ search.isGoal x.2 = true
  apart : ((found ++ pending).map Prod.fst).Pairwise Apart
  covers {path : List Nat} {goal : σ} (h : search.along start path = some goal)
    (hgoal : search.isGoal goal = true) : ∃ x ∈ found ++ pending, x.1 <+: path

section Covers

variable {start : σ} {found found' pending pending' : List (List Nat × σ)} {x : List Nat × σ}

theorem Covers.perm (h : search.Covers start found pending) (hfound : found.Perm found')
    (hpending : pending.Perm pending') : search.Covers start found' pending' where
  pending_along hx := h.pending_along (hpending.mem_iff.mpr hx)
  found_along hx := h.found_along (hfound.mem_iff.mpr hx)
  apart := (((hfound.append hpending).map _).pairwise_iff Apart.symm).mp h.apart
  covers hpath hgoal := by
    obtain ⟨x, hx, hpre⟩ := h.covers hpath hgoal
    exact ⟨x, (hfound.append hpending).mem_iff.mp hx, hpre⟩

theorem Covers.find (h : search.Covers start found (x :: pending))
    (hgoal : search.isGoal x.2 = true) : search.Covers start (found ++ [x]) pending where
  pending_along hx := h.pending_along (mem_cons_of_mem _ hx)
  found_along hy := by
    rcases mem_append.mp hy with hy | hy
    · exact h.found_along hy
    · rw [mem_singleton.mp hy]
      exact ⟨h.pending_along (mem_cons_self ..), hgoal⟩
  apart := by
    rw [append_assoc, singleton_append]
    exact h.apart
  covers hpath hgoal := by
    rw [append_assoc, singleton_append]
    exact h.covers hpath hgoal

theorem Covers.expand (h : search.Covers start found (x :: pending))
    (hgoal : ¬ search.isGoal x.2 = true) :
    search.Covers start found (search.labelled.next x ++ pending) where
  pending_along {y} hy := by
    rcases mem_append.mp hy with hy | hy
    · obtain ⟨k, hk⟩ := getElem?_of_mem hy
      rw [labelled, getElem?_mapIdx] at hk
      obtain ⟨state, hstate, rfl⟩ := Option.map_eq_some_iff.mp hk
      rw [along_append, h.pending_along (mem_cons_self ..), Option.bind_some, along,
        if_neg hgoal, hstate, Option.bind_some, along]
    · exact h.pending_along (mem_cons_of_mem _ hy)
  found_along := h.found_along
  apart := by
    have hold := h.apart
    rw [map_append, map_cons, pairwise_append] at hold
    obtain ⟨hfound, hpending, hbetween⟩ := hold
    obtain ⟨hx, hpending⟩ := pairwise_cons.mp hpending
    -- The continuations are called by that path and a number.
    have hmem {path : List Nat} (hpath : path ∈ (search.labelled.next x).map Prod.fst) :
        ∃ k, path = x.1 ++ [k] := by
      obtain ⟨y, hy, rfl⟩ := mem_map.mp hpath
      obtain ⟨k, hk⟩ := getElem?_of_mem hy
      rw [labelled, getElem?_mapIdx] at hk
      obtain ⟨state, -, rfl⟩ := Option.map_eq_some_iff.mp hk
      exact ⟨k, rfl⟩
    rw [map_append, map_append, pairwise_append, pairwise_append]
    refine ⟨hfound, ⟨?_, hpending, fun path hpath other hother => ?_⟩,
      fun path hpath other hother => ?_⟩
    · rw [pairwise_iff_getElem]
      intro i j hi hj hlt
      simp only [labelled, getElem_map, getElem_mapIdx, Apart]
      have hne : ¬ x.1 ++ [i] = x.1 ++ [j] := by
        simp only [append_cancel_left_eq, List.cons.injEq, and_true]
        exact hlt.ne
      exact ⟨fun hpre => hne (hpre.eq_of_length (by simp)),
        fun hpre => hne (hpre.eq_of_length (by simp)).symm⟩
    · obtain ⟨k, rfl⟩ := hmem hpath
      exact (hx other hother).append k
    · rcases mem_append.mp hother with hother | hother
      · obtain ⟨k, rfl⟩ := hmem hother
        exact ((hbetween path hpath x.1 (mem_cons_self ..)).symm.append k).symm
      · exact hbetween path hpath other (mem_cons_of_mem _ hother)
  covers {path goal} hpath hisGoal := by
    obtain ⟨y, hy, rest, hrest⟩ := h.covers hpath hisGoal
    rcases mem_append.mp hy with hy | hy
    · exact ⟨y, mem_append_left _ hy, rest, hrest⟩
    rcases mem_cons.mp hy with rfl | hy
    · subst hrest
      rw [along_append, h.pending_along (mem_cons_self ..), Option.bind_some] at hpath
      cases rest with
      | nil =>
        cases hpath
        exact absurd hisGoal hgoal
      | cons k rest =>
        rw [along, if_neg hgoal] at hpath
        obtain ⟨state, hstate, -⟩ := Option.bind_eq_some_iff.mp hpath
        refine ⟨(y.1 ++ [k], state), mem_append_right _ (mem_append_left _ ?_), rest, ?_⟩
        · refine mem_of_getElem? (i := k) ?_
          rw [labelled, getElem?_mapIdx, hstate]
          rfl
        · rw [append_assoc, singleton_append]
    · exact ⟨y, mem_append_right _ (mem_append_right _ hy), rest, hrest⟩

variable {frontier : Frontier (List Nat × σ)}

theorem Covers.turn (i : Nat) (h : search.Covers start frontier.found frontier.pending) :
    search.Covers start (search.labelled.turn frontier i).1.found
      (search.labelled.turn frontier i).1.pending := by
  cases hx : frontier.pending[i]? with
  | none =>
    rw [turn_none hx]
    exact h
  | some x =>
    obtain ⟨hlt, hget⟩ := List.getElem?_eq_some_iff.mp hx
    have hperm : frontier.pending.Perm (x :: frontier.pending.eraseIdx i) := by
      rw [← hget]
      exact (getElem_cons_eraseIdx_perm hlt).symm
    have hcovers := h.perm (.refl _) hperm
    by_cases hgoal : search.labelled.isGoal x = true
    · rw [turn_goal hx hgoal]
      exact hcovers.find hgoal
    · have hexpanded := hcovers.expand hgoal
      cases hnext : search.labelled.next x with
      | nil =>
        rw [turn_dead hx hgoal hnext]
        rw [hnext] at hexpanded
        exact hexpanded
      | cons first others =>
        rw [turn_next hx hgoal hnext]
        rw [hnext] at hexpanded
        refine hexpanded.perm (.refl _) ?_
        rw [set_append_left _ _ hlt]
        have hset := (set_perm_cons_eraseIdx hlt first).symm.append_right others
        exact (perm_append_comm.cons first).trans hset

theorem Covers.round (count i : Nat) (h : search.Covers start frontier.found frontier.pending) :
    search.Covers start (search.labelled.round count frontier i).found
      (search.labelled.round count frontier i).pending := by
  induction count generalizing frontier i with
  | zero => exact h
  | succ count ih => exact ih _ (h.turn i)

theorem Covers.rounds (n : Nat) (h : search.Covers start frontier.found frontier.pending) :
    search.Covers start (search.labelled.rounds n frontier).found
      (search.labelled.rounds n frontier).pending := by
  induction n generalizing frontier with
  | zero => exact h
  | succ n ih => exact ih (h.round _ 0)

theorem covers_rounds (n : Nat) :
    search.Covers start (search.labelled.rounds n ⟨[([], start)], []⟩).found
      (search.labelled.rounds n ⟨[([], start)], []⟩).pending := by
  have hstart : search.Covers start [] [([], start)] := by
    refine ⟨fun hx => ?_, fun hx => absurd hx not_mem_nil, pairwise_singleton ..,
      fun _ _ => ⟨_, mem_singleton.mpr rfl, nil_prefix⟩⟩
    rw [mem_singleton.mp hx]
    rfl
  exact Covers.rounds n hstart

theorem rounds_start (n : Nat) : search.rounds n ⟨[start], []⟩ =
    unlabel (search.labelled.rounds n ⟨[([], start)], []⟩) :=
  rounds_unlabel n ⟨[([], start)], []⟩

end Covers

variable {n : Nat}

/-- **Each path to a goal is found once**, when the frontier is empty. -/
theorem found_spec {start : σ} (hend : (search.rounds n ⟨[start], []⟩).pending = []) :
    ∃ paths : List (List Nat), paths.Nodup ∧
      (∀ path, path ∈ paths ↔
        ∃ goal, search.along start path = some goal ∧ search.isGoal goal = true) ∧
      List.Forall₂ (fun path goal => search.along start path = some goal) paths
        (search.rounds n ⟨[start], []⟩).found := by
  have hcovers : search.Covers start _ _ := covers_rounds n
  rw [rounds_start] at hend ⊢
  rw [map_eq_nil_iff.mp hend] at hcovers
  obtain ⟨-, hfound, hapart, hall⟩ := hcovers
  rw [append_nil] at hapart
  simp only [append_nil] at hall
  have hne {p q : List Nat} (h : Apart p q) : p ≠ q := fun heq => h.1 (heq ▸ prefix_rfl)
  refine ⟨_, hapart.imp hne, fun path => ⟨fun hpath => ?_, fun ⟨goal, hpath, hgoal⟩ => ?_⟩, ?_⟩
  · obtain ⟨x, hx, rfl⟩ := mem_map.mp hpath
    exact ⟨x.2, hfound hx⟩
  · obtain ⟨x, hx, rest, rfl⟩ := hall hpath hgoal
    obtain ⟨halong, hisGoal⟩ := hfound hx
    rw [along_append, halong, Option.bind_some] at hpath
    cases rest with
    | nil =>
      rw [append_nil]
      exact mem_map_of_mem hx
    | cons k rest =>
      rw [along, if_pos hisGoal] at hpath
      cases hpath
  · rw [unlabel, forall₂_map_left_iff, forall₂_map_right_iff, forall₂_same]
    exact fun x hx => (hfound hx).1

/-! ### The end of the search -/

/-- The paths that are no longer than the number are those of a range of indices, and none is
shorter. -/
def Deep (n : Nat) (frontier : Frontier (List Nat × σ)) (i count : Nat) : Prop :=
  ∀ j x, frontier.pending[j]? = some x →
    n ≤ x.1.length ∧ (j < i ∨ i + count ≤ j → n + 1 ≤ x.1.length)

theorem Deep.turn {frontier : Frontier (List Nat × σ)} {i count : Nat}
    (h : Deep n frontier i (count + 1)) :
    Deep n (search.labelled.turn frontier i).1 (search.labelled.turn frontier i).2 count := by
  cases hx : frontier.pending[i]? with
  | none =>
    rw [turn_none hx]
    intro j x hj
    refine ⟨(h j x hj).1, fun hout => (h j x hj).2 ?_⟩
    have hne : j ≠ i := fun heq => by
      rw [heq, hx] at hj
      cases hj
    dsimp only at hout
    omega
  | some x =>
    have hlt := (List.getElem?_eq_some_iff.mp hx).1
    have herase (found : List (List Nat × σ)) :
        Deep n ⟨frontier.pending.eraseIdx i, found⟩ i count := by
      intro j y hj
      rw [getElem?_eraseIdx] at hj
      split at hj
      · next hji => exact ⟨(h j y hj).1, fun _ => (h j y hj).2 (.inl hji)⟩
      · exact ⟨(h _ y hj).1, fun hout => (h _ y hj).2 (by omega)⟩
    by_cases hgoal : search.labelled.isGoal x = true
    · rw [turn_goal hx hgoal]
      exact herase _
    · have hlonger : ∀ y ∈ search.labelled.next x, n + 1 ≤ y.1.length := by
        intro y hy
        obtain ⟨k, hk⟩ := getElem?_of_mem hy
        rw [labelled, getElem?_mapIdx] at hk
        obtain ⟨state, -, rfl⟩ := Option.map_eq_some_iff.mp hk
        rw [length_append, length_singleton]
        exact Nat.succ_le_succ (h i x hx).1
      cases hnext : search.labelled.next x with
      | nil =>
        rw [turn_dead hx hgoal hnext]
        exact herase _
      | cons first others =>
        rw [turn_next hx hgoal hnext]
        rw [hnext] at hlonger
        intro j y hj
        dsimp only at hj
        rw [getElem?_set] at hj
        split at hj
        · split at hj
          · cases hj
            have hlength := hlonger first (mem_cons_self ..)
            exact ⟨by omega, fun _ => hlength⟩
          · cases hj
        · next hne =>
          rw [getElem?_append] at hj
          split at hj
          · exact ⟨(h j y hj).1, fun hout => (h j y hj).2 (by dsimp only at hout; omega)⟩
          · have hlength :=
              hlonger y (mem_cons_of_mem _ (mem_of_getElem? hj))
            exact ⟨by omega, fun _ => hlength⟩

theorem Deep.round {frontier : Frontier (List Nat × σ)} {i count : Nat}
    (h : Deep n frontier i count) :
    Deep (n + 1) (search.labelled.round count frontier i) 0
      (search.labelled.round count frontier i).pending.length := by
  induction count generalizing frontier i with
  | zero =>
    intro j x hj
    have hlength := (h j x hj).2 (by omega)
    refine ⟨hlength, fun hout => ?_⟩
    have hlt := (List.getElem?_eq_some_iff.mp hj).1
    rw [Search.round] at hlt hout
    omega
  | succ count ih => exact ih h.turn

/-- **The search ends** if no path is longer than the bound. -/
theorem pending_eq_nil {start : σ} {bound : Nat}
    (h : ∀ path state, search.along start path = some state → path.length ≤ bound)
    (hn : bound < n) : (search.rounds n ⟨[start], []⟩).pending = [] := by
  have hdeep : ∀ n, Deep n (search.labelled.rounds n ⟨[([], start)], []⟩) 0
      (search.labelled.rounds n ⟨[([], start)], []⟩).pending.length := by
    intro n
    induction n with
    | zero =>
      intro j x hj
      have hlt := (List.getElem?_eq_some_iff.mp hj).1
      rw [rounds] at hlt ⊢
      exact ⟨Nat.zero_le _, fun hout => by omega⟩
    | succ n ih =>
      rw [rounds_succ]
      exact ih.round
  have hcovers : search.Covers start _ _ := covers_rounds n
  rw [rounds_start, unlabel, map_eq_nil_iff, eq_nil_iff_forall_not_mem]
  intro x hx
  obtain ⟨j, hj⟩ := getElem?_of_mem hx
  have hle := h _ _ (hcovers.pending_along hx)
  have hge := (hdeep n j x hj).1
  omega

end Search

end Library
