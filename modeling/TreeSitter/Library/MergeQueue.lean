import Mathlib

/-!
# TreeSitter.Library.MergeQueue

A **merge queue**: a list of sources that are merged by key. Each source has a key as long as it is
live, and none once it is exhausted. Only the first source is ever advanced, so the order is kept
by letting it sink to its place again (`settle`) and by placing new sources behind it (`place`).

That works only on a list whose other sources are in order and live: `Merged` says so, and
`merged_settle_iff` says that `settle` gives a merged list exactly when the part behind the first
live source was one before.
-/

namespace Library.MergeQueue

open List

variable {α κ : Type*} [LinearOrder κ] {key : α → Option κ}

/-- `x`, whose key is `k`, sinks behind the live sources with smaller keys. -/
def sink (key : α → Option κ) (k : κ) (x : α) : List α → List α
  | [] => [x]
  | y :: ys =>
    match key y with
    | some k' => if k' < k then y :: sink key k x ys else x :: y :: ys
    | none => x :: y :: ys

/-- Drops exhausted sources from the front and lets the first live one sink. -/
def settle (key : α → Option κ) : List α → List α
  | [] => []
  | x :: xs =>
    match key x with
    | some k => sink key k x xs
    | none => settle key xs

/-- Puts `x`, whose key is `k`, before the first source with a greater key. Exhausted sources on
the way are dropped. -/
def place (key : α → Option κ) (k : κ) (x : α) : List α → List α
  | [] => [x]
  | y :: ys =>
    match key y with
    | some k' => if k < k' then x :: y :: ys else y :: place key k x ys
    | none => place key k x ys

/-- The part behind the first live source. -/
def behind (key : α → Option κ) : List α → List α
  | [] => []
  | x :: xs => if (key x).isSome then xs else behind key xs

/-- All sources are live, and their keys are in order. -/
def Merged (key : α → Option κ) (l : List α) : Prop :=
  ∃ keys : List κ, l.map key = keys.map some ∧ keys.Pairwise (· ≤ ·)

/-! ### Merged lists -/

theorem merged_nil : Merged key ([] : List α) :=
  ⟨[], rfl, .nil⟩

variable {x : α}

theorem merged_cons_iff {xs : List α} :
    Merged key (x :: xs) ↔
      ∃ k, key x = some k ∧ (∀ y ∈ xs, ∀ k', key y = some k' → k ≤ k') ∧ Merged key xs := by
  constructor
  · intro ⟨keys, hkeys, hsorted⟩
    cases keys with
    | nil => simp at hkeys
    | cons k keys =>
      simp only [map_cons, List.cons.injEq] at hkeys
      rw [pairwise_cons] at hsorted
      refine ⟨k, hkeys.1, fun y hy k' hk' => hsorted.1 k' ?_, keys, hkeys.2, hsorted.2⟩
      have hmem : some k' ∈ keys.map some := by
        rw [← hkeys.2, ← hk']
        exact mem_map_of_mem hy
      simpa using hmem
  · intro ⟨k, hk, hle, keys, hkeys, hsorted⟩
    refine ⟨k :: keys, by simp [hk, hkeys], pairwise_cons.mpr ⟨fun k' hk' => ?_, hsorted⟩⟩
    have hmem : some k' ∈ xs.map key := by
      rw [hkeys]
      exact mem_map_of_mem hk'
    obtain ⟨y, hy, hyk⟩ := mem_map.mp hmem
    exact hle y hy k' hyk

variable {l : List α}

theorem Merged.isSome (h : Merged key l) (hx : x ∈ l) :
    (key x).isSome := by
  obtain ⟨keys, hkeys, _⟩ := h
  have hmem : key x ∈ keys.map some := hkeys ▸ mem_map_of_mem hx
  obtain ⟨k, _, hk⟩ := mem_map.mp hmem
  simp [← hk]

theorem Merged.sublist {l' : List α} (h : Merged key l) (hl : l'.Sublist l) : Merged key l' := by
  induction hl with
  | slnil => exact h
  | cons x _ ih =>
    obtain ⟨_, _, _, h⟩ := merged_cons_iff.mp h
    exact ih h
  | cons_cons x hl ih =>
    obtain ⟨k, hk, hle, h⟩ := merged_cons_iff.mp h
    exact merged_cons_iff.mpr ⟨k, hk, fun y hy => hle y (hl.subset hy), ih h⟩

/-! ### Sinking -/

variable {k : κ} {y : α}

theorem mem_sink : y ∈ sink key k x l ↔ y = x ∨ y ∈ l := by
  induction l with
  | nil => simp [sink]
  | cons z l ih =>
    simp only [sink]
    split
    · split
      · simp only [mem_cons, ih]
        tauto
      · simp
    · simp

theorem sublist_sink (k : κ) (x : α) (l : List α) : l.Sublist (sink key k x l) := by
  induction l with
  | nil => exact nil_sublist _
  | cons z l ih =>
    simp only [sink]
    split
    · split
      · exact ih.cons_cons z
      · exact sublist_cons_self _ _
    · exact sublist_cons_self _ _

theorem merged_sink (hx : key x = some k) (h : Merged key l) :
    Merged key (sink key k x l) := by
  induction l with
  | nil => exact merged_cons_iff.mpr ⟨k, hx, by simp, h⟩
  | cons z l ih =>
    obtain ⟨k', hz, hle, hl⟩ := merged_cons_iff.mp h
    simp only [sink, hz]
    split
    next hlt =>
      refine merged_cons_iff.mpr ⟨k', hz, fun y hy ky hky => ?_, ih hl⟩
      rcases mem_sink.mp hy with rfl | hy
      · rw [hx] at hky
        cases hky
        exact le_of_lt hlt
      · exact hle y hy ky hky
    next hnlt =>
      refine merged_cons_iff.mpr ⟨k, hx, fun y hy ky hky => ?_, h⟩
      rcases mem_cons.mp hy with rfl | hy
      · rw [hz] at hky
        cases hky
        exact not_lt.mp hnlt
      · exact le_trans (not_lt.mp hnlt) (hle y hy ky hky)

/-! ### Settling -/

theorem merged_settle (h : Merged key (behind key l)) : Merged key (settle key l) := by
  induction l with
  | nil => exact merged_nil
  | cons x l ih =>
    simp only [settle]
    split
    next k hk => exact merged_sink hk (by simpa [behind, hk] using h)
    next hk => exact ih (by simpa [behind, hk] using h)

theorem merged_settle_iff :
    Merged key (settle key l) ↔ Merged key (behind key l) := by
  refine ⟨fun h => ?_, merged_settle⟩
  induction l with
  | nil => exact merged_nil
  | cons x l ih =>
    simp only [settle] at h
    split at h
    next k hk =>
      simp only [behind, hk, Option.isSome_some, if_true]
      exact h.sublist (sublist_sink k x l)
    next hk => simpa [behind, hk] using ih h

theorem merged_behind_cons (h : Merged key l) :
    Merged key (behind key (x :: l)) := by
  simp only [behind]
  split
  · exact h
  · cases l with
    | nil => exact merged_nil
    | cons y l =>
      obtain ⟨k, hk, _, hl⟩ := merged_cons_iff.mp h
      simpa [behind, hk] using hl

theorem mem_of_mem_settle (h : y ∈ settle key l) : y ∈ l := by
  induction l with
  | nil => exact h
  | cons x l ih =>
    simp only [settle] at h
    split at h
    · exact mem_cons.mpr (mem_sink.mp h)
    · exact mem_cons_of_mem _ (ih h)

theorem settle_head_isSome {l' : List α} (h : settle key l = y :: l') :
    (key y).isSome := by
  induction l with
  | nil => cases h
  | cons x l ih =>
    simp only [settle] at h
    split at h
    next k hk =>
      cases l with
      | nil =>
        simp only [sink, List.cons.injEq] at h
        rw [← h.1, hk]
        rfl
      | cons z l =>
        simp only [sink] at h
        split at h
        next k' hz =>
          split at h <;> simp only [List.cons.injEq] at h
          · rw [← h.1, hz]
            rfl
          · rw [← h.1, hk]
            rfl
        next hz =>
          simp only [List.cons.injEq] at h
          rw [← h.1, hk]
          rfl
    next hk => exact ih h

/-! ### Placing -/

theorem mem_of_mem_place (h : y ∈ place key k x l) :
    y = x ∨ y ∈ l := by
  induction l with
  | nil => simpa [place] using h
  | cons z l ih =>
    simp only [place] at h
    split at h
    · split at h
      · exact mem_cons.mp h
      · rcases mem_cons.mp h with rfl | h
        · exact .inr (by simp)
        · exact (ih h).imp_right (mem_cons_of_mem z)
    · exact (ih h).imp_right (mem_cons_of_mem z)

theorem merged_place (hx : key x = some k) (h : Merged key l) :
    Merged key (place key k x l) := by
  induction l with
  | nil => exact merged_cons_iff.mpr ⟨k, hx, by simp, h⟩
  | cons z l ih =>
    obtain ⟨k', hz, hle, hl⟩ := merged_cons_iff.mp h
    simp only [place, hz]
    split
    next hlt =>
      refine merged_cons_iff.mpr ⟨k, hx, fun y hy ky hky => ?_, h⟩
      rcases mem_cons.mp hy with rfl | hy
      · rw [hz] at hky
        cases hky
        exact le_of_lt hlt
      · exact le_trans (le_of_lt hlt) (hle y hy ky hky)
    next hnlt =>
      refine merged_cons_iff.mpr ⟨k', hz, fun y hy ky hky => ?_, ih hl⟩
      rcases mem_of_mem_place hy with rfl | hy
      · rw [hx] at hky
        cases hky
        exact not_lt.mp hnlt
      · exact hle y hy ky hky

/-! ### Sums over the sources

Only exhausted sources are dropped, so a count that is zero on those keeps its sum. -/

variable {count : α → Nat}

theorem sum_sink (k : κ) (x : α) (l : List α) :
    ((sink key k x l).map count).sum = count x + (l.map count).sum := by
  induction l with
  | nil => simp [sink]
  | cons z l ih =>
    simp only [sink]
    split
    · split
      · simp only [map_cons, sum_cons, ih]
        omega
      · simp
    · simp

theorem sum_settle (hcount : ∀ x, key x = none → count x = 0) (l : List α) :
    ((settle key l).map count).sum = (l.map count).sum := by
  induction l with
  | nil => rfl
  | cons x l ih =>
    simp only [settle]
    split
    next k hk => simp [sum_sink]
    next hk => simp [ih, hcount x hk]

theorem sum_place (hcount : ∀ x, key x = none → count x = 0) (k : κ) (x : α) (l : List α) :
    ((place key k x l).map count).sum = count x + (l.map count).sum := by
  induction l with
  | nil => simp [place]
  | cons z l ih =>
    simp only [place]
    split
    · split
      · simp
      · simp only [map_cons, sum_cons, ih]
        omega
    next hz => simp [ih, hcount z hz]

/-! ### What the first source contributes -/

theorem flatMap_sink {β : Type*} {f : α → List β} (hl : ∀ y ∈ l, f y = []) (k : κ) (x : α) :
    (sink key k x l).flatMap f = f x := by
  induction l with
  | nil => simp [sink]
  | cons z l ih =>
    obtain ⟨hz, hl⟩ := forall_mem_cons.mp hl
    have hrest : l.flatMap f = [] := flatMap_eq_nil_iff.mpr hl
    simp only [sink]
    split
    · split
      · rw [flatMap_cons, hz, ih hl, nil_append]
      · simp [hz, hrest]
    · simp [hz, hrest]

/-- Where the first source alone contributes something, settling keeps it: an exhausted source
has nothing left. -/
theorem flatMap_settle_cons {β : Type*} {f : α → List β} (hx : key x = none → f x = [])
    (hl : ∀ y ∈ l, f y = []) :
    (settle key (x :: l)).flatMap f = f x := by
  simp only [settle]
  split
  next k hk => exact flatMap_sink hl k x
  next hk =>
    rw [hx hk]
    exact flatMap_eq_nil_iff.mpr fun y hy => hl y (mem_of_mem_settle hy)

end Library.MergeQueue
