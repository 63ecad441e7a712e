import Mathlib

/-!
# Library.RunningMaxima

A loop that **keeps the maximal elements** of what it has seen. It compares a new element with all
that it keeps at once: a greater one replaces them, an equal one joins them, a lesser one is
ignored.

If elements and groups of them are compared by ranks, this gives the elements that no other one
outranks, in whatever order they come. `ranked_of_keepsMaxima` says that nothing less will do.
-/

namespace Library

open List

variable {α : Type*} (cmp : α → List α → Ordering)

/-- One more element, compared with those that are kept. -/
def keep (kept : List α) (x : α) : List α :=
  if kept = [] then [x]
  else
    match cmp x kept with
    | .gt => [x]
    | .eq => kept ++ [x]
    | .lt => kept

/-- What is kept of some elements, in the order in which they come. -/
def keepAll (xs : List α) : List α := xs.foldl (keep cmp) []

/-- An element is greater than another one alone. -/
def Outranks (y x : α) : Prop := cmp y [x] = .gt

/-- What is kept of the elements is what no other one of them outranks. -/
def KeepsMaxima (xs : List α) : Prop :=
  ∀ x, x ∈ keepAll cmp xs ↔ x ∈ xs ∧ ∀ y ∈ xs, y ≠ x → ¬ Outranks cmp y x

/-- An element is compared with several of one rank as the ranks are. -/
def RankedBy (rank : α → Int) (items : List α) : Prop :=
  ∀ group, group ≠ [] → group.Nodup → group ⊆ items →
    (∀ y ∈ group, ∀ z ∈ group, rank y = rank z) →
      ∀ x ∈ items, x ∉ group → ∀ z ∈ group, cmp x group = compare (rank x) (rank z)

theorem keep_cases {kept : List α} (h : kept ≠ []) (x : α) :
    (cmp x kept = .gt ∧ keep cmp kept x = [x]) ∨
      (cmp x kept = .eq ∧ keep cmp kept x = kept ++ [x]) ∨
      (cmp x kept = .lt ∧ keep cmp kept x = kept) := by
  rw [keep, if_neg h]
  cases cmp x kept <;> simp

variable {cmp}

theorem keepAll_append_singleton (xs : List α) (x : α) :
    keepAll cmp (xs ++ [x]) = keep cmp (keepAll cmp xs) x := by
  rw [keepAll, foldl_append]
  rfl

theorem keep_ne_nil (kept : List α) (x : α) : keep cmp kept x ≠ [] := by
  by_cases h : kept = []
  · rw [keep, if_pos h]
    exact cons_ne_nil _ _
  · rcases keep_cases cmp h x with ⟨-, heq⟩ | ⟨-, heq⟩ | ⟨-, heq⟩
    · simp [heq]
    · simp [heq]
    · rwa [heq]

theorem mem_of_mem_keepAll {xs : List α} {x : α} (h : x ∈ keepAll cmp xs) : x ∈ xs := by
  induction xs using List.reverseRecOn with
  | nil => exact h
  | append_singleton xs y ih =>
    rw [keepAll_append_singleton] at h
    by_cases hnil : keepAll cmp xs = []
    · rw [keep, if_pos hnil] at h
      exact mem_append_right _ h
    · rcases keep_cases cmp hnil y with ⟨-, heq⟩ | ⟨-, heq⟩ | ⟨-, heq⟩ <;> rw [heq] at h
      · exact mem_append_right _ h
      · exact (mem_append.mp h).elim (fun h => mem_append_left _ (ih h))
          (mem_append_right _)
      · exact mem_append_left _ (ih h)

/-! ### Ranks are enough -/

section Sufficient

variable {rank : α → Int} {items : List α}

/-- What is kept are the elements of the greatest rank. -/
structure KeepsTop (rank : α → Int) (xs kept : List α) : Prop where
  nodup : kept.Nodup
  ne_nil : xs ≠ [] → kept ≠ []
  mem_iff : ∀ x, x ∈ kept ↔ x ∈ xs ∧ ∀ y ∈ xs, rank y ≤ rank x

theorem KeepsTop.rank_eq {xs kept : List α} (h : KeepsTop rank xs kept) {y z : α}
    (hy : y ∈ kept) (hz : z ∈ kept) : rank y = rank z :=
  le_antisymm (((h.mem_iff z).mp hz).2 y ((h.mem_iff y).mp hy).1)
    (((h.mem_iff y).mp hy).2 z ((h.mem_iff z).mp hz).1)

theorem KeepsTop.step {xs kept : List α} (h : KeepsTop rank xs kept) {x : α} (hx : x ∉ xs)
    (hcmp : ∀ z ∈ kept, cmp x kept = compare (rank x) (rank z)) :
    KeepsTop rank (xs ++ [x]) (keep cmp kept x) := by
  have hmem_append : ∀ y, y ∈ xs ++ [x] ↔ y ∈ xs ∨ y = x := by simp
  by_cases hnil : kept = []
  · have hxs : xs = [] := by
      by_contra hne
      exact h.ne_nil hne hnil
    rw [keep, if_pos hnil, hxs]
    exact ⟨nodup_singleton x, fun _ => cons_ne_nil _ _, by simp⟩
  · obtain ⟨z, hz⟩ := exists_mem_of_ne_nil kept hnil
    have htop := (h.mem_iff z).mp hz
    have hxkept : x ∉ kept := fun hmem => hx ((h.mem_iff x).mp hmem).1
    rcases keep_cases cmp hnil x with ⟨hgt, heq⟩ | ⟨hgt, heq⟩ | ⟨hgt, heq⟩ <;>
      rw [hcmp z hz] at hgt <;> rw [heq]
    · -- the new element is greater than all that came before
      have hlt : rank z < rank x := compare_gt_iff_gt.mp hgt
      refine ⟨nodup_singleton x, fun _ => cons_ne_nil _ _, fun y => ?_⟩
      rw [mem_singleton, hmem_append]
      constructor
      · rintro rfl
        refine ⟨.inr rfl, fun w hw => ?_⟩
        rcases (hmem_append w).mp hw with hw | rfl
        · exact (htop.2 w hw).trans hlt.le
        · exact le_rfl
      · rintro ⟨hy | rfl, hle⟩
        · have hxy := hle x ((hmem_append x).mpr (.inr rfl))
          exact absurd (hxy.trans (htop.2 y hy)) hlt.not_ge
        · rfl
    · -- it has the same rank
      have hsame : rank x = rank z := compare_eq_iff_eq.mp hgt
      refine ⟨?_, fun _ => by simp, fun y => ?_⟩
      · rw [nodup_append_comm]
        exact nodup_cons.mpr ⟨hxkept, h.nodup⟩
      · rw [mem_append, mem_singleton, hmem_append, h.mem_iff]
        constructor
        · rintro (⟨hy, hle⟩ | rfl)
          · refine ⟨.inl hy, fun w hw => ?_⟩
            rcases (hmem_append w).mp hw with hw | rfl
            · exact hle w hw
            · rw [hsame]
              exact hle z htop.1
          · refine ⟨.inr rfl, fun w hw => ?_⟩
            rcases (hmem_append w).mp hw with hw | rfl
            · rw [hsame]
              exact htop.2 w hw
            · exact le_rfl
        · rintro ⟨hy | rfl, hle⟩
          · exact .inl ⟨hy, fun w hw => hle w ((hmem_append w).mpr (.inl hw))⟩
          · exact .inr rfl
    · -- it is less
      have hlt : rank x < rank z := compare_lt_iff_lt.mp hgt
      refine ⟨h.nodup, fun _ => hnil, fun y => ?_⟩
      rw [h.mem_iff, hmem_append]
      constructor
      · rintro ⟨hy, hle⟩
        refine ⟨.inl hy, fun w hw => ?_⟩
        rcases (hmem_append w).mp hw with hw | rfl
        · exact hle w hw
        · exact hlt.le.trans (hle z htop.1)
      · rintro ⟨hy | rfl, hle⟩
        · exact ⟨hy, fun w hw => hle w ((hmem_append w).mpr (.inl hw))⟩
        · exact absurd (hle z ((hmem_append z).mpr (.inl htop.1))) hlt.not_ge

theorem RankedBy.outranks_iff {y x : α} (hrank : RankedBy cmp rank items) (hx : x ∈ items)
    (hy : y ∈ items) (hne : y ≠ x) : Outranks cmp y x ↔ rank x < rank y := by
  rw [Outranks, hrank [x] (cons_ne_nil _ _) (nodup_singleton x) (by simpa using hx)
    (by simp) y hy (by simpa using hne) x (mem_singleton_self x), compare_gt_iff_gt]

theorem RankedBy.cmp_keepAll (hrank : RankedBy cmp rank items) {xs : List α} {x : α}
    (hkeeps : KeepsTop rank xs (keepAll cmp xs)) (hsub : xs ⊆ items) (hx : x ∈ items)
    (hnot : x ∉ xs) {z : α} (hz : z ∈ keepAll cmp xs) :
    cmp x (keepAll cmp xs) = compare (rank x) (rank z) :=
  hrank _ (ne_nil_of_mem hz) hkeeps.nodup (fun y hy => hsub ((hkeeps.mem_iff y).mp hy).1)
    (fun _ hy _ hz => hkeeps.rank_eq hy hz) x hx
    (fun hmem => hnot ((hkeeps.mem_iff x).mp hmem).1) z hz

theorem RankedBy.keepsTop (hrank : RankedBy cmp rank items) {xs : List α} (hnodup : xs.Nodup)
    (hsub : xs ⊆ items) : KeepsTop rank xs (keepAll cmp xs) := by
  induction xs using List.reverseRecOn with
  | nil => exact ⟨nodup_nil, fun h => absurd rfl h, by simp [keepAll]⟩
  | append_singleton xs x ih =>
    have hx : x ∉ xs := fun hmem =>
      disjoint_of_nodup_append hnodup hmem (mem_singleton_self x)
    have hxs : xs ⊆ items := fun y hy => hsub (mem_append_left _ hy)
    have hih := ih (List.Nodup.of_append_left hnodup) hxs
    rw [keepAll_append_singleton]
    exact hih.step hx fun z hz => hrank.cmp_keepAll hih hxs (hsub (by simp)) hx hz

theorem RankedBy.keepsMaxima (hrank : RankedBy cmp rank items) {xs : List α} (hnodup : xs.Nodup)
    (hsub : xs ⊆ items) : KeepsMaxima cmp xs := by
  intro x
  rw [(hrank.keepsTop hnodup hsub).mem_iff]
  refine and_congr_right fun hx => forall₂_congr fun y hy => ?_
  by_cases hne : y = x
  · simp [hne]
  · rw [hrank.outranks_iff (hsub hx) (hsub hy) hne]
    simp [hne]

end Sufficient

/-! ### And necessary -/

section Necessary

variable {items : List α} (h : ∀ xs : List α, xs.Nodup → xs ⊆ items → KeepsMaxima cmp xs)

include h

/-- Whether one element outranks another can be told from either side. -/
theorem cmp_singleton_eq_lt_iff {x y : α} (hx : x ∈ items) (hy : y ∈ items) (hne : x ≠ y) :
    cmp x [y] = .lt ↔ Outranks cmp y x := by
  have hmax := h [y, x] (by simp [hne.symm]) (by simp [hx, hy]) x
  have hkeep : keepAll cmp [y, x] = keep cmp [y] x := rfl
  rw [hkeep] at hmax
  have hiff : (∀ z ∈ [y, x], z ≠ x → ¬ Outranks cmp z x) ↔ ¬ Outranks cmp y x := by
    simp [hne.symm]
  rcases keep_cases cmp (cons_ne_nil y []) x with ⟨hcmp, heq⟩ | ⟨hcmp, heq⟩ |
    ⟨hcmp, heq⟩ <;> rw [heq] at hmax <;> rw [hcmp] <;> simp_all

theorem not_outranks_of_outranks {x y : α} (hx : x ∈ items) (hy : y ∈ items) (hne : x ≠ y)
    (hout : Outranks cmp x y) : ¬ Outranks cmp y x := by
  rw [← cmp_singleton_eq_lt_iff h hx hy hne, hout]
  exact fun h => by cases h

theorem keepAll_pair {x y : α} (hx : x ∈ items) (hy : y ∈ items) (hne : x ≠ y)
    (hxy : ¬ Outranks cmp x y) (hyx : ¬ Outranks cmp y x) : keepAll cmp [x, y] = [x, y] := by
  rw [← cmp_singleton_eq_lt_iff h hy hx hne.symm] at hxy
  rcases keep_cases cmp (cons_ne_nil x []) y with ⟨hcmp, -⟩ | ⟨-, heq⟩ | ⟨hcmp, -⟩
  · exact absurd hcmp hyx
  · exact heq
  · exact absurd hcmp hxy

theorem outranks_of_tie {x y z : α} (hx : x ∈ items) (hy : y ∈ items) (hz : z ∈ items)
    (hxy : x ≠ y) (hyz : y ≠ z) (hxz : x ≠ z) (htie : ¬ Outranks cmp x y)
    (htie' : ¬ Outranks cmp y x) (hout : Outranks cmp y z) : Outranks cmp x z := by
  by_contra hnot
  have hzy := not_outranks_of_outranks h hy hz hyz hout
  by_cases hzx : Outranks cmp z x
  · -- of `x`, `y`, `z` only `y` is not outranked
    have hmax := h [x, y, z] (by simp [hxy, hyz, hxz]) (by simp [hx, hy, hz])
    have hkeep : keepAll cmp [x, y, z] = keep cmp [x, y] z := by
      rw [← keepAll_pair h hx hy hxy htie htie']
      rfl
    have hymem : y ∈ keep cmp [x, y] z := hkeep ▸ (hmax y).mpr ⟨by simp, by simp [htie, hzy]⟩
    have hxmem : x ∉ keep cmp [x, y] z := fun hmem =>
      ((hmax x).mp (hkeep ▸ hmem)).2 z (by simp) hxz.symm hzx
    rcases keep_cases cmp (cons_ne_nil x [y]) z with ⟨-, heq⟩ | ⟨-, heq⟩ | ⟨-, heq⟩
    · simp [heq, hyz] at hymem
    · simp [heq] at hxmem
    · simp [heq] at hxmem
  · -- of `x`, `z`, `y` only `z` is outranked
    have hmax := h [x, z, y] (by simp [hxy, hyz.symm, hxz]) (by simp [hx, hy, hz])
    have hkeep : keepAll cmp [x, z, y] = keep cmp [x, z] y := by
      rw [← keepAll_pair h hx hz hxz hnot hzx]
      rfl
    have hxmem : x ∈ keep cmp [x, z] y := hkeep ▸ (hmax x).mpr ⟨by simp, by simp [htie', hzx]⟩
    have hzmem : z ∉ keep cmp [x, z] y := fun hmem =>
      ((hmax z).mp (hkeep ▸ hmem)).2 y (by simp) hyz hout
    rcases keep_cases cmp (cons_ne_nil x [z]) y with ⟨-, heq⟩ | ⟨-, heq⟩ | ⟨-, heq⟩
    · simp [heq, hxy] at hxmem
    · simp [heq] at hzmem
    · simp [heq] at hzmem

theorem outranks_trans {x y z : α} (hx : x ∈ items) (hy : y ∈ items) (hz : z ∈ items)
    (hxy : x ≠ y) (hyz : y ≠ z) (hxz : x ≠ z) (hout : Outranks cmp x y)
    (hout' : Outranks cmp y z) : Outranks cmp x z := by
  by_contra hnot
  by_cases hzx : Outranks cmp z x
  · -- all three are outranked, but something is kept
    have hmax := h [x, y, z] (by simp [hxy, hyz, hxz]) (by simp [hx, hy, hz])
    have hnone : keepAll cmp [x, y, z] = [] := by
      rw [eq_nil_iff_forall_not_mem]
      intro w hw
      obtain ⟨hmem, hw⟩ := (hmax w).mp hw
      simp only [mem_cons, not_mem_nil, or_false] at hmem
      rcases hmem with rfl | rfl | rfl
      · exact hw z (by simp) hxz.symm hzx
      · exact hw x (by simp) hxy hout
      · exact hw y (by simp) hyz hout'
    exact keep_ne_nil (keepAll cmp [x, y]) z hnone
  · -- of `x`, `z`, `y` only `x` is not outranked
    have hzx' := outranks_of_tie h hz hx hy hxz.symm hxy hyz.symm hzx hnot hout
    exact not_outranks_of_outranks h hy hz hyz hout' hzx'

theorem exists_rank : ∃ rank : α → Int, ∀ x ∈ items, ∀ y ∈ items, x ≠ y →
    (Outranks cmp y x ↔ rank x < rank y) := by
  classical
  let below (x : α) : Finset α := items.toFinset.filter fun w => w ≠ x ∧ Outranks cmp x w
  have hbelow : ∀ x w, w ∈ below x ↔ w ∈ items ∧ w ≠ x ∧ Outranks cmp x w := by
    simp [below]
  -- what is outranked outranks less
  have hlt : ∀ x ∈ items, ∀ y ∈ items, x ≠ y → Outranks cmp y x →
      (below x).card < (below y).card := by
    intro x hx y hy hne hout
    refine Finset.card_lt_card (Finset.ssubset_iff_of_subset ?_ |>.mpr ⟨x, ?_, ?_⟩)
    · intro w hw
      obtain ⟨hwmem, hwx, hw⟩ := (hbelow x w).mp hw
      have hwy : w ≠ y := by
        rintro rfl
        exact not_outranks_of_outranks h hy hx hne.symm hout hw
      exact (hbelow y w).mpr
        ⟨hwmem, hwy, outranks_trans h hy hx hwmem hne.symm hwx.symm hwy.symm hout hw⟩
    · exact (hbelow y x).mpr ⟨hx, hne, hout⟩
    · exact fun hmem => ((hbelow x x).mp hmem).2.1 rfl
  -- those that tie outrank the same
  have hle : ∀ x ∈ items, ∀ y ∈ items, x ≠ y → ¬ Outranks cmp y x → ¬ Outranks cmp x y →
      (below y).card ≤ (below x).card := by
    intro x hx y hy hne hyx hxy
    refine Finset.card_le_card fun w hw => ?_
    obtain ⟨hwmem, hwy, hw⟩ := (hbelow y w).mp hw
    have hwx : w ≠ x := by
      rintro rfl
      exact hyx hw
    exact (hbelow x w).mpr
      ⟨hwmem, hwx, outranks_of_tie h hx hy hwmem hne hwy.symm hwx.symm hxy hyx hw⟩
  refine ⟨fun x => (below x).card, fun x hx y hy hne => ?_⟩
  rw [Int.ofNat_lt]
  refine ⟨hlt x hx y hy hne, fun hcard => ?_⟩
  by_contra hyx
  by_cases hxy : Outranks cmp x y
  · exact hcard.not_gt (hlt y hy x hx hne.symm hxy)
  · exact hcard.not_ge (hle x hx y hy hne hyx hxy)

theorem keepAll_group {group : List α} (hnodup : group.Nodup) (hsub : group ⊆ items)
    (hties : ∀ y ∈ group, ∀ z ∈ group, y ≠ z → ¬ Outranks cmp y z) :
    keepAll cmp group = group := by
  induction group using List.reverseRecOn with
  | nil => rfl
  | append_singleton group x ih =>
    have hx : x ∉ group := fun hmem =>
      disjoint_of_nodup_append hnodup hmem (mem_singleton_self x)
    have hih := ih (List.Nodup.of_append_left hnodup)
      (fun y hy => hsub (mem_append_left _ hy))
      (fun y hy z hz => hties y (mem_append_left _ hy) z (mem_append_left _ hz))
    have hmax := h _ hnodup hsub
    have hall : ∀ y ∈ group ++ [x], y ∈ keepAll cmp (group ++ [x]) := fun y hy =>
      (hmax y).mpr ⟨hy, fun z hz hne => hties z hz y hy hne⟩
    rw [keepAll_append_singleton, hih] at hall ⊢
    by_cases hnil : group = []
    · rw [keep, if_pos hnil, hnil]
      rfl
    · rcases keep_cases cmp hnil x with ⟨-, heq⟩ | ⟨-, heq⟩ | ⟨-, heq⟩
      · obtain ⟨y, hy⟩ := exists_mem_of_ne_nil group hnil
        have hyx := hall y (mem_append_left _ hy)
        rw [heq, mem_singleton] at hyx
        exact absurd (hyx ▸ hy) hx
      · exact heq
      · have hmem := hall x (by simp)
        rw [heq] at hmem
        exact absurd hmem hx

theorem ranked_of_keepsMaxima : ∃ rank, RankedBy cmp rank items := by
  obtain ⟨rank, hrank⟩ := exists_rank h
  refine ⟨rank, fun group hnil hnodup hsub hsame x hx hxgroup z hz => ?_⟩
  have hties : ∀ y ∈ group, ∀ w ∈ group, y ≠ w → ¬ Outranks cmp y w := by
    intro y hy w hw hne
    rw [hrank w (hsub hw) y (hsub hy) hne.symm, hsame w hw y hy]
    exact lt_irrefl _
  have hgroup := keepAll_group h hnodup hsub hties
  have hnodup' : (group ++ [x]).Nodup := by
    rw [nodup_append_comm]
    exact nodup_cons.mpr ⟨hxgroup, hnodup⟩
  have hmax := h (group ++ [x]) hnodup' (by
    intro y hy
    rcases mem_append.mp hy with hy | hy
    · exact hsub hy
    · rw [mem_singleton.mp hy]
      exact hx)
  rw [KeepsMaxima, keepAll_append_singleton, hgroup] at hmax
  have hne : ∀ y ∈ group, y ≠ x := fun y hy heq => hxgroup (heq ▸ hy)
  -- whether the new element is kept, and whether `z` is
  have hxmem : x ∈ keep cmp group x ↔ rank z ≤ rank x := by
    rw [hmax x]
    constructor
    · rintro ⟨-, hout⟩
      have hzx := hout z (mem_append_left _ hz) (hne z hz)
      rw [hrank x hx z (hsub hz) (hne z hz).symm] at hzx
      exact not_lt.mp hzx
    · refine fun hle => ⟨by simp, fun y hy hyx => ?_⟩
      have hygroup : y ∈ group := (mem_append.mp hy).resolve_right (by simpa using hyx)
      rw [hrank x hx y (hsub hygroup) hyx.symm, hsame y hygroup z hz]
      exact hle.not_gt
  have hzmem : z ∈ keep cmp group x ↔ rank x ≤ rank z := by
    rw [hmax z]
    constructor
    · rintro ⟨-, hout⟩
      have hxz := hout x (by simp) (hne z hz).symm
      rw [hrank z (hsub hz) x hx (hne z hz)] at hxz
      exact not_lt.mp hxz
    · refine fun hle => ⟨mem_append_left _ hz, fun y hy hyz => ?_⟩
      rcases mem_append.mp hy with hy | hy
      · exact hties y hy z hz hyz
      · rw [mem_singleton.mp hy, hrank z (hsub hz) x hx (hne z hz)]
        exact hle.not_gt
  rcases keep_cases cmp hnil x with ⟨hcmp, heq⟩ | ⟨hcmp, heq⟩ | ⟨hcmp, heq⟩ <;>
    rw [heq] at hxmem hzmem <;> rw [hcmp, eq_comm]
  · rw [compare_gt_iff_gt]
    exact not_le.mp fun hle => hne z hz (mem_singleton.mp (hzmem.mpr hle))
  · rw [compare_eq_iff_eq]
    exact le_antisymm (hzmem.mp (mem_append_left _ hz)) (hxmem.mp (by simp))
  · rw [compare_lt_iff_lt]
    exact not_le.mp fun hle => hxgroup (hxmem.mpr hle)

end Necessary

end Library
