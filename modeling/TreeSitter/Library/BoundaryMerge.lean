import Mathlib

/-!
# TreeSitter.Library.BoundaryMerge

**Sets given by boundaries.** A sorted list of boundaries, starts and ends in turn, stands for the
positions behind an odd number of them (`Inside`).

Two such lists are compared by walking over the boundaries of both in order. Where a list has no
boundary left, a largest position `top` is taken for the next one. If there are boundaries at `top`,
a list that is at its end may be moved on as if it had one more, and then there is nothing to read:
the walk ends properly if and only if the numbers of boundaries at `top` differ by at most one
(`mergeRun_isSome_iff`).
-/

namespace Library

open Option List

variable {α : Type} [LinearOrder α]

/-! ### The positions inside -/

/-- The position is behind an odd number of boundaries. -/
def Inside (bs : List α) (p : α) : Prop := Odd (bs.countP (· ≤ p))

theorem countP_le_of_between {bs : List α} {k : Nat} {p : α} (hk : k ≤ bs.length)
    (hbefore : ∀ b ∈ bs.take k, b ≤ p) (hbehind : ∀ b ∈ bs.drop k, p < b) :
    bs.countP (· ≤ p) = k := by
  have hsplit : (bs.take k ++ bs.drop k).countP (· ≤ p) = _ := countP_append
  rw [take_append_drop] at hsplit
  have htake : (bs.take k).countP (· ≤ p) = (bs.take k).length :=
    countP_eq_length.mpr fun b hb => decide_eq_true (hbefore b hb)
  have hdrop : (bs.drop k).countP (· ≤ p) = 0 :=
    countP_eq_zero.mpr fun b hb => by
      rw [decide_eq_true_eq, not_le]
      exact hbehind b hb
  rw [hsplit, htake, hdrop, length_take, Nat.add_zero, min_eq_left hk]

theorem inside_cons_cons {bs : List α} {a b p : α} (hab : a ≤ b) (hbs : ∀ c ∈ bs, b ≤ c) :
    Inside (a :: b :: bs) p ↔ a ≤ p ∧ p < b ∨ Inside bs p := by
  have hzero (h : p < b) : bs.countP (· ≤ p) = 0 :=
    countP_eq_zero.mpr fun c hc => by
      rw [decide_eq_true_eq, not_le]
      exact h.trans_le (hbs c hc)
  simp only [Inside, countP_cons, decide_eq_true_eq]
  rcases lt_or_ge p b with hlt | hge
  · rw [hzero hlt, if_neg (not_le.mpr hlt)]
    rcases lt_or_ge p a with hlt' | hge'
    · rw [if_neg (not_le.mpr hlt')]
      simp [not_le.mpr hlt']
    · rw [if_pos hge']
      simp [hge', hlt]
  · rw [if_pos hge, if_pos (hab.trans hge), Nat.add_assoc, Nat.odd_add]
    simp [not_lt.mpr hge]

/-! ### The walk over the boundaries of two lists -/

variable (top : α)

/-- The next boundary of a list behind `k` of them. Behind all of them there is nothing to read if a
range has been entered. -/
def boundaryAt (bs : List α) (k : Nat) : Option α :=
  match bs[k]? with
  | some b => some b
  | none => if k % 2 = 1 then none else some top

/-- A turn of the walk: the lists that have the first of the next boundaries are moved on. -/
def mergeTurn (bs cs : List α) (counts : Nat × Nat) : Option (Nat × Nat) := do
  let b ← boundaryAt top bs counts.1
  let c ← boundaryAt top cs counts.2
  some (if b ≤ c then counts.1 + 1 else counts.1, if c ≤ b then counts.2 + 1 else counts.2)

/-- The walk, as long as a list has a boundary left, for a number of turns. -/
def mergeRun (bs cs : List α) : Nat → Nat × Nat → Option (Nat × Nat)
  | 0, counts => some counts
  | turns + 1, counts =>
    if counts.1 < bs.length ∨ counts.2 < cs.length then do
      let counts ← mergeTurn top bs cs counts
      mergeRun bs cs turns counts
    else some counts

variable {top} {bs cs : List α} {k m : Nat}

omit [LinearOrder α] in
theorem boundaryAt_eq_some {b : α} (h : boundaryAt top bs k = some b) :
    bs[k]? = some b ∨ bs.length ≤ k ∧ b = top := by
  rw [boundaryAt] at h
  cases hget : bs[k]? with
  | some b' =>
    rw [hget] at h
    exact .inl h
  | none =>
    rw [hget] at h
    dsimp only at h
    split at h
    · cases h
    · exact .inr ⟨getElem?_eq_none_iff.mp hget, (Option.some.inj h).symm⟩

/-- What the walk needs of a list: its boundaries are in order and come in pairs. -/
structure Boundaries (top : α) (bs : List α) : Prop where
  sorted : bs.Pairwise (· ≤ ·)
  le_top {b : α} (hb : b ∈ bs) : b ≤ top
  even : bs.length % 2 = 0

theorem Boundaries.boundaryAt (h : Boundaries top bs) (hk : k ≤ bs.length) :
    ∃ b, boundaryAt top bs k = some b ∧ b ≤ top ∧ (∀ b' ∈ bs.drop k, b ≤ b') ∧
      (k < bs.length → bs[k]? = some b) ∧ (k = bs.length → b = top) := by
  rcases hk.lt_or_eq with hlt | rfl
  · have hget : bs[k]? = some bs[k] := getElem?_eq_getElem hlt
    refine ⟨bs[k], by rw [Library.boundaryAt, hget], h.le_top (getElem_mem hlt), ?_,
      fun _ => hget, fun heq => absurd heq hlt.ne⟩
    have hsorted := h.sorted.drop (i := k)
    rw [List.drop_eq_getElem_cons hlt] at hsorted ⊢
    intro b' hb'
    rcases mem_cons.mp hb' with rfl | hb'
    · exact le_refl _
    · exact (pairwise_cons.mp hsorted).1 b' hb'
  · have hget : bs[bs.length]? = none := getElem?_eq_none (le_refl _)
    refine ⟨top, ?_, le_refl _, fun b' hb' => ?_, fun hlt => absurd hlt (lt_irrefl _), fun _ => rfl⟩
    · rw [Library.boundaryAt, hget]
      exact if_neg (by rw [h.even]; decide)
    · rw [drop_length] at hb'
      exact absurd hb' not_mem_nil

/-- Boundaries at `top`, behind `k` boundaries. -/
def topsFrom (top : α) (bs : List α) (k : Nat) : Nat := (bs.drop k).count top

theorem topsFrom_succ_of_ne {b : α} (hget : bs[k]? = some b) (hne : b ≠ top) :
    topsFrom top bs (k + 1) = topsFrom top bs k := by
  obtain ⟨hlt, rfl⟩ := List.getElem?_eq_some_iff.mp hget
  rw [topsFrom, topsFrom, List.drop_eq_getElem_cons hlt, List.count_cons_of_ne hne]

theorem Boundaries.topsFrom_eq (h : Boundaries top bs) (hall : ∀ b ∈ bs.drop k, top ≤ b) :
    topsFrom top bs k = bs.length - k := by
  rw [topsFrom, ← length_drop]
  exact count_eq_length.mpr fun b hb =>
    le_antisymm (hall b hb) (h.le_top (mem_of_mem_drop hb))

/-! ### Walks that end, and walks that do not -/

theorem mergeTurn_swap (counts : Nat × Nat) :
    mergeTurn top cs bs counts.swap = (mergeTurn top bs cs counts).map Prod.swap := by
  simp only [mergeTurn, Prod.fst_swap, Prod.snd_swap]
  cases boundaryAt top bs counts.1 <;> cases boundaryAt top cs counts.2 <;> rfl

theorem mergeRun_swap (turns : Nat) (counts : Nat × Nat) :
    mergeRun top cs bs turns counts.swap = (mergeRun top bs cs turns counts).map Prod.swap := by
  induction turns generalizing counts with
  | zero => rfl
  | succ turns ih =>
    rw [mergeRun, mergeRun, Prod.fst_swap, Prod.snd_swap, mergeTurn_swap]
    by_cases hopen : counts.1 < bs.length ∨ counts.2 < cs.length
    · rw [if_pos hopen, if_pos hopen.symm]
      cases mergeTurn top bs cs counts with
      | none => rfl
      | some next => exact ih next
    · rw [if_neg hopen, if_neg fun h => hopen h.symm]
      rfl

section

variable (hbs : Boundaries top bs) (hcs : Boundaries top cs)

include hbs hcs

/-- A turn before `top`, or with both lists at `top`: nothing is moved past its end, and the
boundaries at `top` are left in the same proportion. -/
theorem mergeTurn_spec (hk : k ≤ bs.length) (hm : m ≤ cs.length) :
    ∃ k' m', mergeTurn top bs cs (k, m) = some (k', m') ∧ k ≤ k' ∧ m ≤ m' ∧
      ((k' ≤ bs.length ∧ m' ≤ cs.length ∧ k + m < k' + m' ∧
        topsFrom top bs k' + topsFrom top cs m = topsFrom top bs k + topsFrom top cs m') ∨
      (k' = k + 1 ∧ m' = m + 1 ∧ topsFrom top bs k = bs.length - k ∧
        topsFrom top cs m = cs.length - m ∧ (k = bs.length ∨ m = cs.length))) := by
  obtain ⟨b, hb, hbtop, hball, hbget, hbend⟩ := hbs.boundaryAt hk
  obtain ⟨c, hc, hctop, hcall, hcget, hcend⟩ := hcs.boundaryAt hm
  have hturn : mergeTurn top bs cs (k, m) =
      some (if b ≤ c then k + 1 else k, if c ≤ b then m + 1 else m) := by
    simp only [mergeTurn, hb, hc, bind_eq_bind, bind_some]
  rw [hturn]
  have hbreal (hne : b ≠ top) : bs[k]? = some b :=
    hbget (lt_of_le_of_ne hk fun heq => hne (hbend heq))
  have hcreal (hne : c ≠ top) : cs[m]? = some c :=
    hcget (lt_of_le_of_ne hm fun heq => hne (hcend heq))
  rcases lt_trichotomy b c with hlt | rfl | hgt
  · have hget := hbreal (hlt.trans_le hctop).ne
    have hlt' := (List.getElem?_eq_some_iff.mp hget).1
    rw [if_pos hlt.le, if_neg (not_le.mpr hlt)]
    refine ⟨k + 1, m, rfl, by omega, le_refl _, .inl ⟨by omega, hm, by omega, ?_⟩⟩
    rw [topsFrom_succ_of_ne hget (hlt.trans_le hctop).ne]
  · rw [if_pos (le_refl b), if_pos (le_refl b)]
    refine ⟨k + 1, m + 1, rfl, by omega, by omega, ?_⟩
    rcases eq_or_ne b top with rfl | hne
    · have hbtops := hbs.topsFrom_eq hball
      have hctops := hcs.topsFrom_eq hcall
      rcases hk.lt_or_eq with hlt | heq
      · rcases hm.lt_or_eq with hlt' | heq'
        · refine .inl ⟨by omega, by omega, by omega, ?_⟩
          have hbtops' := hbs.topsFrom_eq (k := k + 1)
            fun b' hb' => hball b' (drop_subset_drop_left bs (Nat.le_succ k) hb')
          have hctops' := hcs.topsFrom_eq (k := m + 1)
            fun c' hc' => hcall c' (drop_subset_drop_left cs (Nat.le_succ m) hc')
          omega
        · exact .inr ⟨rfl, rfl, hbtops, hctops, .inr heq'⟩
      · exact .inr ⟨rfl, rfl, hbtops, hctops, .inl heq⟩
    · have hget := hbreal hne
      have hget' := hcreal hne
      have hlt := (List.getElem?_eq_some_iff.mp hget).1
      have hlt' := (List.getElem?_eq_some_iff.mp hget').1
      refine .inl ⟨by omega, by omega, by omega, ?_⟩
      rw [topsFrom_succ_of_ne hget hne, topsFrom_succ_of_ne hget' hne]
  · have hget := hcreal (hgt.trans_le hbtop).ne
    have hlt' := (List.getElem?_eq_some_iff.mp hget).1
    rw [if_neg (not_le.mpr hgt), if_pos hgt.le]
    refine ⟨k, m + 1, rfl, le_refl _, by omega, .inl ⟨hk, by omega, by omega, ?_⟩⟩
    rw [topsFrom_succ_of_ne hget (hgt.trans_le hbtop).ne]

/-- If the boundaries at `top` differ by at most one, the walk ends behind all boundaries. -/
theorem mergeRun_isSome
    (hbalance : topsFrom top bs k ≤ topsFrom top cs m + 1 ∧
      topsFrom top cs m ≤ topsFrom top bs k + 1)
    (hk : k ≤ bs.length) (hm : m ≤ cs.length) {turns : Nat}
    (hturns : bs.length + cs.length ≤ turns + k + m) :
    ∃ counts, mergeRun top bs cs turns (k, m) = some counts ∧ bs.length ≤ counts.1 ∧
      cs.length ≤ counts.2 := by
  induction turns generalizing k m with
  | zero => exact ⟨(k, m), rfl, by omega, by omega⟩
  | succ turns ih =>
    rw [mergeRun]
    split
    · obtain ⟨k', m', hturn, -, -, ⟨hk', hm', hlt, htops⟩ | ⟨rfl, rfl, hbtops, hctops, hend⟩⟩ :=
        mergeTurn_spec hbs hcs hk hm
      · rw [hturn, bind_eq_bind, bind_some]
        exact ih ⟨by omega, by omega⟩ hk' hm' (by omega)
      · -- One list was at its end, so the other one had one boundary left.
        rw [hturn, bind_eq_bind, bind_some]
        refine ⟨(k + 1, m + 1), ?_, by omega, by omega⟩
        cases turns with
        | zero => rfl
        | succ turns => rw [mergeRun, if_neg (by dsimp only; omega)]
    · next hend =>
      rw [not_or, not_lt, not_lt] at hend
      exact ⟨_, rfl, hend.1, hend.2⟩

/-- If one list has two boundaries more at `top`, the other one is read behind its end. -/
theorem mergeRun_eq_none (hbalance : topsFrom top bs k + 2 ≤ topsFrom top cs m)
    (hk : k ≤ bs.length) (hm : m ≤ cs.length) {turns : Nat}
    (hturns : bs.length + cs.length ≤ turns + k + m) :
    mergeRun top bs cs turns (k, m) = none := by
  have hm' : m + 2 ≤ cs.length := by
    have hle : topsFrom top cs m ≤ (cs.drop m).length := count_le_length
    rw [length_drop] at hle
    omega
  induction turns generalizing k m with
  | zero => omega
  | succ turns ih =>
    rw [mergeRun, if_pos (.inr (by dsimp only; omega))]
    obtain ⟨k', m', hturn, -, -, ⟨hk', hm', hlt, htops⟩ | ⟨rfl, rfl, hbtops, hctops, hend⟩⟩ :=
      mergeTurn_spec hbs hcs hk hm
    · rw [hturn, bind_eq_bind, bind_some]
      have hle : topsFrom top cs m' ≤ (cs.drop m').length := count_le_length
      rw [length_drop] at hle
      exact ih (by omega) hk' hm' (by omega) (by omega)
    · rw [hturn, bind_eq_bind, bind_some]
      obtain _ | turns := turns
      · omega
      · -- The first list is past its end, in a range that it does not have.
        have hnone : boundaryAt top bs (k + 1) = none := by
          have heven := hbs.even
          rw [boundaryAt, getElem?_eq_none (by omega)]
          exact if_pos (by omega)
        rw [mergeRun, if_pos (.inr (by dsimp only; omega)), mergeTurn, hnone]
        rfl

/-- **The walk ends properly** if and only if the numbers of boundaries at `top` differ by at most
one. -/
theorem mergeRun_isSome_iff {turns : Nat} (hturns : bs.length + cs.length ≤ turns) :
    (mergeRun top bs cs turns (0, 0)).isSome ↔
      bs.count top ≤ cs.count top + 1 ∧ cs.count top ≤ bs.count top + 1 := by
  have hb : topsFrom top bs 0 = bs.count top := rfl
  have hc : topsFrom top cs 0 = cs.count top := rfl
  have hzero := Nat.zero_le
  rw [← hb, ← hc]
  refine ⟨fun hsome => ?_, fun hbalance => ?_⟩
  · by_contra hnot
    rw [not_and_or, not_le, not_le] at hnot
    rcases hnot with hlt | hlt
    · have hswap := @mergeRun_swap α _ top bs cs turns (0, 0)
      rw [Prod.swap_prod_mk, mergeRun_eq_none hcs hbs hlt (hzero _) (hzero _) (by omega)] at hswap
      rw [map_eq_none_iff.mp hswap.symm] at hsome
      cases hsome
    · rw [mergeRun_eq_none hbs hcs hlt (hzero _) (hzero _) (by omega)] at hsome
      cases hsome
  · obtain ⟨counts, hrun, -⟩ := mergeRun_isSome hbs hcs hbalance (hzero _) (hzero _) hturns
    exact isSome_iff_exists.mpr ⟨counts, hrun⟩

theorem mergeRun_end {turns : Nat} (hturns : bs.length + cs.length ≤ turns) {counts : Nat × Nat}
    (hrun : mergeRun top bs cs turns (0, 0) = some counts) :
    bs.length ≤ counts.1 ∧ cs.length ≤ counts.2 := by
  have hbalance := (mergeRun_isSome_iff hbs hcs hturns).mp (by rw [hrun]; rfl)
  obtain ⟨counts', hrun', hend⟩ :=
    @mergeRun_isSome α _ top bs cs 0 0 hbs hcs hbalance (Nat.zero_le _) (Nat.zero_le _) turns hturns
  rw [hrun] at hrun'
  exact Option.some.inj hrun' ▸ hend

end

end Library
