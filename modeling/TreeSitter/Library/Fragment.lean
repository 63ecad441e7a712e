import Mathlib

/-!
# TreeSitter.Library.Fragment

**Fragments of epsilon automata**, in continuation style.

An automaton is a partial map from states to `Node`s: a node reads one symbol of a
set, splits into two alternatives without reading, or accepts. `Frag M L s t` says
that from `s` the automaton reads a word of `L` and then continues as from `t`,
whatever `t` goes on to accept. It is stated on runs with a move count, not on
languages alone: a loop whose body can be empty satisfies the language equation
`A = L * A + B` in many ways, and only the count shows that the run leaves it.

The rules (`Frag.refl`, `Frag.trans`, `Frag.advance`, `Frag.split`, `Frag.loop`)
follow the shapes of Thompson's construction.
-/

namespace Library

open Language Computability

/-- One state of an epsilon automaton over the alphabet `α`. -/
inductive Node (α σ : Type*)
  | advance (chars : Set α) (next : σ)
  | split (left right : σ)
  | accept

variable {α σ : Type*}

/-- `AcceptsIn M n s w`: some run of `n` moves from `s` reads `w` and accepts. -/
inductive AcceptsIn (M : σ → Option (Node α σ)) : Nat → σ → List α → Prop
  | accept {s} (h : M s = some .accept) : AcceptsIn M 0 s []
  | advance {s t C a n w} (h : M s = some (.advance C t)) (ha : a ∈ C)
      (hw : AcceptsIn M n t w) : AcceptsIn M (n + 1) s (a :: w)
  | left {s l r n w} (h : M s = some (.split l r)) (hw : AcceptsIn M n l w) :
      AcceptsIn M (n + 1) s w
  | right {s l r n w} (h : M s = some (.split l r)) (hw : AcceptsIn M n r w) :
      AcceptsIn M (n + 1) s w

/-- The words accepted from a state. -/
def accepts (M : σ → Option (Node α σ)) (s : σ) : Language α :=
  {w | ∃ n, AcceptsIn M n s w}

variable {M : σ → Option (Node α σ)} {K L : Language α} {s t u : σ}

/-- The words of length one over a set of symbols. -/
def letters (C : Set α) : Language α := {w | ∃ a ∈ C, w = [a]}

theorem mem_letters {C : Set α} {w : List α} : w ∈ letters C ↔ ∃ a ∈ C, w = [a] := Iff.rfl

theorem mem_sum_iff {langs : List (Language α)} {w : List α} :
    w ∈ langs.sum ↔ ∃ L ∈ langs, w ∈ L := by
  induction langs with
  | nil => simp
  | cons L langs ih => rw [List.sum_cons, mem_add, ih, List.exists_mem_cons_iff]

/-- **The fragment relation.** Every run from `s` splits into a word of `L` and a
run from `t` that is no longer; and every word of `L` leads from `s` to `t`. -/
structure Frag (M : σ → Option (Node α σ)) (L : Language α) (s t : σ) : Prop where
  sound : ∀ {n w}, AcceptsIn M n s w →
    ∃ x ∈ L, ∃ y m, m ≤ n ∧ w = x ++ y ∧ AcceptsIn M m t y
  complete : ∀ {x y}, x ∈ L → y ∈ accepts M t → x ++ y ∈ accepts M s

theorem Frag.accepts_eq (h : Frag M L s t) : accepts M s = L * accepts M t := by
  ext w
  rw [mem_mul]
  constructor
  · rintro ⟨n, hn⟩
    obtain ⟨x, hx, y, m, -, rfl, hm⟩ := h.sound hn
    exact ⟨x, hx, y, ⟨m, hm⟩, rfl⟩
  · rintro ⟨x, hx, y, hy, rfl⟩
    exact h.complete hx hy

theorem Frag.refl (s : σ) : Frag M 1 s s where
  sound {n w} hw := ⟨[], rfl, w, n, le_rfl, rfl, hw⟩
  complete {x y} hx hy := by
    rw [mem_one] at hx
    simpa [hx] using hy

theorem Frag.trans (h₁ : Frag M K s t) (h₂ : Frag M L t u) : Frag M (K * L) s u where
  sound {n w} hw := by
    obtain ⟨x, hx, y, m, hm, rfl, hy⟩ := h₁.sound hw
    obtain ⟨x', hx', y', m', hm', rfl, hy'⟩ := h₂.sound hy
    exact ⟨x ++ x', append_mem_mul hx hx', y', m', hm'.trans hm, by simp, hy'⟩
  complete {x y} hx hy := by
    obtain ⟨a, ha, b, hb, rfl⟩ := mem_mul.mp hx
    rw [List.append_assoc]
    exact h₁.complete ha (h₂.complete hb hy)

/-- Many descriptions of one stretch: any of their words, if there is one at all. -/
theorem Frag.sUnion {S : Set (Language α)} (hne : S.Nonempty) (h : ∀ L ∈ S, Frag M L s t) :
    Frag M {w | ∃ L ∈ S, w ∈ L} s t where
  sound {n w} hw := by
    obtain ⟨L, hL⟩ := hne
    obtain ⟨x, hx, rest⟩ := (h L hL).sound hw
    exact ⟨x, ⟨L, hL, hx⟩, rest⟩
  complete {x y} hx hy := by
    obtain ⟨L, hL, hx⟩ := hx
    exact (h L hL).complete hx hy

theorem Frag.of_zero (h : Frag M 0 s t) (u : σ) : Frag M 0 s u where
  sound hw := by
    obtain ⟨x, hx, -⟩ := h.sound hw
    exact absurd hx (notMem_zero x)
  complete hx _ := absurd hx (notMem_zero _)

theorem Frag.advance {C : Set α} (h : M s = some (.advance C t)) : Frag M (letters C) s t where
  sound {n w} hw := by
    cases hw with
    | accept h' => rw [h] at h'; cases h'
    | advance h' ha hw =>
      rw [h] at h'
      cases h'
      exact ⟨[_], ⟨_, ha, rfl⟩, _, _, Nat.le_succ _, rfl, hw⟩
    | left h' hw | right h' hw => rw [h] at h'; cases h'
  complete {x y} hx hy := by
    obtain ⟨a, ha, rfl⟩ := hx
    obtain ⟨n, hn⟩ := hy
    exact ⟨n + 1, .advance h ha hn⟩

theorem AcceptsIn.split_inv {l r : σ} {n : Nat} {w : List α} (h : M s = some (.split l r))
    (hw : AcceptsIn M n s w) :
    ∃ m, n = m + 1 ∧ (AcceptsIn M m l w ∨ AcceptsIn M m r w) := by
  cases hw with
  | accept h' | advance h' ha hw => rw [h] at h'; cases h'
  | left h' hw => rw [h] at h'; cases h'; exact ⟨_, rfl, Or.inl hw⟩
  | right h' hw => rw [h] at h'; cases h'; exact ⟨_, rfl, Or.inr hw⟩

theorem accepts_split {l r : σ} (h : M s = some (.split l r)) :
    accepts M s = accepts M l + accepts M r := by
  ext w
  constructor
  · rintro ⟨n, hn⟩
    obtain ⟨m, -, hm | hm⟩ := hn.split_inv h
    · exact Or.inl ⟨m, hm⟩
    · exact Or.inr ⟨m, hm⟩
  · rintro (⟨n, hn⟩ | ⟨n, hn⟩)
    · exact ⟨n + 1, .left h hn⟩
    · exact ⟨n + 1, .right h hn⟩

theorem accepts_accept (h : M s = some .accept) : accepts M s = 1 := by
  ext w
  constructor
  · rintro ⟨n, hn⟩
    cases hn with
    | accept => rfl
    | advance h' | left h' | right h' => rw [h] at h'; cases h'
  · intro hw
    rw [mem_one] at hw
    exact ⟨0, hw ▸ .accept h⟩

theorem Frag.split {l r : σ} (h : M s = some (.split l r)) (h₁ : Frag M K l t)
    (h₂ : Frag M L r t) : Frag M (K + L) s t where
  sound {n w} hw := by
    obtain ⟨m, rfl, hm | hm⟩ := hw.split_inv h
    · obtain ⟨x, hx, y, k, hk, hxy, hy⟩ := h₁.sound hm
      exact ⟨x, Or.inl hx, y, k, hk.trans (Nat.le_succ m), hxy, hy⟩
    · obtain ⟨x, hx, y, k, hk, hxy, hy⟩ := h₂.sound hm
      exact ⟨x, Or.inr hx, y, k, hk.trans (Nat.le_succ m), hxy, hy⟩
  complete {x y} hx hy := by
    rw [accepts_split h]
    rcases hx with hx | hx
    · exact Or.inl (h₁.complete hx hy)
    · exact Or.inr (h₂.complete hx hy)

/-- The split state `p` of a loop: zero or more times the body, then on to `t`.
The move through `p` makes the remaining run strictly shorter, so the induction is
on the move count even when the body read nothing. -/
theorem Frag.loop_split {p : σ} (h : M p = some (.split s t)) (hbody : Frag M L s p) :
    Frag M (L∗) p t where
  sound {n w} hw := by
    induction n using Nat.strong_induction_on generalizing w with
    | _ n ih =>
      obtain ⟨m, rfl, hm | hm⟩ := hw.split_inv h
      · obtain ⟨x, hx, y, k, hk, rfl, hy⟩ := hbody.sound hm
        obtain ⟨x', hx', y', k', hk', rfl, hy'⟩ := ih k (by omega) hy
        refine ⟨x ++ x', ?_, y', k', by omega, by simp, hy'⟩
        rw [← one_add_self_mul_kstar_eq_kstar]
        exact Or.inr (append_mem_mul hx hx')
      · exact ⟨[], nil_mem_kstar L, w, m, Nat.le_succ m, rfl, hm⟩
  complete {x y} hx hy := by
    obtain ⟨xs, rfl, hall⟩ := mem_kstar.mp hx
    clear hx
    induction xs with
    | nil =>
      rw [accepts_split h]
      exact Or.inr hy
    | cons x' xs ih =>
      rw [accepts_split h, List.flatten_cons, List.append_assoc]
      have hxs : xs.flatten ++ y ∈ accepts M p := ih fun z hz => hall z (by simp [hz])
      exact Or.inl (hbody.complete (hall x' (by simp)) hxs)

/-- Thompson's loop: the body `s` returns to the split state `p`, which repeats it
or leaves for `t`. From the body: one or more times. -/
theorem Frag.loop {p : σ} (h : M p = some (.split s t)) (hbody : Frag M L s p) :
    Frag M (L * L∗) s t :=
  hbody.trans (Frag.loop_split h hbody)

theorem Frag.congr (h : Frag M K s t) (hKL : K = L) : Frag M L s t := hKL ▸ h

end Library
