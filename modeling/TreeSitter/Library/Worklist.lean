import Mathlib

/-!
# TreeSitter.Library.Worklist

**Worklist loops.** A task is taken off a stack and processed; that changes a state and puts new
tasks on the stack, until no task is left. The loop has fuel, and `none` says that it ran out. If
new tasks come only when a measure of the state goes down, there is enough fuel (`exists_run`), and
what every turn preserves holds at the end.
-/

namespace Library

universe u v

variable {σ : Type u} {τ : Type v} {process : σ → τ → σ × List τ}

/-- The loop. New tasks are on the stack with the one to be taken next in front. -/
def runWorklist (process : σ → τ → σ × List τ) : Nat → σ → List τ → Option σ
  | 0, _, _ => none
  | _ + 1, state, [] => some state
  | fuel + 1, state, task :: stack =>
    runWorklist process fuel (process state task).1 ((process state task).2 ++ stack)

/-- **The rule for worklist loops.** -/
theorem exists_run {P : σ → List τ → Prop} {measure : σ → Nat}
    (hstep : ∀ state task stack, P state (task :: stack) →
      P (process state task).1 ((process state task).2 ++ stack) ∧
        ((process state task).2 = [] ∧ measure (process state task).1 ≤ measure state ∨
          measure (process state task).1 < measure state))
    {state : σ} {stack : List τ} (h : P state stack) :
    ∃ n result, (∀ fuel ≥ n, runWorklist process fuel state stack = some result) ∧ P result [] := by
  -- The measure goes down, or the stack gets shorter.
  suffices haux : ∀ m k : Nat, ∀ state stack, measure state ≤ m → stack.length ≤ k →
      P state stack → ∃ n result, (∀ fuel ≥ n,
        runWorklist process fuel state stack = some result) ∧ P result [] from
    haux _ _ state stack le_rfl le_rfl h
  intro m
  induction m using Nat.strong_induction_on with
  | _ m ihm =>
    intro k
    induction k with
    | zero =>
      intro state stack _ hk h
      obtain rfl := List.length_eq_zero_iff.mp (Nat.le_zero.mp hk)
      refine ⟨1, state, fun fuel hfuel => ?_, h⟩
      obtain ⟨fuel, rfl⟩ := Nat.exists_eq_succ_of_ne_zero (by omega : fuel ≠ 0)
      rfl
    | succ k ihk =>
      intro state stack hm hk h
      cases stack with
      | nil =>
        refine ⟨1, state, fun fuel hfuel => ?_, h⟩
        obtain ⟨fuel, rfl⟩ := Nat.exists_eq_succ_of_ne_zero (by omega : fuel ≠ 0)
        rfl
      | cons task stack =>
        have hnext : ∃ n result, (∀ fuel ≥ n, runWorklist process fuel (process state task).1
              ((process state task).2 ++ stack) = some result) ∧ P result [] := by
          obtain ⟨h', hless⟩ := hstep state task stack h
          rcases hless with ⟨hnil, hle⟩ | hlt
          · refine ihk _ _ (hle.trans hm) ?_ h'
            rw [hnil]
            exact Nat.le_of_succ_le_succ hk
          · exact ihm _ (hlt.trans_le hm) _ _ _ le_rfl le_rfl h'
        obtain ⟨n, result, hrun, hP⟩ := hnext
        refine ⟨n + 1, result, fun fuel hfuel => ?_, hP⟩
        obtain ⟨fuel, rfl⟩ := Nat.exists_eq_succ_of_ne_zero (by omega : fuel ≠ 0)
        exact hrun fuel (by omega)

/-- Enough fuel for every element of a list is enough for all of them. -/
theorem exists_mapM_run {α : Type u} {β : Type v} {f : Nat → α → Option β} {r : α → β → Prop}
    {xs : List α} (h : ∀ x ∈ xs, ∃ n y, (∀ fuel ≥ n, f fuel x = some y) ∧ r x y) :
    ∃ n ys, (∀ fuel ≥ n, xs.mapM (f fuel) = some ys) ∧ List.Forall₂ r xs ys := by
  induction xs with
  | nil => exact ⟨0, [], fun _ _ => rfl, .nil⟩
  | cons x xs ih =>
    obtain ⟨n, y, hy, hxy⟩ := h x List.mem_cons_self
    obtain ⟨m, ys, hys, hforall⟩ := ih fun z hz => h z (List.mem_cons_of_mem _ hz)
    refine ⟨max n m, y :: ys, fun fuel hfuel => ?_, .cons hxy hforall⟩
    rw [List.mapM_cons, hy fuel (le_of_max_le_left hfuel), hys fuel (le_of_max_le_right hfuel)]
    rfl

theorem exists_of_forall₂ {α : Type u} {β : Type v} {R : α → β → Prop} {xs : List α} {ys : List β}
    (h : List.Forall₂ R xs ys) {y : β} (hy : y ∈ ys) : ∃ x ∈ xs, R x y := by
  induction h with
  | nil => cases hy
  | @cons x y' xs ys hxy _ ih =>
    rcases List.mem_cons.mp hy with rfl | hy
    · exact ⟨x, List.mem_cons_self, hxy⟩
    · obtain ⟨x', hx', hR⟩ := ih hy
      exact ⟨x', List.mem_cons_of_mem _ hx', hR⟩

end Library
