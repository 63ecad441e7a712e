import Mathlib.Data.Option.Basic

/-!
# TreeSitter.Library.OptionRel

**Related results.** Two computations that may fail are related by `Option.Rel` if both fail, or
both have a result and the results are related. The relation goes through branches on the same
condition and through computations one after the other, so that two runs can be compared step by
step.
-/

namespace Option.Rel

variable {α β γ δ : Type} {r : α → β → Prop} {s : γ → δ → Prop} {a : Option α} {b : Option β}

theorem ite {p q : Prop} [Decidable p] [Decidable q] {a' : Option α} {b' : Option β} (hiff : p ↔ q)
    (h : Rel r a b) (hother : Rel r a' b') : Rel r (if p then a else a') (if q then b else b') := by
  by_cases hp : p
  · rw [if_pos hp, if_pos (hiff.mp hp)]
    exact h
  · rw [if_neg hp, if_neg fun hq => hp (hiff.mpr hq)]
    exact hother

theorem map {f : α → γ} {g : β → δ} (h : Rel r a b) (hmap : ∀ x y, r x y → s (f x) (g y)) :
    Rel s (a.map f) (b.map g) := by
  cases h with
  | none => exact .none
  | some h => exact .some (hmap _ _ h)

theorem bind {f : α → Option γ} {g : β → Option δ} (h : Rel r a b)
    (hbind : ∀ x y, r x y → Rel s (f x) (g y)) : Rel s (a.bind f) (b.bind g) := by
  cases h with
  | none => exact .none
  | some h => exact hbind _ _ h

theorem bind_same {f : α → Option γ} {g : α → Option δ} (h : ∀ x, Rel s (f x) (g x)) :
    Rel s (a.bind f) (a.bind g) := by
  cases a with
  | none => exact .none
  | some x => exact h x

theorem of_eq_some {x : α} {y : β} (h : Rel r a b) (ha : a = Option.some x)
    (hb : b = Option.some y) : r x y := by
  subst ha
  subst hb
  cases h with
  | some h => exact h

end Option.Rel
