import Mathlib

/-!
# TreeSitter.Library.Fallible

Simp lemmas that **run** a `do` block over `Except`: a successful call steps into its
continuation, a failed one ends the block. `mapM_eq_some` takes a successful traversal
over `Option` apart.
-/

namespace Library

universe u v

variable {ε : Type u} {α β : Type v}

@[simp] theorem ok_bind (a : α) (f : α → Except ε β) : (Except.ok a >>= f) = f a := rfl

@[simp] theorem error_bind (e : ε) (f : α → Except ε β) :
    (Except.error e >>= f) = Except.error e := rfl

@[simp] theorem pure_eq_ok (a : α) : (pure a : Except ε α) = Except.ok a := rfl

theorem bind_eq_ok {x : Except ε α} {f : α → Except ε β} {b : β} :
    (x >>= f) = .ok b ↔ ∃ a, x = .ok a ∧ f a = .ok b := by
  cases x with
  | error e => simp
  | ok a => simp

theorem forall₂_of_mapM_ok {f : α → Except ε β} : ∀ {xs : List α} {ys : List β},
    xs.mapM f = .ok ys → List.Forall₂ (fun x y => f x = .ok y) xs ys
  | [], ys, h => by
    cases h
    exact .nil
  | x :: xs, ys, h => by
    rw [List.mapM_cons] at h
    obtain ⟨y, hy, h⟩ := bind_eq_ok.mp h
    obtain ⟨ys', hys, h⟩ := bind_eq_ok.mp h
    cases h
    exact .cons hy (forall₂_of_mapM_ok hys)

variable {f : α → Option β}

theorem mapM_eq_some : ∀ {xs : List α} {ys : List β},
    xs.mapM f = some ys ↔ List.Forall₂ (fun x y => f x = some y) xs ys
  | [], ys => by simp
  | x :: xs, ys => by
    rw [List.mapM_cons, List.forall₂_cons_left_iff]
    simp only [Option.bind_eq_bind, Option.bind_eq_some_iff, Option.pure_def,
      Option.some_inj, mapM_eq_some]
    constructor
    · rintro ⟨y, hy, ys', hys', rfl⟩
      exact ⟨y, ys', hy, hys', rfl⟩
    · rintro ⟨y, ys', hy, hys', rfl⟩
      exact ⟨y, hy, ys', hys', rfl⟩

variable {xs : List α}

theorem getElem?_of_mapM {ys : List β} (h : xs.mapM f = some ys) (i : Nat) :
    ys[i]? = xs[i]?.bind f := by
  rw [mapM_eq_some] at h
  induction h generalizing i with
  | nil => rfl
  | cons hxy _ ih =>
    cases i with
    | zero => simp [hxy]
    | succ i => simpa using ih i

theorem exists_mapM_forall₂ {r : α → β → Prop} (h : ∀ x ∈ xs, ∃ y, f x = some y ∧ r x y) :
    ∃ ys, xs.mapM f = some ys ∧ List.Forall₂ r xs ys := by
  induction xs with
  | nil => exact ⟨[], rfl, .nil⟩
  | cons x xs ih =>
    obtain ⟨y, hy, hxy⟩ := h x (by simp)
    obtain ⟨ys, hys, hforall⟩ := ih fun z hz => h z (by simp [hz])
    exact ⟨y :: ys, by simp [hy, hys], .cons hxy hforall⟩

theorem exists_mapM (h : ∀ x ∈ xs, ∃ y, f x = some y) :
    ∃ ys, xs.mapM f = some ys := by
  obtain ⟨ys, hys, -⟩ := exists_mapM_forall₂ (r := fun x y => f x = some y) fun x hx =>
    (h x hx).imp fun y hy => ⟨hy, hy⟩
  exact ⟨ys, hys⟩

end Library
