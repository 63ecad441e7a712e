import Mathlib

/-!
# TreeSitter.Library.ChoiceCursor

A computation that makes **choices** (`Walk`), and a cursor that runs it again and again, each
time with the next list of decisions, as a counter with digits of different ranges is advanced.
Which choices come later depends on the earlier ones, so the digits behind the one that is
advanced are dropped. The cursor visits every outcome once, in order (`forEach_eq`): that of the
lists of decisions in lexicographic order (`paths_pairwise`).
-/

namespace Library

open List

universe u

/-- A computation that may ask for one of `len` choices. -/
inductive Walk (β : Type u) where
  | done (value : β)
  | select (len : Nat) (next : Nat → Walk β)

namespace Walk

variable {β γ σ ε : Type u}

/-- One computation after the other. -/
def bind : Walk β → (β → Walk γ) → Walk γ
  | done b, k => k b
  | select len next, k => select len fun i => (next i).bind k

/-- All outcomes, in order. -/
def leaves : Walk β → List β
  | done b => [b]
  | select len next => (List.range len).flatMap fun i => (next i).leaves

/-- There is something to choose from. -/
def Positive : Walk β → Prop
  | done _ => True
  | select len next => 0 < len ∧ ∀ i, (next i).Positive

/-- All outcomes have a property, those of choices out of range too. -/
def All (P : β → Prop) : Walk β → Prop
  | done b => P b
  | select _ next => ∀ i, (next i).All P

variable {w : Walk β} {P : β → Prop}

theorem All.imp {Q : β → Prop} (h : w.All P) (hPQ : ∀ b, P b → Q b) : w.All Q := by
  induction w with
  | done b => exact hPQ b h
  | select len next ih => exact fun i => ih i (h i)

variable {k : β → Walk γ}

theorem All.bind {Q : γ → Prop} (h : w.All P) (hk : ∀ b, P b → (k b).All Q) : (w.bind k).All Q := by
  induction w with
  | done b => exact hk b h
  | select len next ih => exact fun i => ih i (h i)

theorem All.forall_leaves (h : w.All P) : ∀ b ∈ w.leaves, P b := by
  induction w with
  | done b =>
    intro b' hb'
    rw [mem_singleton.mp hb']
    exact h
  | select len next ih =>
    intro b hb
    obtain ⟨i, -, hmem⟩ := mem_flatMap.mp hb
    exact ih i (h i) b hmem

theorem bind_congr (h : w.All P) {k' : β → Walk γ} (hk : ∀ b, P b → k b = k' b) :
    w.bind k = w.bind k' := by
  induction w with
  | done b => exact hk b h
  | select len next ih => exact congrArg (select len) (funext fun i => ih i (h i))

theorem bind_assoc {δ : Type u} (w : Walk β) (k : β → Walk γ) (l : γ → Walk δ) :
    (w.bind k).bind l = w.bind fun b => (k b).bind l := by
  induction w with
  | done b => rfl
  | select len next ih => exact congrArg (select len) (funext fun i => ih i)

theorem leaves_bind (w : Walk β) (k : β → Walk γ) :
    (w.bind k).leaves = w.leaves.flatMap fun b => (k b).leaves := by
  induction w with
  | done b => simp [bind, leaves]
  | select len next ih => simp [bind, leaves, ih, flatMap_assoc]

theorem Positive.bind (hw : w.Positive) (hk : ∀ b, (k b).Positive) :
    (w.bind k).Positive := by
  induction w with
  | done b => exact hk b
  | select len next ih => exact ⟨hw.1, fun i => ih i (hw.2 i)⟩

/-! ### Paths -/

/-- Some decisions, each within its range, lead to an outcome. -/
inductive Takes : Walk β → List Nat → β → Prop where
  | done {b : β} : Takes (done b) [] b
  | select {len : Nat} {next : Nat → Walk β} {i : Nat} {decisions : List Nat} {b : β} :
      i < len → Takes (next i) decisions b → Takes (select len next) (i :: decisions) b

/-- All decisions with their outcomes, in order. -/
def paths : Walk β → List (List Nat × β)
  | done b => [([], b)]
  | select len next => (List.range len).flatMap fun i =>
    (next i).paths.map fun path => (i :: path.1, path.2)

theorem mem_paths {decisions : List Nat} {b : β} :
    (decisions, b) ∈ w.paths ↔ w.Takes decisions b := by
  induction w generalizing decisions with
  | done b' =>
    rw [paths, mem_singleton, Prod.mk.injEq]
    constructor
    · rintro ⟨rfl, rfl⟩
      exact .done
    · rintro ⟨⟩
      exact ⟨rfl, rfl⟩
  | select len next ih =>
    rw [paths, mem_flatMap]
    constructor
    · rintro ⟨i, hi, hmem⟩
      obtain ⟨⟨rest, b'⟩, hrest, heq⟩ := mem_map.mp hmem
      obtain ⟨rfl, rfl⟩ := Prod.mk.injEq .. ▸ heq
      exact .select (mem_range.mp hi) ((ih i).mp hrest)
    · rintro ⟨⟩
      rename_i i rest hi hrest
      exact ⟨i, mem_range.mpr hi, mem_map.mpr ⟨_, (ih i).mpr hrest, rfl⟩⟩

theorem map_snd_paths (w : Walk β) : w.paths.map Prod.snd = w.leaves := by
  induction w with
  | done b => rfl
  | select len next ih =>
    rw [paths, leaves, map_flatMap]
    congr 1
    funext i
    rw [map_map, ← ih i]
    rfl

/-- **The decisions come in lexicographic order**, so none comes twice. -/
theorem paths_pairwise (w : Walk β) :
    w.paths.Pairwise fun p q => List.Lex (· < ·) p.1 q.1 := by
  induction w with
  | done b => exact pairwise_singleton _ _
  | select len next ih =>
    rw [paths, pairwise_flatMap]
    constructor
    · intro i _
      rw [pairwise_map]
      exact (ih i).imp fun h => .cons h
    · refine pairwise_lt_range.imp fun {i j} hij p hp q hq => ?_
      obtain ⟨p', -, rfl⟩ := mem_map.mp hp
      obtain ⟨q', -, rfl⟩ := mem_map.mp hq
      exact .rel hij

/-! ### The cursor -/

/-- A run that takes its decisions from a list, and the first choice where it ends. The numbers
of choices are recorded. -/
def run : Walk β → List Nat → β × List Nat
  | done b, _ => (b, [])
  | select len next, decisions =>
    let result := (next (decisions.headD 0)).run decisions.tail
    (result.1, len :: result.2)

/-- The last decision that is not the last choice is advanced, and all behind it are dropped. -/
def advance : List Nat → List Nat → Option (List Nat)
  | _, [] => none
  | decisions, len :: arities =>
    match advance decisions.tail arities with
    | some rest => some (decisions.headD 0 :: rest)
    | none => if decisions.headD 0 + 1 < len then some [decisions.headD 0 + 1] else none

/-- Runs with one list of decisions after the other, until there is no next one. -/
def forEach (f : σ → β → Except ε σ) (w : Walk β) : Nat → List Nat → σ → Except ε σ
  | 0, _, s => .ok s
  | fuel + 1, decisions, s => do
    let result := w.run decisions
    let s ← f s result.1
    match advance decisions result.2 with
    | some decisions => forEach f w fuel decisions s
    | none => return s

/-- The outcomes from that of some decisions on. -/
def leavesFrom : Walk β → List Nat → List β
  | done b, _ => [b]
  | select len next, decisions =>
    (next (decisions.headD 0)).leavesFrom decisions.tail ++
      ((List.range len).drop (decisions.headD 0 + 1)).flatMap fun i => (next i).leaves

theorem leavesFrom_nil (h : w.Positive) : w.leavesFrom [] = w.leaves := by
  induction w with
  | done b => rfl
  | select len next ih =>
    obtain ⟨n, rfl⟩ := Nat.exists_eq_add_of_lt h.1
    rw [leavesFrom, leaves, headD_nil, tail_nil, ih 0 (h.2 0), Nat.zero_add, range_succ_eq_map]
    simp

/-- **One turn of the cursor** visits one outcome, and goes on with those behind it. -/
theorem leavesFrom_eq (h : w.Positive) : ∀ decisions : List Nat,
    w.leavesFrom decisions = (w.run decisions).1 ::
      match advance decisions (w.run decisions).2 with
      | some decisions => w.leavesFrom decisions
      | none => [] := by
  induction w with
  | done b => exact fun _ => rfl
  | select len next ih =>
    intro decisions
    have hnext := ih (decisions.headD 0) (h.2 _) decisions.tail
    rw [leavesFrom, hnext, run, advance]
    dsimp only
    cases hadvance : advance decisions.tail ((next (decisions.headD 0)).run decisions.tail).2 with
    | some rest => simp [leavesFrom]
    | none =>
      dsimp only
      by_cases hlt : decisions.headD 0 + 1 < len
      · rw [if_pos hlt]
        have hdrop : (List.range len).drop (decisions.headD 0 + 1) =
            (decisions.headD 0 + 1) :: (List.range len).drop (decisions.headD 0 + 2) := by
          rw [drop_eq_getElem_cons (by simpa using hlt), getElem_range]
        dsimp only
        rw [hdrop, flatMap_cons, leavesFrom, headD_cons, tail_cons,
          leavesFrom_nil (h.2 _), singleton_append]
      · rw [if_neg hlt, drop_eq_nil_of_le (by simpa using hlt)]
        rfl

theorem forEach_leavesFrom (h : w.Positive) (f : σ → β → Except ε σ) :
    ∀ {fuel : Nat} {decisions : List Nat} (s : σ), (w.leavesFrom decisions).length ≤ fuel →
      forEach f w fuel decisions s = (w.leavesFrom decisions).foldlM f s := by
  intro fuel
  induction fuel with
  | zero =>
    intro decisions s hlen
    rw [leavesFrom_eq h] at hlen
    simp at hlen
  | succ fuel ih =>
    intro decisions s hlen
    rw [leavesFrom_eq h] at hlen ⊢
    rw [forEach, foldlM_cons]
    congr 1
    funext s'
    cases hadvance : advance decisions (w.run decisions).2 with
    | none => rfl
    | some rest =>
      rw [hadvance, length_cons] at hlen
      exact ih s' (Nat.le_of_succ_le_succ hlen)

/-- **The cursor visits every outcome once, in order**, in as many turns. -/
theorem forEach_eq (h : w.Positive) (f : σ → β → Except ε σ) (s : σ) :
    forEach f w w.leaves.length [] s = w.leaves.foldlM f s := by
  rw [← leavesFrom_nil h]
  exact forEach_leavesFrom h f s le_rfl

end Walk

end Library
