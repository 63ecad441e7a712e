import TreeSitter.Library.SearchSorted

/-!
# TreeSitter.Lib.Query.AnalysisState

`analysis_state__compare` and the **sets of analysis states** that are sorted by it. Of two states of
different depth the deeper one comes first, if it is on the right of the comparison; if it is on the
left, what the stacks have in common is compared before. The comparison is an order, and insertion
works, exactly where this makes no difference (`ordersStates_iff`).
-/

namespace TreeSitter.Lib

open Library

/-- `AnalysisStateEntry`, of what is compared. -/
structure AnalysisStateEntry where
  childIndex : Nat
  parentSymbol : Nat
  parseState : Nat
  fieldId : Nat

/-- `AnalysisState`: the stack has `depth` entries. -/
structure AnalysisState where
  stack : List AnalysisStateEntry
  stepIndex : Nat

/-- The body of the comparison's loop; two tests with an early return are one `then`. -/
def AnalysisStateEntry.compare (s₁ s₂ : AnalysisStateEntry) : Ordering :=
  (Ord.compare s₁.childIndex s₂.childIndex).then <|
    (Ord.compare s₁.parentSymbol s₂.parentSymbol).then <|
      (Ord.compare s₁.parseState s₂.parseState).then <| Ord.compare s₁.fieldId s₂.fieldId

/-- Lists of entries are compared lexicographically. -/
instance : Ord AnalysisStateEntry := ⟨AnalysisStateEntry.compare⟩

def compareStacks : List AnalysisStateEntry → List AnalysisStateEntry → Ordering
  | [], _ => .eq
  | _ :: _, [] => .lt
  | s₁ :: stack₁, s₂ :: stack₂ => (s₁.compare s₂).then (compareStacks stack₁ stack₂)

namespace AnalysisState

/-- `analysis_state__compare`. -/
def compare (self other : AnalysisState) : Ordering :=
  if self.stack.length < other.stack.length then .gt
  else (compareStacks self.stack other.stack).then (Ord.compare self.stepIndex other.stepIndex)

/-- The comparison is a strict total order on some states, and every sequence of insertions of them
gives a sorted set of what was inserted, with no duplicate. -/
structure OrdersStates (states : List AnalysisState) : Prop where
  swap : ∀ x ∈ states, ∀ y ∈ states, y.compare x = (x.compare y).swap
  trans : ∀ x ∈ states, ∀ y ∈ states, ∀ z ∈ states,
    x.compare y = .lt → y.compare z = .lt → x.compare z = .lt
  eq : ∀ x ∈ states, ∀ y ∈ states, x.compare y = .eq → x = y
  inserts : ∀ inserted ⊆ states,
    (inserted.foldl (insertSorted compare) []).Pairwise (fun x y => x.compare y = .lt) ∧
      (∀ x, x ∈ inserted.foldl (insertSorted compare) [] ↔ x ∈ inserted) ∧
        (inserted.foldl (insertSorted compare) []).Nodup

/-- The stack of a deeper state begins with entries that are not lexicographically greater than the
ones of the other state. -/
def DeeperFirst (states : List AnalysisState) : Prop :=
  ∀ x ∈ states, ∀ y ∈ states, y.stack.length < x.stack.length →
    Ord.compare (x.stack.take y.stack.length) y.stack ≠ .gt

/-! ### The order -/

instance : Std.TransOrd AnalysisStateEntry :=
  inferInstanceAs <| Std.TransCmp <| compareLex (compareOn AnalysisStateEntry.childIndex) <|
    compareLex (compareOn AnalysisStateEntry.parentSymbol) <|
      compareLex (compareOn AnalysisStateEntry.parseState) (compareOn AnalysisStateEntry.fieldId)

instance : Std.LawfulEqOrd AnalysisStateEntry where
  eq_of_compare {s₁ s₂} h := by
    obtain ⟨_, _, _, _⟩ := s₁
    obtain ⟨_, _, _, _⟩ := s₂
    change AnalysisStateEntry.compare _ _ = .eq at h
    simpa only [AnalysisStateEntry.compare, Ordering.then_eq_eq, Nat.compare_eq_eq,
      AnalysisStateEntry.mk.injEq] using h

/-- The comparison with the deeper state always first. -/
def compareDeeper : AnalysisState → AnalysisState → Ordering :=
  compareLex (compareOn fun state => -(state.stack.length : Int)) <|
    compareLex (compareOn stack) (compareOn stepIndex)

instance : Std.TransCmp compareDeeper :=
  inferInstanceAs <| Std.TransCmp <| compareLex (compareOn _) (compareLex (compareOn _) (compareOn _))

variable {x y : AnalysisState} {states : List AnalysisState}

theorem eq_of_compareDeeper (h : compareDeeper x y = .eq) : x = y := by
  obtain ⟨_, _⟩ := x
  obtain ⟨_, _⟩ := y
  simp only [compareDeeper, compareLex_eq_eq, compareOn, Std.compare_eq_iff_eq] at h
  rw [h.2.1, h.2.2]

theorem compareStacks_eq_compare (stack : List AnalysisStateEntry) :
    ∀ {stack' : List AnalysisStateEntry}, stack.length = stack'.length →
      compareStacks stack stack' = Ord.compare stack stack' := by
  induction stack with
  | nil =>
    intro stack' h
    rw [List.length_eq_zero_iff.mp h.symm]
    rfl
  | cons s stack ih =>
    intro stack' h
    cases stack' with
    | nil => cases h
    | cons s' stack' =>
      rw [compareStacks, ih (Nat.succ.inj h), List.compare_cons_cons]
      rfl

theorem compareStacks_of_deeper (stack : List AnalysisStateEntry) :
    ∀ {stack' : List AnalysisStateEntry}, stack'.length < stack.length →
      compareStacks stack stack' = (Ord.compare (stack.take stack'.length) stack').then .lt := by
  induction stack with
  | nil => exact fun h => absurd h (Nat.not_lt_zero _)
  | cons s stack ih =>
    intro stack' h
    cases stack' with
    | nil => rfl
    | cons s' stack' =>
      rw [compareStacks, ih (Nat.lt_of_succ_lt_succ h), ← Ordering.then_assoc, List.length_cons,
        List.take_succ_cons, List.compare_cons_cons]
      rfl

theorem compare_eq_compareDeeper
    (h : y.stack.length < x.stack.length →
      Ord.compare (x.stack.take y.stack.length) y.stack ≠ .gt) :
    x.compare y = compareDeeper x y := by
  have hfirst : compareDeeper x y =
      (Ord.compare (-(x.stack.length : Int)) (-(y.stack.length : Int))).then
        ((Ord.compare x.stack y.stack).then (Ord.compare x.stepIndex y.stepIndex)) := rfl
  rw [compare, hfirst]
  rcases Nat.lt_trichotomy x.stack.length y.stack.length with hlt | heq | hgt
  · rw [if_pos hlt, Int.compare_eq_gt.mpr (by omega)]
    rfl
  · rw [if_neg heq.not_lt, heq, Std.compare_self, compareStacks_eq_compare _ heq]
    rfl
  · rw [if_neg hgt.not_gt, Int.compare_eq_lt.mpr (by omega), compareStacks_of_deeper _ hgt]
    cases hcmp : Ord.compare (x.stack.take y.stack.length) y.stack with
    | lt => rfl
    | eq => rfl
    | gt => exact absurd hcmp (h hgt)

theorem compare_self (x : AnalysisState) : x.compare x = .eq := by
  rw [compare_eq_compareDeeper fun h => absurd h (lt_irrefl _)]
  exact Std.ReflCmp.compare_self

/-! ### The sets -/

namespace DeeperFirst

variable (h : DeeperFirst states)
include h

theorem compare_eq (hx : x ∈ states) (hy : y ∈ states) : x.compare y = compareDeeper x y :=
  compare_eq_compareDeeper (h x hx y hy)

theorem compare_swap (hx : x ∈ states) (hy : y ∈ states) : y.compare x = (x.compare y).swap := by
  rw [h.compare_eq hx hy, h.compare_eq hy hx]
  exact Std.OrientedCmp.eq_swap

theorem compare_trans {z : AnalysisState} (hx : x ∈ states) (hy : y ∈ states) (hz : z ∈ states)
    (hxy : x.compare y = .lt) (hyz : y.compare z = .lt) : x.compare z = .lt := by
  rw [h.compare_eq hx hy] at hxy
  rw [h.compare_eq hy hz] at hyz
  rw [h.compare_eq hx hz]
  exact Std.TransCmp.lt_trans hxy hyz

theorem eq_of_compare (hx : x ∈ states) (hy : y ∈ states) (heq : x.compare y = .eq) : x = y :=
  eq_of_compareDeeper (h.compare_eq hx hy ▸ heq)

theorem insertSorted {set : List AnalysisState} (hset : set ⊆ states) (hx : x ∈ states)
    (hsorted : set.Pairwise fun y z => y.compare z = .lt) :
    (Library.insertSorted compare set x).Pairwise (fun y z => y.compare z = .lt) ∧
      ∀ y, y ∈ Library.insertSorted compare set x ↔ y ∈ set ∨ y = x := by
  refine insertSorted_spec hsorted ?_ (fun y hy => h.eq_of_compare (hset hy) hx) fun y hy hgt => ?_
  · refine hsorted.imp_of_mem fun {y z} hy hz hyz hle => ?_
    cases hcmp : z.compare x with
    | lt => exact h.compare_trans (hset hy) (hset hz) hx hyz hcmp
    | eq => rwa [← h.eq_of_compare (hset hz) hx hcmp]
    | gt => exact absurd hcmp hle
  · rw [h.compare_swap (hset hy) hx, hgt]
    rfl

theorem foldl_insertSorted {inserted : List AnalysisState} (hsub : inserted ⊆ states) :
    (inserted.foldl (Library.insertSorted compare) []).Pairwise (fun x y => x.compare y = .lt) ∧
      ∀ x, x ∈ inserted.foldl (Library.insertSorted compare) [] ↔ x ∈ inserted := by
  induction inserted using List.reverseRecOn with
  | nil => exact ⟨.nil, fun _ => Iff.rfl⟩
  | append_singleton inserted x ih =>
    obtain ⟨hinserted, hx⟩ := List.append_subset.mp hsub
    obtain ⟨hsorted, hmem⟩ := ih hinserted
    obtain ⟨hsorted', hmem'⟩ := h.insertSorted (fun y hy => hinserted ((hmem y).mp hy))
      (hx List.mem_cons_self) hsorted
    rw [List.foldl_append]
    refine ⟨hsorted', fun y => (hmem' y).trans ?_⟩
    rw [hmem, List.mem_append, List.mem_singleton]

end DeeperFirst

theorem OrdersStates.deeperFirst (h : OrdersStates states) : DeeperFirst states := by
  intro x hx y hy hdeeper hgt
  have hswap := h.swap x hx y hy
  have hyx : y.compare x = .gt := if_pos hdeeper
  have hxy : x.compare y = .gt := by
    rw [compare, if_neg hdeeper.not_gt, compareStacks_of_deeper _ hdeeper, hgt]
    rfl
  rw [hyx, hxy] at hswap
  cases hswap

/-- **States are ordered, and kept in sorted sets, exactly if the deeper ones come first.** -/
theorem ordersStates_iff (states : List AnalysisState) :
    OrdersStates states ↔ DeeperFirst states := by
  refine ⟨OrdersStates.deeperFirst, fun h => ⟨fun x hx y hy => h.compare_swap hx hy,
    fun x hx y hy z hz => h.compare_trans hx hy hz, fun x hx y hy => h.eq_of_compare hx hy,
    fun inserted hsub => ?_⟩⟩
  obtain ⟨hsorted, hmem⟩ := h.foldl_insertSorted hsub
  refine ⟨hsorted, hmem, hsorted.imp fun {x y} hxy heq => ?_⟩
  rw [heq, compare_self] at hxy
  cases hxy

/-- Each of the two states is greater than the other one. -/
theorem exists_not_ordersStates : ∃ states : List AnalysisState, ¬ OrdersStates states := by
  refine ⟨[⟨[⟨1, 0, 0, 0⟩, ⟨0, 0, 0, 0⟩], 0⟩, ⟨[⟨0, 0, 0, 0⟩], 0⟩], fun h => ?_⟩
  exact absurd (h.swap _ (.head _) _ (.tail _ (.head _))) (by decide)

end AnalysisState

end TreeSitter.Lib
