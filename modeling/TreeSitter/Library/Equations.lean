import Mathlib

/-!
# TreeSitter.Library.Equations

**Least solutions** of systems of equations between languages. A system maps an assignment of
languages to its variables to what the right-hand sides denote under it; the least solution is
below everything that the system does not enlarge (`least_le`). An equation `X = X X + K` defines
the strings of one or more words of `K` (`least_binary`), even if `K` depends on `X`.
-/

namespace Library

open Computability

variable {ι α : Type*}

/-- One or more words. -/
def plus (K : Language α) : Language α := K * K∗

theorem plus_mono {K L : Language α} (h : K ≤ L) : plus K ≤ plus L :=
  mul_le_mul' h (kstar_mono h)

theorem le_plus (K : Language α) : K ≤ plus K :=
  (mul_one K).symm.trans_le (mul_le_mul_right one_le_kstar K)

theorem plus_mul_plus_le (K : Language α) : plus K * plus K ≤ plus K := by
  unfold plus
  rw [mul_assoc]
  refine mul_le_mul_right ?_ K
  rw [← mul_assoc, Language.mul_self_kstar_comm, mul_assoc, kstar_mul_kstar]
  exact mul_kstar_le_kstar

/-- What is closed under concatenation and contains `K` has all of its strings. -/
theorem plus_le {K X : Language α} (hK : K ≤ X) (hX : X * X ≤ X) : plus K ≤ X := by
  unfold plus
  refine mul_kstar_le hK ?_
  exact (mul_le_mul_right hK X).trans hX

/-- The least solution of a system. -/
def least (F : (ι → Language α) → ι → Language α) : ι → Language α := sInf {env | F env ≤ env}

variable {F : (ι → Language α) → ι → Language α}

theorem least_le {env : ι → Language α} (h : F env ≤ env) : least F ≤ env := sInf_le h

theorem least_eq (hF : Monotone F) : F (least F) = least F := by
  have hle : F (least F) ≤ least F := le_sInf fun env henv => (hF (least_le henv)).trans henv
  exact le_antisymm hle (least_le (hF hle))

/-- **An equation `X = X X + K` defines one or more words of `K`.** -/
theorem least_binary [DecidableEq ι] (hF : Monotone F) {s : ι}
    {K : (ι → Language α) → Language α} (hK : Monotone K)
    (hs : ∀ env, F env s = env s * env s + K env) : least F s = plus (K (least F)) := by
  have heq : least F s * least F s + K (least F) = least F s := by
    rw [← hs, least_eq hF]
  have hclosed : least F s * least F s ≤ least F s := le_sup_left.trans_eq heq
  have hbase : K (least F) ≤ least F s := le_sup_right.trans_eq heq
  refine le_antisymm ?_ (plus_le hbase hclosed)
  -- Put one or more words for the variable: nothing else gets larger.
  have hbelow : Function.update (least F) s (plus (K (least F))) ≤ least F := by
    intro i
    by_cases hi : i = s
    · subst hi
      rw [Function.update_self]
      exact plus_le hbase hclosed
    · rw [Function.update_of_ne hi]
  have hfixed : F (Function.update (least F) s (plus (K (least F)))) ≤
      Function.update (least F) s (plus (K (least F))) := by
    intro i
    by_cases hi : i = s
    · subst hi
      rw [hs, Function.update_self]
      exact sup_le (plus_mul_plus_le _) ((hK hbelow).trans (le_plus _))
    · rw [Function.update_of_ne hi]
      exact (hF hbelow i).trans_eq (congrFun (least_eq hF) i)
  exact (least_le hfixed s).trans_eq (Function.update_self _ _ _)

end Library
