import Mathlib

/-!
# TreeSitter.Library.Words

**Sets of numbers in 64-bit words**: the bit of a number is in the word of its quotient by 64, and
the words behind the last one are taken as zero. One of some words is not zero exactly if there is a
number whose bit is in it (`any_ne_zero_iff`), so that a test of words is a test of numbers.
-/

namespace Library

open List

variable {words words' : List (BitVec 64)} {w : BitVec 64} {i j : Nat}

def wordAt (words : List (BitVec 64)) (i : Nat) : BitVec 64 := words.getD i 0#64

/-- Whether a number is in the set. -/
def hasBit (words : List (BitVec 64)) (i : Nat) : Bool := (wordAt words (i / 64)).getLsbD (i % 64)

/-- `words[i / 64] |= 1 << (i % 64)`. -/
def setBit (words : List (BitVec 64)) (i : Nat) : List (BitVec 64) :=
  words.modify (i / 64) (· ||| BitVec.twoPow 64 (i % 64))

/-! ### Words and bits -/

theorem length_setBit : (setBit words i).length = words.length := length_modify _ _ _

theorem wordAt_of_le (h : words.length ≤ i) : wordAt words i = 0#64 := by
  rw [wordAt, getD_eq_getElem?_getD, getElem?_eq_none h, Option.getD_none]

theorem wordAt_of_lt (h : i < words.length) : wordAt words i = words[i] := by
  rw [wordAt, getD_eq_getElem?_getD, getElem?_eq_getElem h, Option.getD_some]

theorem wordAt_replicate {n : Nat} : wordAt (List.replicate n 0#64) i = 0#64 := by
  simp only [wordAt, getD_eq_getElem?_getD, getElem?_replicate]
  split <;> rfl

theorem wordAt_modify {f : BitVec 64 → BitVec 64} (h : j < words.length) :
    wordAt (words.modify j f) i = if i = j then f (wordAt words j) else wordAt words i := by
  simp only [wordAt, getD_eq_getElem?_getD, getElem?_modify]
  by_cases hij : i = j
  · subst hij
    simp [getElem?_eq_getElem h]
  · simp [hij, Ne.symm hij]

theorem lt_of_hasBit (h : hasBit words i = true) : i / 64 < words.length := by
  by_contra hle
  rw [hasBit, wordAt_of_le (Nat.le_of_not_lt hle), BitVec.getLsbD_zero] at h
  cases h

/-- A function of words is zero everywhere exactly if each of its bits is. -/
theorem forall_word_eq_zero_iff (f : Nat → BitVec 64) (n : Nat) :
    (∀ k < n, f k = 0#64) ↔ ∀ i, i / 64 < n → (f (i / 64)).getLsbD (i % 64) = false := by
  constructor
  · intro h i hi
    rw [h _ hi, BitVec.getLsbD_zero]
  · intro h k hk
    refine BitVec.eq_of_getLsbD_eq fun b hb => ?_
    have hbit := h (64 * k + b)
    rw [Nat.mul_add_div (by decide), Nat.mul_add_mod, Nat.div_eq_of_lt hb, Nat.mod_eq_of_lt hb,
      Nat.add_zero] at hbit
    rw [hbit hk, BitVec.getLsbD_zero]

theorem any_ne_zero_iff {α : Type*} {l : List α} {g : α → BitVec 64} {f : Nat → BitVec 64}
    (h : ∀ k (hk : k < l.length), g l[k] = f k) : l.any (g · != 0#64) = true ↔
      ∃ i, i / 64 < l.length ∧ (f (i / 64)).getLsbD (i % 64) = true := by
  rw [← not_iff_not, Bool.not_eq_true, any_eq_false, forall_mem_iff_forall_getElem]
  simp only [bne_iff_ne, not_not, not_exists, not_and, Bool.not_eq_true]
  rw [← forall_word_eq_zero_iff f]
  exact forall₂_congr fun k hk => by rw [h k hk]

theorem hasBit_setBit (h : i / 64 < words.length) :
    hasBit (setBit words i) j = (hasBit words j || decide (j = i)) := by
  rw [hasBit, setBit, wordAt_modify h, hasBit]
  by_cases hword : j / 64 = i / 64
  · have heq : j % 64 = i % 64 ↔ j = i := by omega
    simp [hword, Nat.mod_lt, heq]
  · have hne : j ≠ i := fun heq => hword (heq ▸ rfl)
    simp [hword, hne]

/-- The bits of some numbers, set in as many words as a number of bits needs. -/
def setBits (n : Nat) (indices : List Nat) : List (BitVec 64) :=
  indices.foldl setBit (List.replicate ((n + 63) / 64) 0#64)

theorem length_setBits (n : Nat) (indices : List Nat) :
    (setBits n indices).length = (n + 63) / 64 := by
  have hfold : ∀ (indices : List Nat) (words : List (BitVec 64)),
      (indices.foldl setBit words).length = words.length := by
    intro indices
    induction indices with
    | nil => exact fun _ => rfl
    | cons i indices ih => exact fun words => (ih _).trans length_setBit
  exact (hfold indices _).trans length_replicate

theorem hasBit_setBits {n : Nat} {indices : List Nat} (h : ∀ i ∈ indices, i < n) (j : Nat) :
    hasBit (setBits n indices) j = true ↔ j ∈ indices := by
  induction indices using List.reverseRecOn with
  | nil => simp [setBits, hasBit, wordAt_replicate]
  | append_singleton indices i ih =>
    have hlength := length_setBits n indices
    have hi := h i (by simp)
    rw [setBits, foldl_append, ← setBits, foldl_cons, foldl_nil,
      hasBit_setBit (by omega), Bool.or_eq_true, ih fun k hk => h k (mem_append_left _ hk)]
    simp

end Library
