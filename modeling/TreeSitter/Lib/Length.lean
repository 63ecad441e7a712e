import Mathlib

/-!
# TreeSitter.Lib.Length

`length.h` and `point.h`: **lengths**, which count bytes and, as a point, rows and columns.
All components are 32-bit numbers, and addition wraps around. `TSRange` is a range of the text
between two positions.

`Measures` is what the proofs about lengths rest on: a way to read lengths as texts such that
adding is concatenation and subtracting takes a front part away. There are two of them, the
length of a text in bytes alone (`bytesOf`), which holds of lengths with any points, and the
length of a text with its newlines (`lengthOf`).
-/

namespace TreeSitter.Lib

open List

/-- Addition of `uint32_t`. -/
def addU32 (a b : Nat) : Nat := (a + b) % 2 ^ 32

theorem addU32_of_lt {a b : Nat} (h : a + b < 2 ^ 32) : addU32 a b = a + b :=
  Nat.mod_eq_of_lt h

/-- Addition of `int32_t`, where it wraps around. -/
def addI32 (a b : Int) : Int := (a + b).bmod (2 ^ 32)

theorem addI32_of_lt {a b : Int} (hle : -2 ^ 31 ≤ a + b) (hlt : a + b < 2 ^ 31) :
    addI32 a b = a + b :=
  Int.bmod_eq_of_le (by norm_num; exact hle) (by norm_num; exact hlt)

/-- Subtraction of `uint32_t`. -/
def subU32 (a b : Nat) : Nat := if b ≤ a then a - b else 2 ^ 32 - (b - a)

theorem subU32_of_le {a b : Nat} (h : b ≤ a) : subU32 a b = a - b := if_pos h

/-- `TSPoint`. -/
structure Point where
  row : Nat
  column : Nat
deriving DecidableEq

/-- `point_add`. -/
def Point.add (a b : Point) : Point :=
  if b.row > 0 then ⟨addU32 a.row b.row, b.column⟩ else ⟨a.row, addU32 a.column b.column⟩

/-- `point_sub`; the column does not go below 0. -/
def Point.sub (a b : Point) : Point :=
  if a.row > b.row then ⟨a.row - b.row, a.column⟩ else ⟨0, a.column - b.column⟩

/-- `Length`. -/
structure Length where
  bytes : Nat
  extent : Point
deriving DecidableEq

namespace Length

/-- `length_zero`. -/
def zero : Length := ⟨0, 0, 0⟩

/-- `length_add`. -/
def add (a b : Length) : Length := ⟨addU32 a.bytes b.bytes, a.extent.add b.extent⟩

/-- `length_sub`; the bytes do not go below 0. -/
def sub (a b : Length) : Length := ⟨a.bytes - b.bytes, a.extent.sub b.extent⟩

/-- `length_saturating_sub`. -/
def saturatingSub (a b : Length) : Length := if a.bytes > b.bytes then a.sub b else zero

@[simp] theorem zero_bytes : zero.bytes = 0 := rfl

@[simp] theorem sub_bytes (a b : Length) : (a.sub b).bytes = a.bytes - b.bytes := rfl

@[simp] theorem saturatingSub_bytes (a b : Length) :
    (a.saturatingSub b).bytes = a.bytes - b.bytes := by
  unfold saturatingSub
  split
  · rfl
  · rw [zero_bytes]
    omega

theorem add_bytes {a b : Length} (h : a.bytes + b.bytes < 2 ^ 32) :
    (a.add b).bytes = a.bytes + b.bytes :=
  addU32_of_lt h

end Length

/-! ### Ranges -/

/-- `point_lte`. -/
def Point.lte (a b : Point) : Bool := a.row < b.row || (a.row = b.row && a.column ≤ b.column)

/-- `point_lt`. -/
def Point.lt (a b : Point) : Bool := a.row < b.row || (a.row = b.row && a.column < b.column)

/-- `TSRange`. -/
structure TSRange where
  startByte : Nat
  endByte : Nat
  startPoint : Point
  endPoint : Point
deriving DecidableEq

/-! ### Lengths of texts -/

/-- Lengths read as texts. `inline` is about the size of a subtree stored in place, of which
only the bytes are kept. -/
structure Measures {β : Type} (R : Length → List β → Prop) : Prop where
  bytes : ∀ {l : Length} {w : List β}, R l w → l.bytes = w.length
  zero : R Length.zero []
  add : ∀ {k l : Length} {v w : List β}, R k v → R l w → (v ++ w).length < 2 ^ 32 →
    R (k.add l) (v ++ w)
  sub : ∀ {k l : Length} {v w : List β}, R l (v ++ w) → R k v → R (l.sub k) w
  inline : ∀ {l : Length} {w : List β}, R l w → l.extent.row = 0 → R ⟨l.bytes, 0, l.bytes⟩ w

/-- One of two texts is a front part of the other. -/
def Comparable {β : Type} (v w : List β) : Prop := v <+: w ∨ w <+: v

namespace Comparable

variable {β : Type} {u v w : List β}

theorem symm (h : Comparable v w) : Comparable w v := Or.symm h

theorem of_isPrefix (h : Comparable v w) (hu : u <+: v) : Comparable u w := by
  rcases h with h | h
  · exact Or.inl (hu.trans h)
  · exact prefix_or_prefix_of_prefix hu h

theorem isPrefix (h : Comparable v w) (hle : v.length ≤ w.length) : v <+: w := by
  rcases h with h | h
  · exact h
  · rw [h.eq_of_length (le_antisymm h.length_le hle)]

/-- What is left of both behind a text that one of them starts with. -/
theorem drop (h : Comparable v (u ++ w)) : Comparable (v.drop u.length) w := by
  rcases h with h | h
  · left
    simpa using h.drop u.length
  · right
    simpa using h.drop u.length

end Comparable

theorem Measures.saturatingSub {β : Type} {R : Length → List β → Prop} (hR : Measures R)
    {k l : Length} {v w : List β} (hl : R l w) (hk : R k v) (h : Comparable v w) :
    R (l.saturatingSub k) (w.drop v.length) := by
  rw [Length.saturatingSub, hR.bytes hl, hR.bytes hk]
  split
  · rename_i hlt
    obtain ⟨rest, rfl⟩ := h.isPrefix hlt.le
    rw [drop_left]
    exact hR.sub hl hk
  · rename_i hle
    rw [drop_eq_nil_of_le (by omega)]
    exact hR.zero

/-- The bytes of a length are those of the text. -/
def bytesOf (l : Length) (w : List Unit) : Prop := l.bytes = w.length

theorem measures_bytesOf : Measures bytesOf where
  bytes h := h
  zero := rfl
  add {k l v w} hk hl h := by
    rw [bytesOf] at hk hl ⊢
    rw [length_append] at h ⊢
    rw [Length.add_bytes (by omega), hk, hl]
  sub {k l v w} hl hk := by
    rw [bytesOf] at hk hl ⊢
    rw [length_append] at hl
    rw [Length.sub_bytes]
    omega
  inline h _ := h

/-- Texts of bytes with nothing to tell them apart are compared by their lengths. -/
theorem comparable_unit (v w : List Unit) : Comparable v w := by
  rcases Nat.le_total v.length w.length with h | h
  · left
    rw [prefix_iff_eq_take]
    exact ext_getElem (by simp [h]) (by simp)
  · right
    rw [prefix_iff_eq_take]
    exact ext_getElem (by simp [h]) (by simp)

def newline : UInt8 := 10

/-- The row and the column behind a text. -/
def pointOf : List UInt8 → Point
  | [] => ⟨0, 0⟩
  | c :: text => if c = newline then ⟨(pointOf text).row + 1, (pointOf text).column⟩
    else if (pointOf text).row = 0 then ⟨0, (pointOf text).column + 1⟩ else pointOf text

def lengthOf (text : List UInt8) : Length := ⟨text.length, pointOf text⟩

theorem pointOf_append (v w : List UInt8) : pointOf (v ++ w) =
    if (pointOf w).row > 0 then ⟨(pointOf v).row + (pointOf w).row, (pointOf w).column⟩
    else ⟨(pointOf v).row, (pointOf v).column + (pointOf w).column⟩ := by
  induction v with
  | nil =>
    simp only [nil_append, pointOf]
    split
    · simp
    · rename_i h
      have hrow : (pointOf w).row = 0 := by omega
      rw [Nat.zero_add, ← hrow]
  | cons c v ih =>
    simp only [cons_append, pointOf, ih]
    by_cases hw : (pointOf w).row > 0
    · have hne : ¬ (pointOf v).row + (pointOf w).row = 0 := by omega
      simp only [if_pos hw]
      by_cases hc : c = newline
      · simp only [if_pos hc, Point.mk.injEq, and_true]
        omega
      · simp only [if_neg hc, if_neg hne]
        split
        · rename_i hv
          simp [hv]
        · rfl
    · simp only [if_neg hw]
      by_cases hc : c = newline
      · simp only [if_pos hc]
      · simp only [if_neg hc]
        split
        · simp only [Point.mk.injEq, true_and]
          omega
        · rfl

theorem pointOf_le (w : List UInt8) :
    (pointOf w).row ≤ w.length ∧ (pointOf w).column ≤ w.length := by
  induction w with
  | nil => exact ⟨le_rfl, le_rfl⟩
  | cons c w ih =>
    simp only [pointOf, length_cons]
    split
    · exact ⟨by dsimp only; omega, by dsimp only; omega⟩
    · split
      · exact ⟨by dsimp only; omega, by dsimp only; omega⟩
      · omega

theorem column_of_row_eq_zero {w : List UInt8} (h : (pointOf w).row = 0) :
    (pointOf w).column = w.length := by
  induction w with
  | nil => rfl
  | cons c w ih =>
    simp only [pointOf] at h ⊢
    split at h
    · cases h
    · rename_i hc
      rw [if_neg hc]
      split at h
      · rename_i hrow
        rw [if_pos hrow, length_cons, ← ih hrow]
      · rename_i hrow
        exact absurd h hrow

theorem measures_lengthOf : Measures fun l w => l = lengthOf w where
  bytes h := by rw [h]; rfl
  zero := rfl
  add {k l v w} hk hl h := by
    subst hk hl
    rw [length_append] at h
    have hv := pointOf_le v
    have hw := pointOf_le w
    rw [Length.add, lengthOf, lengthOf, lengthOf, addU32_of_lt h, length_append,
      pointOf_append, Point.add, addU32_of_lt (by dsimp only; omega),
      addU32_of_lt (by dsimp only; omega)]
  sub {k l v w} hl hk := by
    subst hk hl
    simp only [Length.sub, lengthOf, pointOf_append, Point.sub, length_append,
      Nat.add_sub_cancel_left]
    by_cases hw : (pointOf w).row > 0
    · simp only [if_pos hw]
      rw [if_pos (by omega), Nat.add_sub_cancel_left]
    · have hrow : (pointOf w).row = 0 := by omega
      simp only [if_neg hw]
      rw [if_neg (by omega), Nat.add_sub_cancel_left, ← hrow]
  inline {l w} h hrow := by
    subst h
    have hcol := column_of_row_eq_zero hrow
    change Length.mk w.length ⟨0, w.length⟩ = Length.mk w.length (pointOf w)
    rw [← hcol, ← hrow]
    rfl

end TreeSitter.Lib
