import Mathlib

/-!
# Library.Uleb128

**LEB128** of unsigned numbers: seven bits in a byte, the lowest first, and the high bit set in
every byte but the last. A number has many encodings, since zero bits may stand at its end;
`ulebEncode` gives the shortest one.
-/

namespace Library

/-- The number that the bytes encode, all of them. -/
def ulebValue : List UInt8 → Option Nat
  | [] => none
  | byte :: bytes =>
    if byte < 0x80 then if bytes = [] then some byte.toNat else none
    else (ulebValue bytes).map fun value => byte.toNat - 128 + 128 * value

/-- The shortest encoding of a number. -/
def ulebEncode (value : Nat) : List UInt8 :=
  if value < 128 then [value.toUInt8]
  else (value % 128 + 128).toUInt8 :: ulebEncode (value / 128)
termination_by value
decreasing_by omega

/-- An encoding of a number of 32 bits, as readers accept them: of five bytes at most. -/
structure Uleb32 (bytes : List UInt8) (value : Nat) : Prop where
  value_eq : ulebValue bytes = some value
  length_le : bytes.length ≤ 5
  lt : value < 2 ^ 32

instance (bytes : List UInt8) (value : Nat) : Decidable (Uleb32 bytes value) :=
  decidable_of_iff (ulebValue bytes = some value ∧ bytes.length ≤ 5 ∧ value < 2 ^ 32)
    ⟨fun h => ⟨h.1, h.2.1, h.2.2⟩, fun h => ⟨h.1, h.2, h.3⟩⟩

variable {byte : UInt8} {bytes : List UInt8} {value : Nat}

theorem ulebValue_cons_last (h : byte < 0x80) :
    ulebValue (byte :: bytes) = some value ↔ bytes = [] ∧ value = byte.toNat := by
  rw [ulebValue, if_pos h]
  by_cases hnil : bytes = [] <;> simp [hnil, eq_comm]

theorem ulebValue_cons_more (h : ¬ byte < 0x80) :
    ulebValue (byte :: bytes) = some value ↔
      ∃ rest, ulebValue bytes = some rest ∧ value = byte.toNat - 128 + 128 * rest := by
  rw [ulebValue, if_neg h, Option.map_eq_some_iff]
  simp only [eq_comm]

/-- The encodings in front of bytes, by the first of them: it is the last byte of the only
encoding, or the rest of the encoding follows. -/
theorem exists_prefix_cons_iff {P : List UInt8 → Nat → Prop} :
    (∃ enc value, enc <+: byte :: bytes ∧ ulebValue enc = some value ∧ P enc value) ↔
      byte < 0x80 ∧ P [byte] byte.toNat ∨
      ¬ byte < 0x80 ∧ ∃ enc value, enc <+: bytes ∧ ulebValue enc = some value ∧
        P (byte :: enc) (byte.toNat - 128 + 128 * value) := by
  constructor
  · rintro ⟨enc, value, hprefix, henc, hP⟩
    cases enc with
    | nil => cases henc
    | cons first enc =>
      obtain ⟨rfl, htail⟩ := List.cons_prefix_cons.mp hprefix
      by_cases hlast : first < 0x80
      · obtain ⟨rfl, rfl⟩ := (ulebValue_cons_last hlast).mp henc
        exact .inl ⟨hlast, hP⟩
      · obtain ⟨value, hvalue, rfl⟩ := (ulebValue_cons_more hlast).mp henc
        exact .inr ⟨hlast, enc, value, htail, hvalue, hP⟩
  · rintro (⟨hlast, hP⟩ | ⟨hmore, enc, value, hprefix, henc, hP⟩)
    · exact ⟨[byte], _, List.cons_prefix_cons.mpr ⟨rfl, List.nil_prefix⟩,
        (ulebValue_cons_last hlast).mpr ⟨rfl, rfl⟩, hP⟩
    · exact ⟨byte :: enc, _, List.cons_prefix_cons.mpr ⟨rfl, hprefix⟩,
        (ulebValue_cons_more hmore).mpr ⟨value, henc, rfl⟩, hP⟩

theorem Uleb32.length_pos (h : Uleb32 bytes value) : 0 < bytes.length := by
  cases bytes with
  | nil => cases h.value_eq
  | cons byte bytes => simp

/-! ### The shortest encoding -/

theorem toNat_toUInt8_of_lt (h : value < 256) : value.toUInt8.toNat = value := by
  simp [Nat.mod_eq_of_lt h]

theorem ulebValue_ulebEncode (value : Nat) : ulebValue (ulebEncode value) = some value := by
  induction value using Nat.strongRecOn with
  | ind value ih =>
    rw [ulebEncode]
    split
    next hlt =>
      have hbyte : value.toUInt8.toNat = value := toNat_toUInt8_of_lt (by omega)
      have hlast : value.toUInt8 < 0x80 := by
        rw [UInt8.lt_iff_toNat_lt, hbyte]
        exact hlt
      rw [ulebValue_cons_last hlast, hbyte]
      exact ⟨rfl, rfl⟩
    next hge =>
      have hbyte : (value % 128 + 128).toUInt8.toNat = value % 128 + 128 :=
        toNat_toUInt8_of_lt (by omega)
      have hmore : ¬ (value % 128 + 128).toUInt8 < 0x80 := by
        rw [UInt8.lt_iff_toNat_lt, hbyte]
        exact Nat.not_lt.mpr (Nat.le_add_left _ _)
      rw [ulebValue_cons_more hmore, hbyte]
      exact ⟨value / 128, ih _ (by omega), by omega⟩

theorem length_ulebEncode_le (count : Nat) (h : value < 128 ^ (count + 1)) :
    (ulebEncode value).length ≤ count + 1 := by
  induction count generalizing value with
  | zero =>
    rw [ulebEncode, if_pos (by omega)]
    simp
  | succ count ih =>
    rw [ulebEncode]
    split
    next => simp
    next =>
      have hdiv : value / 128 < 128 ^ (count + 1) := by
        rw [Nat.div_lt_iff_lt_mul (by omega)]
        simpa [pow_succ] using h
      rw [List.length_cons]
      exact Nat.succ_le_succ (ih hdiv)

/-- The shortest encoding of a number of 32 bits is one that readers accept. -/
theorem uleb32_ulebEncode (h : value < 2 ^ 32) : Uleb32 (ulebEncode value) value :=
  ⟨ulebValue_ulebEncode value, length_ulebEncode_le 4 (lt_trans h (by norm_num)), h⟩

end Library
