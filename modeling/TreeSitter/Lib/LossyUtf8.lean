import Mathlib

/-!
# TreeSitter.Lib.LossyUtf8

`LossyUtf8` of the Rust binding: an iterator over **bytes as text**, in which bytes that are not
UTF-8 become replacement characters. It stops in front of an incomplete character at the end.
-/

namespace TreeSitter.Lib

/-- `core::str::Utf8Error`: how many bytes are valid, and how many behind them are not; the number
is missing if the bytes end inside of a character. -/
structure Utf8Error where
  validUpTo : Nat
  errorLen : Option Nat
deriving DecidableEq

def isContinuation (byte : UInt8) : Bool := 0x80 ≤ byte && byte ≤ 0xBF

/-- Whether the second byte of a character can follow the first one. -/
def secondByteOk (first second : UInt8) : Bool :=
  if first = 0xE0 then 0xA0 ≤ second && second ≤ 0xBF
  else if first = 0xED then 0x80 ≤ second && second ≤ 0x9F
  else if first = 0xF0 then 0x90 ≤ second && second ≤ 0xBF
  else if first = 0xF4 then 0x80 ≤ second && second ≤ 0x8F
  else isContinuation second

/-- The error of `core::str::from_utf8`, of bytes behind `valid` valid ones. -/
def utf8ErrorFrom (valid : Nat) : List UInt8 → Option Utf8Error
  | [] => none
  | first :: rest =>
    if first < 0x80 then utf8ErrorFrom (valid + 1) rest
    else if 0xC2 ≤ first && first ≤ 0xDF then
      match rest with
      | [] => some ⟨valid, none⟩
      | second :: rest =>
        if isContinuation second then utf8ErrorFrom (valid + 2) rest else some ⟨valid, some 1⟩
    else if 0xE0 ≤ first && first ≤ 0xEF then
      match rest with
      | [] => some ⟨valid, none⟩
      | [second] => if secondByteOk first second then some ⟨valid, none⟩ else some ⟨valid, some 1⟩
      | second :: third :: rest =>
        if !secondByteOk first second then some ⟨valid, some 1⟩
        else if isContinuation third then utf8ErrorFrom (valid + 3) rest
        else some ⟨valid, some 2⟩
    else if 0xF0 ≤ first && first ≤ 0xF4 then
      match rest with
      | [] => some ⟨valid, none⟩
      | [second] => if secondByteOk first second then some ⟨valid, none⟩ else some ⟨valid, some 1⟩
      | [second, third] =>
        if !secondByteOk first second then some ⟨valid, some 1⟩
        else if isContinuation third then some ⟨valid, none⟩
        else some ⟨valid, some 2⟩
      | second :: third :: fourth :: rest =>
        if !secondByteOk first second then some ⟨valid, some 1⟩
        else if !isContinuation third then some ⟨valid, some 2⟩
        else if isContinuation fourth then utf8ErrorFrom (valid + 4) rest
        else some ⟨valid, some 3⟩
    else some ⟨valid, some 1⟩

/-- The error of `core::str::from_utf8`, if there is one. -/
def utf8Error (bytes : List UInt8) : Option Utf8Error := utf8ErrorFrom 0 bytes

/-- `LossyUtf8`. -/
structure LossyUtf8 where
  bytes : List UInt8
  inReplacement : Bool

namespace LossyUtf8

/-- `LossyUtf8::new`. -/
def new (bytes : List UInt8) : LossyUtf8 := ⟨bytes, false⟩

/-- The bytes of U+FFFD. -/
def replacement : List UInt8 := [0xEF, 0xBF, 0xBD]

/-- `LossyUtf8::next`: the bytes of a piece of text. -/
def next (lossy : LossyUtf8) : Option (List UInt8 × LossyUtf8) :=
  if lossy.bytes = [] then none
  else if lossy.inReplacement then some (replacement, { lossy with inReplacement := false })
  else
    match utf8Error lossy.bytes with
    | none => some (lossy.bytes, { lossy with bytes := [] })
    | some ⟨errorStart, some errorLen⟩ =>
      if errorStart > 0 then
        some (lossy.bytes.take errorStart, ⟨lossy.bytes.drop (errorStart + errorLen), true⟩)
      else some (replacement, { lossy with bytes := lossy.bytes.drop errorLen })
    | some ⟨_, none⟩ => none

/-- How many pieces there can be at most. -/
def fuel (lossy : LossyUtf8) : Nat := 2 * lossy.bytes.length + if lossy.inReplacement then 1 else 0

/-- The pieces that the iterator yields, as many as there is fuel for. -/
def collectFrom : Nat → LossyUtf8 → List (List UInt8)
  | 0, _ => []
  | fuel + 1, lossy =>
    match lossy.next with
    | none => []
    | some (piece, lossy) => piece :: collectFrom fuel lossy

/-- All pieces that the iterator yields. -/
def collect (lossy : LossyUtf8) : List (List UInt8) := collectFrom lossy.fuel lossy

/-- `LossyUtf8::new(bytes).flat_map(|piece| piece.bytes())`. -/
def lossyBytes (bytes : List UInt8) : List UInt8 := (collect (new bytes)).flatten

/-! ### The fuel is enough -/

theorem errorLen_pos {bytes : List UInt8} {valid errorStart errorLen : Nat}
    (h : utf8ErrorFrom valid bytes = some ⟨errorStart, some errorLen⟩) : 0 < errorLen := by
  fun_induction utf8ErrorFrom valid bytes <;> simp_all <;> omega

theorem next_fuel_lt {lossy lossy' : LossyUtf8} {piece : List UInt8}
    (h : lossy.next = some (piece, lossy')) : lossy'.fuel < lossy.fuel := by
  obtain ⟨bytes, inReplacement⟩ := lossy
  simp only [next] at h
  split at h
  next => cases h
  next hne =>
    have hpos : 0 < bytes.length := List.length_pos_iff.mpr hne
    split at h
    next hreplacement =>
      cases h
      simp [fuel, hreplacement]
    next hreplacement =>
      split at h
      next =>
        cases h
        simp [fuel, hreplacement, hpos]
      next errorStart errorLen herror =>
        have hlen := errorLen_pos herror
        split at h <;> cases h
        · simp only [fuel, List.length_drop, hreplacement, if_true]
          split <;> omega
        · simp only [fuel, List.length_drop, hreplacement]
          omega
      next => cases h

theorem next_of_fuel_eq_zero {lossy : LossyUtf8} (h : lossy.fuel = 0) : lossy.next = none := by
  have hnil : lossy.bytes = [] := by
    rw [← List.length_eq_zero_iff]
    rw [fuel] at h
    omega
  rw [next, if_pos hnil]

theorem collectFrom_eq {n m : Nat} {lossy : LossyUtf8} (hn : lossy.fuel ≤ n)
    (hm : lossy.fuel ≤ m) : collectFrom n lossy = collectFrom m lossy := by
  induction n generalizing m lossy with
  | zero =>
    have hnone := next_of_fuel_eq_zero (Nat.le_zero.mp hn)
    cases m with
    | zero => rfl
    | succ m => simp [collectFrom, hnone]
  | succ n ih =>
    cases m with
    | zero => simp [collectFrom, next_of_fuel_eq_zero (Nat.le_zero.mp hm)]
    | succ m =>
      rw [collectFrom, collectFrom]
      split
      next => rfl
      next piece lossy' hnext =>
        have hlt := next_fuel_lt hnext
        rw [@ih m lossy' (by omega) (by omega)]

/-- The iterator yields one piece after the other, until there is none. -/
theorem collect_eq (lossy : LossyUtf8) :
    lossy.collect =
      match lossy.next with
      | none => []
      | some (piece, lossy) => piece :: lossy.collect := by
  rw [collect, collectFrom_eq le_rfl (Nat.le_succ lossy.fuel), collectFrom]
  split
  next => rfl
  next piece lossy' hnext =>
    rw [collect, collectFrom_eq (next_fuel_lt hnext).le le_rfl]

example : lossyBytes [0x68, 0x69, 0xC0, 0xC1, 0x62] =
    [0x68, 0x69] ++ replacement ++ replacement ++ [0x62] := by
  decide

end LossyUtf8

end TreeSitter.Lib
