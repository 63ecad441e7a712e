import TreeSitter.Lib.Lexer
import TreeSitter.Lib.LossyUtf8

/-!
# TreeSitter.Lib.Utf8Valid

`core::str::from_utf8` read one **byte at a time**. The state is what has to follow inside of a
character; the bytes are text if there is nothing left to follow. A byte of ASCII is never inside
of a character (`utf8Run_ascii`), so text can be cut there, and more ASCII can be put there. All
that `LossyUtf8` yields is text (`LossyUtf8.lossyBytes_valid`). `ts_decode_utf8`, which looks bytes
up in tables, takes the same bytes for text (`utf8Error_decodes`).
-/

namespace TreeSitter.Lib

open List

/-- The bytes that have to follow inside of a character. -/
abbrev Utf8State := List (UInt8 → Bool)

/-- What has to follow the first byte of a character. -/
def utf8Lead (byte : UInt8) : Option Utf8State :=
  if byte < 0x80 then some []
  else if 0xC2 ≤ byte && byte ≤ 0xDF then some [isContinuation]
  else if 0xE0 ≤ byte && byte ≤ 0xEF then some [secondByteOk byte, isContinuation]
  else if 0xF0 ≤ byte && byte ≤ 0xF4 then
    some [secondByteOk byte, isContinuation, isContinuation]
  else none

def utf8Step : Utf8State → UInt8 → Option Utf8State
  | [], byte => utf8Lead byte
  | ok :: state, byte => if ok byte then some state else none

def utf8Run (state : Utf8State) (bytes : List UInt8) : Option Utf8State :=
  bytes.foldlM utf8Step state

@[simp] theorem utf8Run_nil (state : Utf8State) : utf8Run state [] = some state := rfl

@[simp] theorem utf8Run_cons (state : Utf8State) (byte : UInt8) (bytes : List UInt8) :
    utf8Run state (byte :: bytes) = (utf8Step state byte).bind (utf8Run · bytes) := rfl

theorem utf8Run_append (state : Utf8State) (bytes bytes' : List UInt8) :
    utf8Run state (bytes ++ bytes') = (utf8Run state bytes).bind (utf8Run · bytes') := by
  rw [utf8Run, foldlM_append]
  rfl

theorem utf8Step_nil (byte : UInt8) : utf8Step [] byte = utf8Lead byte := rfl

theorem utf8Step_cons (ok : UInt8 → Bool) (state : Utf8State) (byte : UInt8) :
    utf8Step (ok :: state) byte = if ok byte then some state else none := rfl

/-! ### The same bytes are accepted -/

theorem utf8ErrorFrom_eq_none_iff (valid : Nat) (bytes : List UInt8) :
    utf8ErrorFrom valid bytes = none ↔ utf8Run [] bytes = some [] := by
  fun_induction utf8ErrorFrom valid bytes
  all_goals
    try simp only [Bool.not_eq_true, Bool.not_eq_true'] at *
    simp only [utf8Run_cons, utf8Run_nil, utf8Step_nil, utf8Step_cons, utf8Lead, Option.bind_some,
      Option.bind_none, if_true, if_false, reduceCtorEq, Bool.false_eq_true, Option.some.injEq, *]

theorem utf8Error_eq_none_iff (bytes : List UInt8) :
    utf8Error bytes = none ↔ utf8Run [] bytes = some [] :=
  utf8ErrorFrom_eq_none_iff 0 bytes

/-- If the bytes in front are whole characters, the error is behind them. -/
theorem utf8Run_take_append {valid errorStart : Nat} {front rest : List UInt8}
    (hfront : utf8Run [] front = some [])
    (h : valid + front.length ≤ errorStart ∧
      utf8Run [] (rest.take (errorStart - (valid + front.length))) = some []) :
    valid ≤ errorStart ∧ utf8Run [] ((front ++ rest).take (errorStart - valid)) = some [] := by
  refine ⟨by omega, ?_⟩
  have htake : (front ++ rest).take (errorStart - valid) =
      front ++ rest.take (errorStart - (valid + front.length)) := by
    rw [take_append, take_of_length_le (by omega), Nat.sub_sub]
  rw [htake, utf8Run_append, hfront]
  exact h.2

theorem utf8Run_take_of_error {valid errorStart : Nat} {errorLen : Option Nat}
    {bytes : List UInt8} (h : utf8ErrorFrom valid bytes = some ⟨errorStart, errorLen⟩) :
    valid ≤ errorStart ∧ utf8Run [] (bytes.take (errorStart - valid)) = some [] := by
  fun_induction utf8ErrorFrom valid bytes
  case case2 first rest hfirst ih =>
    have hfront : utf8Run [] [first] = some [] := by simp [utf8Step_nil, utf8Lead, hfirst]
    exact utf8Run_take_append hfront (ih h)
  case case4 first hascii htwo second rest hsecond ih =>
    have hfront : utf8Run [] [first, second] = some [] := by
      simp [utf8Step_nil, utf8Step_cons, utf8Lead, hascii, htwo, hsecond]
    exact utf8Run_take_append hfront (ih h)
  case case10 first hascii htwo hthree second third rest hsecond hthird ih =>
    have hfront : utf8Run [] [first, second, third] = some [] := by
      rw [Bool.not_eq_true, Bool.not_eq_false'] at hsecond
      simp [utf8Step_nil, utf8Step_cons, utf8Lead, hascii, htwo, hthree, hsecond, hthird]
    exact utf8Run_take_append hfront (ih h)
  case case20 first hascii htwo hthree hfour second third fourth rest hsecond hthird hfourth ih =>
    have hfront : utf8Run [] [first, second, third, fourth] = some [] := by
      rw [Bool.not_eq_true, Bool.not_eq_false'] at hsecond hthird
      simp [utf8Step_nil, utf8Step_cons, utf8Lead, hascii, htwo, hthree, hfour, hsecond, hthird,
        hfourth]
    exact utf8Run_take_append hfront (ih h)
  all_goals
    -- the error is here, or there is none
    simp only [Option.some.injEq, Utf8Error.mk.injEq, reduceCtorEq] at h
    try
      obtain ⟨rfl, -⟩ := h
      simp only [Nat.sub_self, take_zero, utf8Run_nil, le_refl, and_self]

/-! ### What the lossy iterator yields -/

namespace LossyUtf8

theorem replacement_valid : utf8Run [] replacement = some [] := by decide

theorem next_valid {lossy lossy' : LossyUtf8} {piece : List UInt8}
    (h : lossy.next = some (piece, lossy')) : utf8Run [] piece = some [] := by
  rw [next] at h
  split at h
  next => cases h
  next =>
    split at h
    next =>
      cases h
      exact replacement_valid
    next =>
      split at h
      next herror =>
        cases h
        exact (utf8Error_eq_none_iff lossy.bytes).mp herror
      next herror =>
        split at h <;> cases h
        · exact (utf8Run_take_of_error herror).2
        · exact replacement_valid
      next => cases h

theorem collectFrom_valid (fuel : Nat) (lossy : LossyUtf8) :
    utf8Run [] (collectFrom fuel lossy).flatten = some [] := by
  induction fuel generalizing lossy with
  | zero => rfl
  | succ fuel ih =>
    rw [collectFrom]
    split
    next => rfl
    next piece lossy' hnext =>
      rw [flatten_cons, utf8Run_append, next_valid hnext]
      exact ih lossy'

theorem lossyBytes_valid (bytes : List UInt8) : utf8Run [] (lossyBytes bytes) = some [] :=
  collectFrom_valid _ _

end LossyUtf8

/-! ### ASCII is never inside of a character -/

/-- What has to follow is not ASCII. -/
def Utf8State.Inside (state : Utf8State) : Prop :=
  ∀ ok ∈ state, ∀ byte : UInt8, byte < 0x80 → ok byte = false

variable {byte : UInt8} {state state' : Utf8State}

theorem isContinuation_ascii (h : byte < 0x80) : isContinuation byte = false := by
  have hlt : ¬ 0x80 ≤ byte := UInt8.not_le.mpr h
  simp [isContinuation, hlt]

theorem secondByteOk_ascii (first : UInt8) (h : byte < 0x80) : secondByteOk first byte = false := by
  have hle (bound : UInt8) (hbound : 0x80 ≤ bound) : ¬ bound ≤ byte :=
    UInt8.not_le.mpr (UInt8.lt_of_lt_of_le h hbound)
  rw [secondByteOk]
  split_ifs
  · simp [hle 0xA0 (by decide)]
  · simp [hle 0x80 (by decide)]
  · simp [hle 0x90 (by decide)]
  · simp [hle 0x80 (by decide)]
  · exact isContinuation_ascii h

theorem utf8Step_inside (hstate : state.Inside)
    (h : utf8Step state byte = some state') : state'.Inside := by
  cases state with
  | nil =>
    have hcontinuation : ∀ byte : UInt8, byte < 0x80 → isContinuation byte = false :=
      fun _ => isContinuation_ascii
    have hsecond : ∀ byte' : UInt8, byte' < 0x80 → secondByteOk byte byte' = false :=
      fun _ => secondByteOk_ascii byte
    rw [utf8Step_nil, utf8Lead] at h
    split_ifs at h <;> cases h
    · exact fun _ hok => absurd hok not_mem_nil
    · simpa [Utf8State.Inside] using hcontinuation
    · simpa [Utf8State.Inside] using ⟨hsecond, hcontinuation⟩
    · simpa [Utf8State.Inside] using ⟨hsecond, hcontinuation⟩
  | cons ok state =>
    rw [utf8Step_cons] at h
    split_ifs at h
    cases h
    exact fun other hother => hstate other (mem_cons_of_mem _ hother)

theorem utf8Step_ascii (hstate : state.Inside)
    (hbyte : byte < 0x80) (h : utf8Step state byte = some state') : state = [] ∧ state' = [] := by
  cases state with
  | nil =>
    rw [utf8Step_nil, utf8Lead, if_pos hbyte] at h
    cases h
    exact ⟨rfl, rfl⟩
  | cons ok state =>
    rw [utf8Step_cons, hstate ok mem_cons_self byte hbyte] at h
    cases h

theorem utf8Run_ascii {bytes : List UInt8} (h : ∀ byte ∈ bytes, byte < 0x80) :
    utf8Run [] bytes = some [] := by
  induction bytes with
  | nil => rfl
  | cons byte bytes ih =>
    rw [utf8Run_cons, utf8Step_nil, utf8Lead, if_pos (h byte mem_cons_self)]
    exact ih fun other hother => h other (mem_cons_of_mem _ hother)

/-! ### The decoder of the core -/

theorem lead3_eq_zero_iff : ∀ c < 0x100, 0xe0 ≤ c → c < 0xf0 → ∀ t < 0x100,
    lead3T1Bits.getD (c &&& 0xf) 0 &&& 1 <<< (t >>> 5) = 0 ↔
      secondByteOk (.ofNat c) (.ofNat t) = false := by
  decide +kernel

theorem lead4_ne_zero_iff : ∀ c < 0x100, 0xf0 ≤ c → ∀ t < 0x100,
    c - 0xf0 ≤ 4 ∧ lead4T1Bits.getD (t >>> 4) 0 &&& 1 <<< (c - 0xf0) ≠ 0 ↔
      c ≤ 0xf4 ∧ secondByteOk (.ofNat c) (.ofNat t) = true := by
  decide +kernel

theorem trailBits_toNat (t : UInt8) :
    trailBits t.toNat = if isContinuation t then some (t.toNat - 0x80) else none := by
  simp [trailBits, isContinuation, UInt8.le_iff_toNat_le]

/-- The decoder errs where the validation does, and otherwise takes the character it takes. -/
theorem decodeUtf8_step (valid : Nat) (bytes : List UInt8) :
    match decodeUtf8 (bytes.map UInt8.toNat) with
    | none => bytes = []
    | some (size, code) => 0 < size ∧
      if code = decodeError then
        ∃ len, utf8ErrorFrom valid bytes = some ⟨valid, len⟩ ∧ len.getD bytes.length = size
      else size ≤ bytes.length ∧
        utf8ErrorFrom valid bytes = utf8ErrorFrom (valid + size) (bytes.drop size) := by
  have hcode (n : Nat) : ¬ (n : Int) = decodeError := by simp [decodeError]
  have hbit : ∀ c < 0x100, c &&& 0x80 = 0 ↔ c < 0x80 := by decide +kernel
  have hascii (c : UInt8) := hbit _ c.toNat_lt
  have hlead3 (c t : UInt8) (h : 0xe0 ≤ c.toNat) (h' : c.toNat < 0xf0) :=
    lead3_eq_zero_iff _ c.toNat_lt h h' _ t.toNat_lt
  have hlead4 (c t : UInt8) (h : 0xf0 ≤ c.toNat) := lead4_ne_zero_iff _ c.toNat_lt h _ t.toNat_lt
  simp only [UInt8.ofNat_toNat] at hlead3 hlead4
  -- a case for each branch of the validation
  fun_cases utf8ErrorFrom valid bytes
  case case1 => rfl
  case' case22 first rest _ _ _ _ => cases rest
  all_goals
    simp only [UInt8.le_iff_toNat_le, UInt8.lt_iff_toNat_lt, Bool.and_eq_true, decide_eq_true_eq,
      not_and, not_le, UInt8.reduceToNat, Bool.not_eq_true, Bool.not_eq_true', Bool.not_eq_false]
      at *
    simp (disch := omega) only [map_cons, map_nil, getElem?_cons_zero, getElem?_cons_succ,
      getElem?_nil, decodeUtf8, u8Lead, if_true, if_false, if_pos, if_neg, trailBits_toNat,
      Bool.false_eq_true, and_true, and_false, reduceCtorEq, Int.ofNat_eq_natCast, ite_self, *]
    simp

/-- The decoder gets to a place, each time called behind the character before. -/
inductive Decodes (bytes : List UInt8) : Nat → Prop
  | start : Decodes bytes 0
  | next {i size : Nat} {code : Int} : Decodes bytes i →
      decodeUtf8 ((bytes.drop i).map UInt8.toNat) = some (size, code) → code ≠ decodeError →
      Decodes bytes (i + size)

/-- The decoder gets to the error, and takes as many bytes for it. -/
def DecodesTo (bytes : List UInt8) : Option Utf8Error → Prop
  | none => Decodes bytes bytes.length
  | some ⟨i, len⟩ => Decodes bytes i ∧ decodeUtf8 ((bytes.drop i).map UInt8.toNat) =
      some (len.getD (bytes.length - i), decodeError)

theorem Decodes.decodesTo {bytes : List UInt8} {i : Nat} (hi : i ≤ bytes.length)
    (h : Decodes bytes i) : DecodesTo bytes (utf8ErrorFrom i (bytes.drop i)) := by
  have hstep := decodeUtf8_step i (bytes.drop i)
  split at hstep
  case h_1 =>
    obtain rfl : i = bytes.length := le_antisymm hi (by simpa using hstep)
    rwa [hstep]
  case h_2 size code hdecode =>
    obtain ⟨hpos, hstep⟩ := hstep
    rw [length_drop, drop_drop] at hstep
    split at hstep
    case isTrue hcode =>
      obtain ⟨len, hlen, rfl⟩ := hstep
      rw [hlen]
      exact ⟨h, hcode ▸ hdecode⟩
    case isFalse hcode =>
      obtain ⟨hle, hstep⟩ := hstep
      rw [hstep]
      exact decodesTo (by omega) (h.next hdecode hcode)
termination_by bytes.length - i

/-- **The decoder and the validation agree**: called behind one character after the other, one gets
to the first error of the other. -/
theorem utf8Error_decodes (bytes : List UInt8) : DecodesTo bytes (utf8Error bytes) :=
  Decodes.start.decodesTo bytes.length.zero_le

end TreeSitter.Lib
