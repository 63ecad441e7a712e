import TreeSitter.Library.Fallible
import TreeSitter.Library.Uleb128

/-!
# TreeSitter.Lib.WasmStore.DylinkInfo

The parser of the **`dylink.0` section** of a Wasm module. A module is a header and a row of
sections, each a byte for its kind, the length and so many bytes; the custom section of the name
`dylink.0` holds subsections of the same form, and the one of type 1 the four numbers that are
asked for.

The bytes come from outside, so every access is checked: `Fault` is what would stop the program,
or make it run on forever. No input leads to one (`dylinkInfoParse_noFault`).
-/

namespace TreeSitter.Lib.WasmStore

open List Library

/-- What must not happen: an index out of bounds, a difference below zero, a loop without end. -/
inductive Fault where
  | indexOutOfBounds
  | subtractWithOverflow
  | outOfFuel
deriving DecidableEq

/-- `WasmErrorKind` and the message, as far as the parser has them. -/
inductive WasmError where
  | parse (message : String)

/-- `DylinkInfo`. -/
structure DylinkInfo where
  memorySize : UInt32
  memoryAlign : UInt32
  tableSize : UInt32
  tableAlign : UInt32

/-- `&data[start..stop]`. -/
def slice (data : List UInt8) (start stop : Nat) : Except Fault (List UInt8) :=
  if start ≤ stop ∧ stop ≤ data.length then .ok ((data.take stop).drop start)
  else .error .indexOutOfBounds

/-- `a - b` on `usize`. -/
def checkedSub (a b : Nat) : Except Fault Nat :=
  if b ≤ a then .ok (a - b) else .error .subtractWithOverflow

/-! ### The reader -/

/-- `WasmReader`. -/
structure WasmReader where
  data : List UInt8
  offset : Nat
  size : Nat
deriving DecidableEq

namespace WasmReader

/-- `WasmReader::read_u8`, with the reader behind the byte. -/
def readU8 (reader : WasmReader) : Except Fault (Option (UInt8 × WasmReader)) :=
  if reader.size ≤ reader.offset then .ok none
  else
    match reader.data[reader.offset]? with
    | none => .error .indexOutOfBounds
    | some byte => .ok (some (byte, { reader with offset := reader.offset + 1 }))

/-- The loop of `read_uleb128`, for the shifts that are left. -/
def readUleb128From (value : UInt32) (reader : WasmReader) :
    List Nat → Except Fault (Option (UInt32 × WasmReader))
  | [] => .ok none
  | shift :: shifts => do
    match ← reader.readU8 with
    | none => .ok none
    | some (byte, reader) =>
      if shift = 28 ∧ byte &&& 0xF0 ≠ 0 then .ok none
      else
        let value := value ||| (byte &&& 0x7F).toUInt32 <<< UInt32.ofNat shift
        if byte &&& 0x80 = 0 then .ok (some (value, reader))
        else readUleb128From value reader shifts

/-- `WasmReader::read_uleb128`: the shifts are `(0..32).step_by(7)`. -/
def readUleb128 (reader : WasmReader) : Except Fault (Option (UInt32 × WasmReader)) :=
  readUleb128From 0 reader (List.range' 0 5 7)

end WasmReader

namespace WasmReader

/-- The reader stands inside of its part of the bytes. -/
structure Valid (reader : WasmReader) : Prop where
  offset_le : reader.offset ≤ reader.size
  size_le : reader.size ≤ reader.data.length

/-- The bytes that the reader may still read. -/
def rest (reader : WasmReader) : List UInt8 := (reader.data.take reader.size).drop reader.offset

/-- The reader behind the next bytes. -/
def advance (reader : WasmReader) (count : Nat) : WasmReader :=
  { reader with offset := reader.offset + count }

variable {reader : WasmReader}

theorem length_rest (h : reader.Valid) : reader.rest.length = reader.size - reader.offset := by
  rw [rest, length_drop, length_take, Nat.min_eq_left h.size_le]

theorem rest_advance (reader : WasmReader) (count : Nat) :
    (reader.advance count).rest = reader.rest.drop count := by
  rw [rest, rest, drop_drop]
  rfl

theorem advance_advance (reader : WasmReader) (first second : Nat) :
    (reader.advance first).advance second = reader.advance (first + second) := by
  simp only [advance, Nat.add_assoc]

theorem Valid.advance (h : reader.Valid) {count : Nat} (hcount : count ≤ reader.rest.length) :
    (reader.advance count).Valid := by
  rw [length_rest h] at hcount
  have hle := h.offset_le
  exact ⟨by rw [WasmReader.advance]; dsimp only; omega, h.size_le⟩

theorem readU8_eq (h : reader.Valid) :
    reader.readU8 = .ok (reader.rest.head?.map fun byte => (byte, reader.advance 1)) := by
  rw [readU8, rest, head?_drop]
  split
  next hle =>
    rw [getElem?_eq_none (by rw [length_take]; omega)]
    rfl
  next hlt =>
    have hbound := h.size_le
    rw [getElem?_take_of_lt (by omega), getElem?_eq_getElem (by omega)]
    rfl

/-! ### Numbers -/

theorem and_0xF0_ne_zero_iff (byte : UInt8) : byte &&& 0xF0 ≠ 0 ↔ 16 ≤ byte.toNat := by
  have h : ∀ n : Fin 256, UInt8.ofFin n &&& 0xF0 ≠ 0 ↔ 16 ≤ n.val := by decide +kernel
  exact h byte.toFin

theorem and_0x80_eq_zero_iff (byte : UInt8) : byte &&& 0x80 = 0 ↔ byte < 0x80 := by
  have h : ∀ n : Fin 256, UInt8.ofFin n &&& 0x80 = 0 ↔ UInt8.ofFin n < 0x80 := by decide +kernel
  exact h byte.toFin

theorem toNat_and_0x7F (byte : UInt8) : (byte &&& 0x7F).toNat = byte.toNat % 128 := by
  rw [UInt8.toNat_and]
  exact Nat.and_two_pow_sub_one_eq_mod _ 7

/-- The seven bits of a byte come on top of the value, and none of them is lost. -/
theorem toNat_or_shiftLeft {value : UInt32} {low : UInt8} {shift : Nat} (hshift : shift ≤ 28)
    (hvalue : value.toNat < 2 ^ shift) (hlow : low.toNat * 2 ^ shift < 2 ^ 32) :
    (value ||| low.toUInt32 <<< UInt32.ofNat shift).toNat =
      value.toNat + low.toNat * 2 ^ shift := by
  have hmod : (UInt32.ofNat shift).toNat % 32 = shift := by
    rw [UInt32.toNat_ofNat']
    omega
  rw [UInt32.toNat_or, UInt32.toNat_shiftLeft, hmod, UInt8.toNat_toUInt32, Nat.shiftLeft_eq,
    Nat.mod_eq_of_lt hlow, ← Nat.shiftLeft_eq, Nat.or_comm,
    ← Nat.shiftLeft_add_eq_or_of_lt hvalue, Nat.add_comm]

theorem toNat_mul_two_pow_lt {byte : UInt8} {start count : Nat}
    (hstart : start + 7 * (count + 1) = 35) (hsmall : ¬ (start = 28 ∧ 16 ≤ byte.toNat)) :
    (byte &&& 0x7F).toNat * 2 ^ start < 2 ^ 32 := by
  rw [toNat_and_0x7F]
  by_cases hlast : start = 28
  · have hlt : byte.toNat % 128 < 16 :=
      lt_of_le_of_lt (Nat.mod_le _ _) (Nat.not_le.mp fun h => hsmall ⟨hlast, h⟩)
    rw [hlast]
    exact Nat.mul_lt_mul_of_pos_right hlt (by norm_num)
  · calc byte.toNat % 128 * 2 ^ start
        ≤ 127 * 2 ^ 21 := Nat.mul_le_mul (Nat.le_of_lt_succ (Nat.mod_lt _ (by norm_num)))
          (Nat.pow_le_pow_right (by norm_num) (by omega))
      _ < 2 ^ 32 := by norm_num

theorem readUleb128From_cons (h : reader.Valid) {byte : UInt8} {tail : List UInt8}
    (hrest : reader.rest = byte :: tail) (value : UInt32) (shift : Nat) (shifts : List Nat) :
    readUleb128From value reader (shift :: shifts) =
      if shift = 28 ∧ 16 ≤ byte.toNat then .ok none
      else
        let value := value ||| (byte &&& 0x7F).toUInt32 <<< UInt32.ofNat shift
        if byte < 0x80 then .ok (some (value, reader.advance 1))
        else readUleb128From value (reader.advance 1) shifts := by
  rw [readUleb128From, readU8_eq h, hrest]
  simp only [head?_cons, Option.map_some, ok_bind, and_0xF0_ne_zero_iff, and_0x80_eq_zero_iff]

theorem readUleb128From_nil_rest (h : reader.Valid) (hrest : reader.rest = [])
    (value : UInt32) (shifts : List Nat) : readUleb128From value reader shifts = .ok none := by
  cases shifts with
  | nil => rfl
  | cons shift shifts =>
    rw [readUleb128From, readU8_eq h, hrest]
    rfl

/-- **The loop accepts the encodings that fit its rounds and the value.** -/
theorem readUleb128From_eq_some_iff (count : Nat) {start : Nat} {value v : UInt32}
    {reader reader' : WasmReader} (h : reader.Valid) (hstart : start + 7 * count = 35)
    (hvalue : value.toNat < 2 ^ start) :
    readUleb128From value reader (List.range' start count 7) = .ok (some (v, reader')) ↔
      ∃ enc n, enc <+: reader.rest ∧ ulebValue enc = some n ∧ enc.length ≤ count ∧
        v.toNat = value.toNat + n * 2 ^ start ∧ reader' = reader.advance enc.length := by
  induction count generalizing start value reader with
  | zero =>
    constructor
    · intro hread
      cases hread
    · rintro ⟨enc, n, -, henc, hlen, -⟩
      rw [eq_nil_of_length_eq_zero (Nat.le_zero.mp hlen)] at henc
      cases henc
  | succ count ih =>
    cases hrest : reader.rest with
    | nil =>
      rw [readUleb128From_nil_rest h hrest]
      constructor
      · intro hread
        cases hread
      · rintro ⟨enc, n, hprefix, henc, -⟩
        rw [prefix_nil.mp hprefix] at henc
        cases henc
    | cons byte tail =>
      rw [range'_succ, readUleb128From_cons h hrest]
      have hvalid : (reader.advance 1).Valid := h.advance (by rw [hrest]; simp)
      have htail : (reader.advance 1).rest = tail := by
        rw [rest_advance, hrest]
        rfl
      have hv := v.toNat_lt
      rw [exists_prefix_cons_iff]
      by_cases hlast : byte < 0x80
      · have hbyte : (byte &&& 0x7F).toNat = byte.toNat := by
          rw [toNat_and_0x7F]
          exact Nat.mod_eq_of_lt (UInt8.lt_iff_toNat_lt.mp hlast)
        simp only [hlast, true_and, not_true_eq_false, false_and, or_false, if_true,
          length_singleton, Nat.le_add_left]
        split
        next hbig =>
          -- the fifth byte is too large
          refine ⟨fun hread => (by cases hread), fun ⟨hval, _⟩ => ?_⟩
          rw [hbig.1] at hval
          omega
        next hsmall =>
          have hlow := toNat_mul_two_pow_lt hstart hsmall
          rw [Except.ok.injEq, Option.some.injEq, Prod.mk.injEq, ← UInt32.toNat_inj,
            toNat_or_shiftLeft (by omega) hvalue hlow, hbyte]
          exact ⟨fun h => ⟨h.1.symm, h.2.symm⟩, fun h => ⟨h.1.symm, h.2.symm⟩⟩
      · have hge : 128 ≤ byte.toNat := UInt8.le_iff_toNat_le.mp (UInt8.not_lt.mp hlast)
        have hbyte : (byte &&& 0x7F).toNat = byte.toNat - 128 := by
          rw [toNat_and_0x7F]
          have := byte.toNat_lt
          omega
        simp only [hlast, false_and, not_false_eq_true, true_and, false_or, if_false]
        split
        next hbig =>
          -- the fifth byte has its high bit set
          refine ⟨fun hread => (by cases hread), fun ⟨enc, n, _, henc, hlen, _⟩ => ?_⟩
          rw [length_cons] at hlen
          rw [eq_nil_of_length_eq_zero (l := enc) (by omega)] at henc
          cases henc
        next hsmall =>
          have hlow := toNat_mul_two_pow_lt hstart hsmall
          have hor := toNat_or_shiftLeft (by omega) hvalue hlow
          have hlt : value.toNat + (byte &&& 0x7F).toNat * 2 ^ start < 2 ^ (start + 7) := by
            rw [pow_add, toNat_and_0x7F]
            have hmod : byte.toNat % 128 * 2 ^ start ≤ 127 * 2 ^ start :=
              Nat.mul_le_mul_right _ (Nat.le_of_lt_succ (Nat.mod_lt _ (by norm_num)))
            omega
          rw [ih hvalid (by omega) (by rw [hor]; exact hlt), htail]
          refine exists_congr fun enc => exists_congr fun n => ?_
          rw [hor, hbyte, advance_advance, length_cons, Nat.add_le_add_iff_right,
            Nat.add_comm 1, pow_add]
          have hval : value.toNat + (byte.toNat - 128) * 2 ^ start + n * (2 ^ start * 2 ^ 7) =
              value.toNat + (byte.toNat - 128 + 128 * n) * 2 ^ start := by ring
          rw [hval]

theorem readUleb128From_noFault (h : reader.Valid) (value : UInt32) (shifts : List Nat) :
    ∃ result, readUleb128From value reader shifts = .ok result := by
  induction shifts generalizing value reader with
  | nil => exact ⟨_, rfl⟩
  | cons shift shifts ih =>
    cases hrest : reader.rest with
    | nil => exact ⟨_, readUleb128From_nil_rest h hrest _ _⟩
    | cons byte tail =>
      rw [readUleb128From_cons h hrest]
      dsimp only
      split
      · exact ⟨_, rfl⟩
      · split
        · exact ⟨_, rfl⟩
        · exact ih (h.advance (by rw [hrest]; simp)) _

/-- **`read_uleb128` accepts the encodings of five bytes at most of what 32 bits hold**, and goes
on behind the encoding. -/
theorem readUleb128_eq_some_iff {reader' : WasmReader} (h : reader.Valid) (value : UInt32) :
    reader.readUleb128 = .ok (some (value, reader')) ↔
      ∃ enc, enc <+: reader.rest ∧ Uleb32 enc value.toNat ∧
        reader' = reader.advance enc.length := by
  rw [readUleb128, readUleb128From_eq_some_iff 5 h rfl (by decide)]
  simp only [UInt32.toNat_zero, Nat.zero_add, pow_zero, Nat.mul_one]
  constructor
  · rintro ⟨enc, n, hprefix, henc, hlen, rfl, rfl⟩
    exact ⟨enc, hprefix, ⟨henc, hlen, value.toNat_lt⟩, rfl⟩
  · rintro ⟨enc, hprefix, henc, rfl⟩
    exact ⟨enc, _, hprefix, henc.value_eq, henc.length_le, rfl, rfl⟩

theorem readUleb128_noFault (h : reader.Valid) : ∃ result, reader.readUleb128 = .ok result :=
  readUleb128From_noFault h _ _

theorem readUleb128_append (h : reader.Valid) {enc tail : List UInt8} {value : Nat}
    (hrest : reader.rest = enc ++ tail) (henc : Uleb32 enc value) :
    reader.readUleb128 = .ok (some (UInt32.ofNat value, reader.advance enc.length)) := by
  rw [readUleb128_eq_some_iff h]
  refine ⟨enc, hrest ▸ prefix_append _ _, ?_, rfl⟩
  rw [UInt32.toNat_ofNat_of_lt' henc.lt]
  exact henc

end WasmReader

/-! ### The parser -/

def wasmMagicNumber : List UInt8 := [0, 0x61, 0x73, 0x6D]

def wasmVersion : List UInt8 := [1, 0, 0, 0]

def wasmCustomSection : UInt8 := 0

def wasmDylinkMemInfo : UInt8 := 1

/-- `b"dylink.0"`. -/
def dylinkName : List UInt8 := [0x64, 0x79, 0x6C, 0x69, 0x6E, 0x6B, 0x2E, 0x30]

def invalid : WasmError := .parse "failed to parse dylink section of Wasm module"

/-- `let Some(x) = read else { return Err(invalid()) }`. -/
def orInvalid {α β : Type} (read : Except Fault (Option α))
    (rest : α → Except Fault (Except WasmError β)) : Except Fault (Except WasmError β) := do
  match ← read with
  | none => .ok (.error invalid)
  | some a => rest a

/-- The four numbers, which have to fill the subsection. -/
def memInfo (subsectionEnd : Nat) (reader : WasmReader) :
    Except Fault (Except WasmError DylinkInfo) :=
  orInvalid reader.readUleb128 fun (memorySize, reader) =>
  orInvalid reader.readUleb128 fun (memoryAlign, reader) =>
  orInvalid reader.readUleb128 fun (tableSize, reader) =>
  orInvalid reader.readUleb128 fun (tableAlign, reader) =>
    if reader.offset ≠ subsectionEnd then .ok (.error invalid)
    else .ok (.ok ⟨memorySize, memoryAlign, tableSize, tableAlign⟩)

/-- The loop over the subsections; `none` if none of them has the numbers. -/
def subsections (sectionEnd : Nat) :
    Nat → WasmReader → Except Fault (Except WasmError (Option DylinkInfo))
  | 0, _ => .error .outOfFuel
  | fuel + 1, reader =>
    if sectionEnd ≤ reader.offset then .ok (.ok none)
    else
      orInvalid reader.readU8 fun (subsectionType, reader) =>
      orInvalid reader.readUleb128 fun (subsectionSize, reader) => do
        let left ← checkedSub sectionEnd reader.offset
        if left < subsectionSize.toNat then .ok (.error invalid)
        else
          let subsectionEnd := reader.offset + subsectionSize.toNat
          if subsectionType = wasmDylinkMemInfo then do
            let info ← memInfo subsectionEnd { reader with size := subsectionEnd }
            .ok (info.map some)
          else subsections sectionEnd fuel { reader with offset := subsectionEnd }

/-- A custom section, up to its end; the reader's `size` is set to it. -/
def customSection (sectionEnd : Nat) (reader : WasmReader) :
    Except Fault (Except WasmError (Option DylinkInfo)) :=
  orInvalid reader.readUleb128 fun (nameLength, reader) => do
    let left ← checkedSub reader.size reader.offset
    if left < nameLength.toNat then .ok (.error invalid)
    else
      let nameEnd := reader.offset + nameLength.toNat
      if nameLength = 8 then do
        let name ← slice reader.data reader.offset nameEnd
        if name = dylinkName then
          subsections sectionEnd (reader.data.length + 1) { reader with offset := nameEnd }
        else .ok (.ok none)
      else .ok (.ok none)

/-- The loop over the sections. -/
def sections : Nat → WasmReader → Except Fault (Except WasmError DylinkInfo)
  | 0, _ => .error .outOfFuel
  | fuel + 1, reader =>
    if reader.size ≤ reader.offset then .ok (.error invalid)
    else
      orInvalid reader.readU8 fun (sectionId, reader) =>
      orInvalid reader.readUleb128 fun (sectionLength, reader) => do
        let left ← checkedSub reader.size reader.offset
        if left < sectionLength.toNat then .ok (.error invalid)
        else
          let sectionEnd := reader.offset + sectionLength.toNat
          if sectionId = wasmCustomSection then do
            match ← customSection sectionEnd { reader with size := sectionEnd } with
            | .error error => .ok (.error error)
            | .ok (some info) => .ok (.ok info)
            | .ok none => sections fuel { reader with offset := sectionEnd }
          else sections fuel { reader with offset := sectionEnd }

/-- `dylink_info_parse`. -/
def dylinkInfoParse (bytes : List UInt8) : Except Fault (Except WasmError DylinkInfo) :=
  if bytes.length < 8 then .ok (.error invalid)
  else do
    if (← slice bytes 0 4) ≠ wasmMagicNumber then .ok (.error invalid)
    else if (← slice bytes 4 8) ≠ wasmVersion then .ok (.error invalid)
    else sections (bytes.length + 1) ⟨bytes, 8, bytes.length⟩

/-! ### Nothing is read outside of the bytes -/

/-- The call comes back, with a result or with an error of the parser. -/
def NoFault {α : Type} (call : Except Fault α) : Prop := ∃ result, call = .ok result

theorem noFault_ok {α : Type} (result : α) : NoFault (.ok result) := ⟨result, rfl⟩

theorem noFault_bind {α β : Type} {call : Except Fault α} {next : α → Except Fault β}
    (h : NoFault call) (hnext : ∀ result, call = .ok result → NoFault (next result)) :
    NoFault (call >>= next) := by
  obtain ⟨result, hresult⟩ := h
  rw [hresult, ok_bind]
  exact hnext result hresult

theorem noFault_orInvalid {α β : Type} {read : Except Fault (Option α)}
    {next : α → Except Fault (Except WasmError β)} (h : NoFault read)
    (hnext : ∀ a, read = .ok (some a) → NoFault (next a)) : NoFault (orInvalid read next) := by
  refine noFault_bind h fun result hresult => ?_
  cases result with
  | none => exact noFault_ok _
  | some a => exact hnext a hresult

theorem noFault_checkedSub {a b : Nat} (h : b ≤ a) : NoFault (checkedSub a b) :=
  ⟨a - b, if_pos h⟩

theorem checkedSub_eq {a b left : Nat} (h : checkedSub a b = .ok left) : b ≤ a ∧ left = a - b := by
  rw [checkedSub] at h
  split at h
  next hle =>
    cases h
    exact ⟨hle, rfl⟩
  next => cases h

/-- A reader that came from another one by reading. -/
structure WasmReader.Reads (reader reader' : WasmReader) : Prop where
  valid : reader'.Valid
  lt : reader.offset < reader'.offset
  size_eq : reader'.size = reader.size
  data_eq : reader'.data = reader.data

namespace WasmReader

variable {reader reader' : WasmReader}

theorem reads_advance (h : reader.Valid) {count : Nat} (hpos : 0 < count)
    (hcount : count ≤ reader.rest.length) : reader.Reads (reader.advance count) :=
  ⟨h.advance hcount, Nat.lt_add_of_pos_right hpos, rfl, rfl⟩

theorem reads_readU8 (h : reader.Valid) {byte : UInt8}
    (hread : reader.readU8 = .ok (some (byte, reader'))) : reader.Reads reader' := by
  rw [readU8_eq h, Except.ok.injEq, Option.map_eq_some_iff] at hread
  obtain ⟨first, hfirst, heq⟩ := hread
  cases heq
  refine reads_advance h Nat.one_pos (length_pos_iff.mpr ?_)
  rintro hnil
  rw [hnil] at hfirst
  cases hfirst

theorem noFault_readU8 (h : reader.Valid) : NoFault reader.readU8 := ⟨_, readU8_eq h⟩

theorem reads_readUleb128 (h : reader.Valid) {value : UInt32}
    (hread : reader.readUleb128 = .ok (some (value, reader'))) : reader.Reads reader' := by
  obtain ⟨enc, hprefix, henc, rfl⟩ := (readUleb128_eq_some_iff h value).mp hread
  exact reads_advance h henc.length_pos hprefix.length_le

theorem noFault_readUleb128 (h : reader.Valid) : NoFault reader.readUleb128 :=
  readUleb128_noFault h

end WasmReader

open WasmReader

variable {reader : WasmReader}

theorem memInfo_noFault (h : reader.Valid) (subsectionEnd : Nat) :
    NoFault (memInfo subsectionEnd reader) := by
  refine noFault_orInvalid (noFault_readUleb128 h) fun memorySize hsize => ?_
  have h₁ := (reads_readUleb128 h hsize).valid
  refine noFault_orInvalid (noFault_readUleb128 h₁) fun memoryAlign halign => ?_
  have h₂ := (reads_readUleb128 h₁ halign).valid
  refine noFault_orInvalid (noFault_readUleb128 h₂) fun tableSize htable => ?_
  have h₃ := (reads_readUleb128 h₂ htable).valid
  refine noFault_orInvalid (noFault_readUleb128 h₃) fun tableAlign _ => ?_
  dsimp only
  split
  · exact noFault_ok _
  · exact noFault_ok _

theorem subsections_noFault {sectionEnd fuel : Nat} (h : reader.Valid)
    (hsize : reader.size = sectionEnd) (hfuel : sectionEnd - reader.offset < fuel) :
    NoFault (subsections sectionEnd fuel reader) := by
  induction fuel generalizing reader with
  | zero => omega
  | succ fuel ih =>
    rw [subsections]
    split
    next => exact noFault_ok _
    next hlt =>
      refine noFault_orInvalid (noFault_readU8 h) fun kind hkind => ?_
      have h₁ := reads_readU8 h hkind
      refine noFault_orInvalid (noFault_readUleb128 h₁.valid) fun length hlength => ?_
      have h₂ := reads_readUleb128 h₁.valid hlength
      have hoffset : length.2.offset ≤ sectionEnd := by
        rw [← hsize, ← h₁.size_eq, ← h₂.size_eq]
        exact h₂.valid.offset_le
      refine noFault_bind (noFault_checkedSub hoffset) fun left hleft => ?_
      obtain ⟨-, rfl⟩ := checkedSub_eq hleft
      dsimp only
      split
      next => exact noFault_ok _
      next hfits =>
        have hend : length.2.offset + length.1.toNat ≤ sectionEnd := by omega
        have hmoved : reader.offset < length.2.offset := lt_trans h₁.lt h₂.lt
        have hlast : sectionEnd ≤ length.2.data.length := by
          rw [← hsize, h₂.data_eq, h₁.data_eq]
          exact h.size_le
        split
        next =>
          refine noFault_bind (memInfo_noFault ⟨Nat.le_add_right _ _, ?_⟩ _) fun info _ =>
            noFault_ok _
          exact hend.trans hlast
        next =>
          have hsize₂ : length.2.size = sectionEnd := by rw [h₂.size_eq, h₁.size_eq, hsize]
          refine ih ⟨?_, h₂.valid.size_le⟩ hsize₂ ?_
          · rw [hsize₂]
            exact hend
          · dsimp only
            omega

theorem customSection_noFault {sectionEnd : Nat} (h : reader.Valid)
    (hsize : reader.size = sectionEnd) : NoFault (customSection sectionEnd reader) := by
  refine noFault_orInvalid (noFault_readUleb128 h) fun length hlength => ?_
  have h₁ := reads_readUleb128 h hlength
  refine noFault_bind (noFault_checkedSub h₁.valid.offset_le) fun left hleft => ?_
  obtain ⟨hle, rfl⟩ := checkedSub_eq hleft
  dsimp only
  split
  next => exact noFault_ok _
  next hfits =>
    have hend : length.2.offset + length.1.toNat ≤ length.2.size := by omega
    have hbound := h₁.valid.size_le
    split
    next =>
      refine noFault_bind ⟨_, if_pos ⟨Nat.le_add_right _ _, by omega⟩⟩ fun name _ => ?_
      split
      next =>
        have hsize₁ : length.2.size = sectionEnd := by rw [h₁.size_eq, hsize]
        refine subsections_noFault ⟨hend, hbound⟩ hsize₁ ?_
        dsimp only
        omega
      next => exact noFault_ok _
    next => exact noFault_ok _

theorem sections_noFault {fuel : Nat} (h : reader.Valid)
    (hfuel : reader.size - reader.offset < fuel) : NoFault (sections fuel reader) := by
  induction fuel generalizing reader with
  | zero => omega
  | succ fuel ih =>
    rw [sections]
    split
    next => exact noFault_ok _
    next hlt =>
      refine noFault_orInvalid (noFault_readU8 h) fun kind hkind => ?_
      have h₁ := reads_readU8 h hkind
      refine noFault_orInvalid (noFault_readUleb128 h₁.valid) fun length hlength => ?_
      have h₂ := reads_readUleb128 h₁.valid hlength
      refine noFault_bind (noFault_checkedSub h₂.valid.offset_le) fun left hleft => ?_
      obtain ⟨hle, rfl⟩ := checkedSub_eq hleft
      dsimp only
      split
      next => exact noFault_ok _
      next hfits =>
        have hend : length.2.offset + length.1.toNat ≤ length.2.size := by omega
        have hmoved : reader.offset < length.2.offset := lt_trans h₁.lt h₂.lt
        have hsize : length.2.size = reader.size := by rw [h₂.size_eq, h₁.size_eq]
        -- the next round starts behind the section
        have hnext : NoFault (sections fuel
            { length.2 with offset := length.2.offset + length.1.toNat }) := by
          refine ih ⟨hend, h₂.valid.size_le⟩ ?_
          dsimp only
          omega
        split
        next =>
          refine noFault_bind (customSection_noFault
            ⟨Nat.le_add_right _ _, hend.trans h₂.valid.size_le⟩ rfl) fun result _ => ?_
          rcases result with error | none | info
          · exact noFault_ok _
          · exact hnext
          · exact noFault_ok _
        next => exact hnext

/-- **For every byte string the parser comes back**, without a read outside of the string. -/
theorem dylinkInfoParse_noFault (bytes : List UInt8) : NoFault (dylinkInfoParse bytes) := by
  rw [dylinkInfoParse]
  split
  next => exact noFault_ok _
  next hlen =>
    refine noFault_bind ⟨_, if_pos ⟨by omega, by omega⟩⟩ fun magic _ => ?_
    split
    next => exact noFault_ok _
    next =>
      refine noFault_bind ⟨_, if_pos ⟨by omega, by omega⟩⟩ fun version _ => ?_
      split
      next => exact noFault_ok _
      next =>
        refine sections_noFault ⟨by dsimp only; omega, le_refl _⟩ ?_
        dsimp only
        omega

end TreeSitter.Lib.WasmStore
