import TreeSitter.Lib.Length

/-!
# TreeSitter.Lib.Lexer

The **lexer** of `lexer.c`, which walks over the included ranges of the input one character at a
time, and the decoders of `unicode.h` that it calls.

* `Lexer.doAdvance` moves to the next character, into the next range and to the next chunk of the
  input where it has to;
* `Lexer.advance` does the same for a byte of ASCII after another one in the same chunk, without
  the checks, and calls `doAdvance` otherwise.

`Lexer.Ok` is what makes the two agree: it holds in every state the lexer's functions lead to, and
`Lexer.Reachable.advance_eq` says that a lexer with a chunk advances as `doAdvance` does.

An access outside of an array is `none`. The callback that reads the input may answer differently
each time: it is given the number of earlier calls. Log messages are left out.
-/

namespace TreeSitter.Lib

open Option List

theorem addU32_lt (a b : Nat) : addU32 a b < 2 ^ 32 := Nat.mod_lt _ (by decide)

/-! ### Decoding -/

/-- `TS_DECODE_ERROR`. -/
def decodeError : Int := -1

/-- `U8_LEAD3_T1_BITS`. -/
def lead3T1Bits : List Nat :=
  [0x20, 0x30, 0x30, 0x30, 0x30, 0x30, 0x30, 0x30, 0x30, 0x30, 0x30, 0x30, 0x30, 0x10, 0x30, 0x30]

/-- `U8_LEAD4_T1_BITS`. -/
def lead4T1Bits : List Nat :=
  [0x00, 0x00, 0x00, 0x00, 0x00, 0x00, 0x00, 0x00, 0x1E, 0x0F, 0x0F, 0x0F, 0x00, 0x00, 0x00, 0x00]

/-- The payload of a trail byte: `(__t = s[i] - 0x80) <= 0x3f`. -/
def trailBits (t : Nat) : Option Nat := if 0x80 ≤ t ∧ t ≤ 0xbf then some (t - 0x80) else none

/-- The trail bytes of `U8_INTERNAL_NEXT_OR_SUB` but the last one: the offset reached, and the
bits so far unless the sequence is ill-formed. `c` is a lead byte, and the offset is 1. -/
def u8Lead (s : List Nat) (c : Nat) : Nat × Option Nat :=
  match s[1]? with
  | none => (1, none)
  | some t =>
    if c ≥ 0xe0 then
      if c < 0xf0 then
        if (lead3T1Bits.getD (c &&& 0xf) 0) &&& (1 <<< (t >>> 5)) = 0 then (1, none)
        else (2, some (((c &&& 0xf) <<< 6) ||| (t &&& 0x3f)))
      else if c - 0xf0 ≤ 4 ∧ (lead4T1Bits.getD (t >>> 4) 0) &&& (1 <<< (c - 0xf0)) ≠ 0 then
        match s[2]? with
        | none => (2, none)
        | some t' =>
          match trailBits t' with
          | none => (2, none)
          | some bits => (3, some (((((c - 0xf0) <<< 6) ||| (t &&& 0x3f)) <<< 6) ||| bits))
      else (1, none)
    else if c ≥ 0xc2 then (1, some (c &&& 0x1f))
    else (1, none)

theorem u8Lead_pos (s : List Nat) (c : Nat) : 1 ≤ (u8Lead s c).1 := by
  unfold u8Lead
  repeat' split
  all_goals simp

/-- `ts_decode_utf8`: the bytes of the first character, and its code point. -/
def decodeUtf8 (s : List Nat) : Option (Nat × Int) :=
  match s[0]? with
  | none => none
  | some c =>
    if c &&& 0x80 = 0 then some (1, Int.ofNat c)
    else
      match u8Lead s c with
      | (i, none) => some (i, decodeError)
      | (i, some bits) =>
        match s[i]? with
        | none => some (i, decodeError)
        | some t =>
          match trailBits t with
          | none => some (i, decodeError)
          | some last => some (i + 1, ((bits <<< 6) ||| last : Nat))

/-- A code unit of UTF-16, at an offset in code units. -/
def u16At (littleEndian : Bool) (s : List Nat) (i : Nat) : Option Nat := do
  let a ← s[2 * i]?
  let b ← s[2 * i + 1]?
  return if littleEndian then a + 256 * b else 256 * a + b

/-- `ts_decode_utf16_le` and `ts_decode_utf16_be`. -/
def decodeUtf16 (littleEndian : Bool) (s : List Nat) : Option (Nat × Int) :=
  if s.length < 2 then some (s.length, decodeError)
  else do
    let c ← u16At littleEndian s 0
    if c &&& 0xfc00 = 0xd800 ∧ 1 ≠ s.length / 2 then
      let c2 ← u16At littleEndian s 1
      if c2 &&& 0xfc00 = 0xdc00 then
        some (4, ((c <<< 10) + c2 - ((0xd800 <<< 10) + 0xdc00 - 0x10000) : Nat))
      else some (2, Int.ofNat c)
    else some (2, Int.ofNat c)

/-- `TSInputEncoding`. -/
inductive TSInputEncoding where
  | utf8
  | utf16LE
  | utf16BE
  | custom
deriving DecidableEq

/-- A chunk that the input's callback hands out; its size is a `uint32_t`. -/
structure Chunk where
  bytes : List Nat
  isByte : ∀ b ∈ bytes, b < 256
  small : bytes.length < 2 ^ 32

/-- `TSInput`. -/
structure TSInput where
  encoding : TSInputEncoding
  /-- The number of earlier calls, the byte offset and the point. -/
  read : Nat → Nat → Point → Chunk
  decode : List Nat → Option (Nat × Int)

def TSInput.decoder (input : TSInput) : List Nat → Option (Nat × Int) :=
  match input.encoding with
  | .utf8 => decodeUtf8
  | .utf16LE => decodeUtf16 true
  | .utf16BE => decodeUtf16 false
  | .custom => input.decode

theorem decodeUtf8_size_one {s : List Nat} {code : Int} (hs : ∀ b ∈ s, b < 256)
    (h : decodeUtf8 s = some (1, code)) : code < 256 := by
  unfold decodeUtf8 at h
  split at h
  · cases h
  · rename_i c hc
    split at h
    · cases h
      have := hs c (mem_of_getElem? hc)
      simp only [Int.ofNat_eq_natCast]
      omega
    · have herr : decodeError < 256 := by decide
      have hpos := u8Lead_pos s c
      split at h
      · cases h
        exact herr
      · rename_i hlead
        rw [hlead] at hpos
        split at h
        · cases h
          exact herr
        · split at h
          · cases h
            exact herr
          · cases h
            exact absurd hpos (by simp)

/-! ### The lexer -/

/-- `BYTE_ORDER_MARK`. -/
def byteOrderMark : Int := 0xFEFF

/-- `ColumnData`. -/
structure ColumnData where
  value : Nat
  valid : Bool
deriving DecidableEq

/-- `LENGTH_UNDEFINED`. -/
def Length.undefined : Length := ⟨0, 0, 1⟩

/-- `length_is_undefined`. -/
def Length.isUndefined (l : Length) : Bool := l.bytes = 0 && l.extent.column ≠ 0

/-- `Lexer`. The number of included ranges and the size of the chunk are those of `includedRanges`
and `chunk`. -/
structure Lexer where
  lookahead : Int
  resultSymbol : Nat
  currentPosition : Length
  tokenStartPosition : Length
  tokenEndPosition : Length
  includedRanges : List TSRange
  chunk : Option Chunk
  input : TSInput
  currentIncludedRangeIndex : Nat
  chunkStart : Nat
  lookaheadSize : Nat
  didGetColumn : Bool
  columnData : ColumnData
  /-- The calls of `input.read` so far. -/
  reads : Nat

namespace Lexer

/-- `chunk_size`. -/
def chunkSize (self : Lexer) : Nat :=
  match self.chunk with
  | none => 0
  | some chunk => chunk.bytes.length

/-- `ts_lexer__set_column_data`. -/
def setColumnData (self : Lexer) (val : Nat) : Lexer := { self with columnData := ⟨val, true⟩ }

/-- `ts_lexer__increment_column_data`. -/
def incrementColumnData (self : Lexer) : Lexer :=
  if self.columnData.valid then
    { self with columnData.value := addU32 self.columnData.value 1 }
  else self

/-- `ts_lexer__invalidate_column_data`. -/
def invalidateColumnData (self : Lexer) : Lexer := { self with columnData := ⟨0, false⟩ }

/-- `ts_lexer__eof`. -/
def eof (self : Lexer) : Bool := self.currentIncludedRangeIndex = self.includedRanges.length

/-- `ts_lexer__clear_chunk`. -/
def clearChunk (self : Lexer) : Lexer := { self with chunk := none, chunkStart := 0 }

/-- `ts_lexer__get_chunk`. -/
def getChunk (self : Lexer) : Lexer :=
  let position := self.currentPosition
  let chunk := self.input.read self.reads position.bytes position.extent
  if chunk.bytes.length = 0 then
    { self with
      chunkStart := position.bytes, reads := self.reads + 1, chunk := none
      currentIncludedRangeIndex := self.includedRanges.length }
  else { self with chunkStart := position.bytes, reads := self.reads + 1, chunk := some chunk }

/-- The end of `ts_lexer__get_lookahead`: an ill-formed character is one byte. -/
def setDecoded (self : Lexer) (size : Nat) (code : Int) : Lexer :=
  { self with lookahead := code, lookaheadSize := if code = decodeError then 1 else size }

/-- `ts_lexer__get_lookahead`. -/
def getLookahead (self : Lexer) : Option Lexer :=
  let positionInChunk := subU32 self.currentPosition.bytes self.chunkStart
  let size := subU32 self.chunkSize positionInChunk
  if size = 0 then some { self with lookaheadSize := 1, lookahead := 0 }
  else
    match self.chunk with
    | none => none
    | some c => do
        let chunk := c.bytes.drop positionInChunk
        let first ← chunk[0]?
        if self.input.encoding = .utf8 ∧ first < 0x80 then
          some { self with lookahead := Int.ofNat first, lookaheadSize := 1 }
        else
          let (decodedSize, code) ← self.input.decoder chunk
          if code = decodeError ∧ size < 4 then
            -- The chunk may have ended in the middle of the character.
            let self := self.getChunk
            let (decodedSize, code) ← self.input.decoder ((self.chunk.map Chunk.bytes).getD [])
            some (self.setDecoded decodedSize code)
          else some (self.setDecoded decodedSize code)

/-- The range that `ts_lexer_goto` moves to, at its index. -/
def findIncludedRange (position : Nat) : List TSRange → Nat → Option (Nat × TSRange)
  | [], _ => none
  | range :: ranges, i =>
    if range.endByte > position ∧ range.endByte > range.startByte then some (i, range)
    else findIncludedRange position ranges (i + 1)

/-- Part of `ts_lexer_goto`: the chunk is cleared when the current position is outside of it. -/
def dropStaleChunk (self : Lexer) : Lexer :=
  if self.chunk.isSome ∧
      (self.currentPosition.bytes < self.chunkStart ∨
        self.currentPosition.bytes ≥ addU32 self.chunkStart self.chunkSize) then
    self.clearChunk
  else self

/-- `ts_lexer_goto`. -/
def goto (self : Lexer) (position : Length) : Option Lexer :=
  let self :=
    if position.bytes ≠ self.currentPosition.bytes then self.invalidateColumnData else self
  let self := { self with currentPosition := position }
  match findIncludedRange position.bytes self.includedRanges 0 with
  | some (i, range) =>
    let self :=
      if range.startByte ≥ position.bytes then
        { self with currentPosition := ⟨range.startByte, range.startPoint⟩ }
      else self
    let self := { self with currentIncludedRangeIndex := i }
    some { self.dropStaleChunk with lookaheadSize := 0, lookahead := 0 }
  | none => do
      let last ← self.includedRanges[self.includedRanges.length - 1]?
      let self := { self with
        currentIncludedRangeIndex := self.includedRanges.length
        currentPosition := ⟨last.endByte, last.endPoint⟩ }
      some { self.clearChunk with lookaheadSize := 1, lookahead := 0 }

/-- The first part of `ts_lexer__do_advance`, past the current character. -/
def passLookahead (self : Lexer) : Lexer :=
  if self.lookaheadSize ≠ 0 then
    let position := self.currentPosition
    let bytes := addU32 position.bytes self.lookaheadSize
    if self.lookahead = 10 then
      { self.setColumnData 0 with currentPosition := ⟨bytes, addU32 position.extent.row 1, 0⟩ }
    else
      let isBom : Bool := position.bytes = 0 && self.lookahead = byteOrderMark
      let self := if !isBom then self.incrementColumnData else self
      { self with
        currentPosition :=
          ⟨bytes, position.extent.row, addU32 position.extent.column self.lookaheadSize⟩ }
  else self

/-- The loop of `ts_lexer__do_advance` over the ranges from the current one on, and whether a
current range is left. -/
def enterRange (self : Lexer) : List TSRange → Lexer × Bool
  | [] => (self, false)
  | range :: ranges =>
    if self.currentPosition.bytes ≥ range.endByte ∨ range.endByte = range.startByte then
      let self := { self with currentIncludedRangeIndex := self.currentIncludedRangeIndex + 1 }
      match ranges with
      | [] => (self, false)
      | next :: rest =>
        enterRange { self with currentPosition := ⟨next.startByte, next.startPoint⟩ }
          (next :: rest)
    else (self, true)

/-- `ts_lexer__do_advance`. -/
def doAdvance (self : Lexer) (skip : Bool) : Option Lexer := do
  let self := self.passLookahead
  let _ ← self.includedRanges[self.currentIncludedRangeIndex]?
  let (self, inRange) :=
    self.enterRange (self.includedRanges.drop self.currentIncludedRangeIndex)
  let self := if skip then { self with tokenStartPosition := self.currentPosition } else self
  if inRange then
    if self.currentPosition.bytes < self.chunkStart ∨
        self.currentPosition.bytes ≥ addU32 self.chunkStart self.chunkSize then
      self.getChunk.getLookahead
    else self.getLookahead
  else some { self.clearChunk with lookahead := 0, lookaheadSize := 1 }

/-- The fast path of `ts_lexer__advance`, to a byte of the same chunk and range. -/
def advanceAscii (self : Lexer) (skip : Bool) (nextByte : Nat) : Lexer :=
  let self := self.incrementColumnData
  let position := self.currentPosition
  let self := { self with
    currentPosition :=
      ⟨addU32 position.bytes 1, position.extent.row, addU32 position.extent.column 1⟩ }
  let self := if skip then { self with tokenStartPosition := self.currentPosition } else self
  { self with lookahead := Int.ofNat nextByte }

/-- `ts_lexer__advance`. -/
def advance (self : Lexer) (skip : Bool) : Option Lexer :=
  match self.chunk with
  | none => some self
  | some chunk => do
      let nextPosition := addU32 self.currentPosition.bytes 1
      let range ← self.includedRanges[self.currentIncludedRangeIndex]?
      if self.input.encoding = .utf8 ∧ self.lookaheadSize = 1 ∧ self.lookahead ≠ 10 ∧
          nextPosition < range.endByte ∧
          nextPosition < addU32 self.chunkStart self.chunkSize then
        let nextByte ← chunk.bytes[subU32 nextPosition self.chunkStart]?
        if nextByte < 0x80 then some (self.advanceAscii skip nextByte)
        else self.doAdvance skip
      else self.doAdvance skip

/-- `ts_lexer__mark_end`. -/
def markEnd (self : Lexer) : Option Lexer :=
  if self.eof then some { self with tokenEndPosition := self.currentPosition }
  else do
    let range ← self.includedRanges[self.currentIncludedRangeIndex]?
    if self.currentIncludedRangeIndex > 0 ∧ self.currentPosition.bytes = range.startByte then
      let previous ← self.includedRanges[self.currentIncludedRangeIndex - 1]?
      some { self with tokenEndPosition := ⟨previous.endByte, previous.endPoint⟩ }
    else some { self with tokenEndPosition := self.currentPosition }

/-- The loop of `ts_lexer__get_column`; a custom decoder may keep it from ending. -/
def advanceTo (goalByte : Nat) : Nat → Lexer → Option Lexer
  | 0, _ => none
  | fuel + 1, self =>
    if self.currentPosition.bytes < goalByte ∧ !self.eof ∧ self.chunk.isSome then
      self.doAdvance false >>= advanceTo goalByte fuel
    else some self

/-- `ts_lexer__get_column`. -/
def getColumn (self : Lexer) (fuel : Nat) : Option (Lexer × Nat) := do
  let self := { self with didGetColumn := true }
  if self.columnData.valid then some (self, self.columnData.value)
  else
    let goalByte := self.currentPosition.bytes
    let extent := self.currentPosition.extent
    let self ← self.goto ⟨subU32 goalByte extent.column, extent.row, 0⟩
    let self := (self.setColumnData 0).getChunk
    if self.eof then some (self, self.columnData.value)
    else
      let self ← self.getLookahead
      let self ← advanceTo goalByte fuel self
      some (self, self.columnData.value)

/-- `ts_lexer__is_at_included_range_start`. -/
def isAtIncludedRangeStart (self : Lexer) : Bool :=
  match self.includedRanges[self.currentIncludedRangeIndex]? with
  | some range => self.currentPosition.bytes = range.startByte
  | none => false

/-- `DEFAULT_RANGE`. -/
def defaultRange : TSRange :=
  ⟨0, 2 ^ 32 - 1, ⟨0, 0⟩, ⟨2 ^ 32 - 1, 2 ^ 32 - 1⟩⟩

def rangesInOrder (previousByte : Nat) : List TSRange → Bool
  | [] => true
  | range :: ranges =>
    if range.startByte < previousByte ∨ range.endByte < range.startByte then false
    else rangesInOrder range.endByte ranges

/-- `ts_lexer_set_included_ranges`. -/
def setIncludedRanges (self : Lexer) (ranges : List TSRange) : Option (Lexer × Bool) := do
  if ranges.length = 0 then
    let self ← { self with includedRanges := [defaultRange] }.goto self.currentPosition
    some (self, true)
  else if rangesInOrder 0 ranges then
    let self ← { self with includedRanges := ranges }.goto self.currentPosition
    some (self, true)
  else some (self, false)

/-- `ts_lexer_init`, with the input that `ts_lexer_set_input` stores next. -/
def init (input : TSInput) : Option Lexer := do
  let self : Lexer := {
    lookahead := 0, resultSymbol := 0, currentPosition := .zero, tokenStartPosition := .zero
    tokenEndPosition := .zero, includedRanges := [], chunk := none, input
    currentIncludedRangeIndex := 0, chunkStart := 0, lookaheadSize := 0, didGetColumn := false
    columnData := ⟨0, false⟩, reads := 0 }
  let (self, _) ← self.setIncludedRanges []
  some self

/-- `ts_lexer_set_input`. -/
def setInput (self : Lexer) (input : TSInput) : Option Lexer :=
  { self with input }.clearChunk.goto self.currentPosition

/-- `ts_lexer_reset`. -/
def reset (self : Lexer) (position : Length) : Option Lexer :=
  if position.bytes ≠ self.currentPosition.bytes then self.goto position else some self

/-- `ts_lexer_start`. -/
def start (self : Lexer) : Option Lexer :=
  let self := { self with
    tokenStartPosition := self.currentPosition, tokenEndPosition := .undefined
    resultSymbol := 0, didGetColumn := false }
  if self.eof then some self
  else do
    let self := if self.chunkSize = 0 then self.getChunk else self
    let self ← (if self.lookaheadSize = 0 then self.getLookahead else some self)
    if self.currentPosition.bytes = 0 then
      let self ← (if self.lookahead = byteOrderMark then self.advance true else some self)
      some (self.setColumnData 0)
    else some self

/-- `ts_lexer_finish`, with the end of the lookahead so far. -/
def finish (self : Lexer) (lookaheadEndByte : Nat) : Option (Lexer × Nat) := do
  let self ← (if self.tokenEndPosition.isUndefined then self.markEnd else some self)
  let self :=
    if self.tokenEndPosition.bytes < self.tokenStartPosition.bytes then
      { self with tokenStartPosition := self.tokenEndPosition }
    else self
  let current := addU32 self.currentPosition.bytes 1
  let current := if self.lookahead = decodeError then addU32 current 4 else current
  some (self, if current > lookaheadEndByte then current else lookaheadEndByte)

/-! ### What holds of every lexer -/

/-- The current position is in the current range, which is not empty, and not before the chunk. -/
structure Placed (lexer : Lexer) : Prop where
  inRange : ∀ range, lexer.includedRanges[lexer.currentIncludedRangeIndex]? = some range →
    lexer.currentPosition.bytes < range.endByte ∧ range.endByte ≠ range.startByte
  small : ∀ range ∈ lexer.includedRanges, range.endByte < 2 ^ 32
  chunkStart_le : lexer.chunk.isSome → lexer.chunkStart ≤ lexer.currentPosition.bytes

/-- The invariant of the lexer: no character of one byte is the byte order mark in UTF-8. -/
structure Ok (lexer : Lexer) : Prop extends Placed lexer where
  notBom : lexer.input.encoding = .utf8 → lexer.lookaheadSize = 1 → lexer.lookahead ≠ byteOrderMark

variable {self self' : Lexer}

theorem getChunk_placed
    (hrange : ∀ range, self.includedRanges[self.currentIncludedRangeIndex]? = some range →
      self.currentPosition.bytes < range.endByte ∧ range.endByte ≠ range.startByte)
    (hsmall : ∀ range ∈ self.includedRanges, range.endByte < 2 ^ 32) : self.getChunk.Placed := by
  dsimp only [getChunk]
  split
  · exact ⟨by simp, hsmall, by simp⟩
  · exact ⟨hrange, hsmall, fun _ => le_rfl⟩

@[simp] theorem getChunk_input : self.getChunk.input = self.input := by
  dsimp only [getChunk]
  split <;> rfl

theorem getChunk_ok (h : self.Ok) : self.getChunk.Ok := by
  refine ⟨getChunk_placed h.inRange h.small, ?_⟩
  dsimp only [getChunk]
  split <;> exact h.notBom

theorem setDecoded_ok (h : self.Placed) {bytes : List Nat} (hbytes : ∀ b ∈ bytes, b < 256)
    {size : Nat} {code : Int} (hdecode : self.input.decoder bytes = some (size, code)) :
    (self.setDecoded size code).Ok := by
  refine ⟨⟨h.inRange, h.small, h.chunkStart_le⟩, fun hutf8 hsize => ?_⟩
  replace hutf8 : self.input.encoding = .utf8 := hutf8
  simp only [setDecoded] at hsize ⊢
  split at hsize
  · next hcode => rw [hcode]; decide
  · subst hsize
    rw [TSInput.decoder, hutf8] at hdecode
    have := decodeUtf8_size_one hbytes hdecode
    rw [byteOrderMark]
    omega

theorem getLookahead_ok (h : self.Placed) (hself : self.getLookahead = some self') :
    self'.Ok := by
  dsimp only [getLookahead] at hself
  split at hself
  · cases hself
    exact ⟨⟨h.inRange, h.small, h.chunkStart_le⟩, fun _ _ => by simp [byteOrderMark]⟩
  · split at hself
    · cases hself
    · rename_i hchunk
      obtain ⟨first, hfirst, hself⟩ := bind_eq_some_iff.mp hself
      split at hself
      · next hascii =>
        cases hself
        refine ⟨⟨h.inRange, h.small, h.chunkStart_le⟩, fun _ _ => ?_⟩
        simp only [Int.ofNat_eq_natCast, byteOrderMark]
        omega
      · obtain ⟨⟨size, code⟩, hdecode, hself⟩ := bind_eq_some_iff.mp hself
        simp only at hself
        split at hself
        · obtain ⟨⟨size', code'⟩, hdecode', hself⟩ := bind_eq_some_iff.mp hself
          cases hself
          refine setDecoded_ok (getChunk_placed h.inRange h.small) ?_ hdecode'
          cases hc : self.getChunk.chunk with
          | none => simp
          | some c => exact c.isByte
        · cases hself
          exact setDecoded_ok h (fun b hb => Chunk.isByte _ b (mem_of_mem_drop hb)) hdecode

variable {ranges : List TSRange} {range : TSRange}

theorem findIncludedRange_spec {position : Nat} {k i : Nat}
    (h : findIncludedRange position ranges k = some (i, range)) :
    k ≤ i ∧ ranges[i - k]? = some range ∧ position < range.endByte ∧
      range.startByte < range.endByte := by
  induction ranges generalizing k with
  | nil => cases h
  | cons r ranges ih =>
    rw [findIncludedRange] at h
    split at h
    · next hr =>
      cases h
      exact ⟨le_rfl, by simp, hr.1, hr.2⟩
    · obtain ⟨hle, hget, hrest⟩ := ih h
      refine ⟨by omega, ?_, hrest⟩
      rw [show i - k = (i - (k + 1)) + 1 by omega, getElem?_cons_succ]
      exact hget

theorem dropStaleChunk_ok
    (hrange : ∀ range, self.includedRanges[self.currentIncludedRangeIndex]? = some range →
      self.currentPosition.bytes < range.endByte ∧ range.endByte ≠ range.startByte)
    (hsmall : ∀ range ∈ self.includedRanges, range.endByte < 2 ^ 32) :
    { self.dropStaleChunk with lookaheadSize := 0, lookahead := 0 }.Ok := by
  unfold dropStaleChunk
  split
  · exact ⟨⟨hrange, hsmall, by simp [clearChunk]⟩, fun _ hsize => by simp at hsize⟩
  · next hchunk =>
    refine ⟨⟨hrange, hsmall, fun hsome => ?_⟩, fun _ hsize => by simp at hsize⟩
    by_contra hlt
    exact hchunk ⟨hsome, .inl (by simpa using hlt)⟩

theorem goto_ok (hsmall : ∀ range ∈ self.includedRanges, range.endByte < 2 ^ 32)
    {position : Length} (hself : self.goto position = some self') : self'.Ok := by
  have hranges : (if position.bytes ≠ self.currentPosition.bytes then self.invalidateColumnData
      else self).includedRanges = self.includedRanges := by
    split <;> rfl
  unfold goto at hself
  generalize (if position.bytes ≠ self.currentPosition.bytes then self.invalidateColumnData
      else self) = lexer at hself hranges
  rw [← hranges] at hsmall
  dsimp only at hself
  split at hself
  · rename_i i range hfind
    obtain ⟨-, hget, hlt, hne⟩ := findIncludedRange_spec hfind
    rw [Nat.sub_zero] at hget
    split at hself
    · cases hself
      refine dropStaleChunk_ok (fun r hr => ?_) hsmall
      rw [Option.some.inj (hr.symm.trans hget)]
      exact ⟨hne, hne.ne'⟩
    · cases hself
      refine dropStaleChunk_ok (fun r hr => ?_) hsmall
      rw [Option.some.inj (hr.symm.trans hget)]
      exact ⟨hlt, hne.ne'⟩
  · obtain ⟨last, -, hself⟩ := bind_eq_some_iff.mp hself
    cases hself
    exact ⟨⟨by simp [clearChunk], hsmall, by simp [clearChunk]⟩, fun _ _ => by simp [byteOrderMark]⟩

/-- The lexer is now in a range that has text at the current position, or after all ranges. -/
structure EntersRange (lexer : Lexer) (result : Lexer × Bool) : Prop where
  ranges : result.1.includedRanges = lexer.includedRanges
  inRange : result.2 = true → ∀ range,
    result.1.includedRanges[result.1.currentIncludedRangeIndex]? = some range →
      result.1.currentPosition.bytes < range.endByte ∧ range.endByte ≠ range.startByte
  afterAll : result.2 = false → result.1.includedRanges[result.1.currentIncludedRangeIndex]? = none

theorem enterRange_spec
    (hranges : self.includedRanges.drop self.currentIncludedRangeIndex = ranges) :
    EntersRange self (self.enterRange ranges) := by
  induction ranges generalizing self with
  | nil =>
    rw [enterRange]
    refine ⟨rfl, by simp, fun _ => ?_⟩
    rw [getElem?_eq_none_iff]
    exact drop_eq_nil_iff.mp hranges
  | cons range ranges ih =>
    have hget : self.includedRanges[self.currentIncludedRangeIndex]? = some range := by
      rw [← head?_drop, hranges]
      rfl
    have hrest : self.includedRanges.drop (self.currentIncludedRangeIndex + 1) = ranges := by
      rw [← tail_drop, hranges]
      rfl
    rw [enterRange]
    split
    · cases ranges with
      | nil =>
        refine ⟨rfl, by simp, fun _ => ?_⟩
        rw [getElem?_eq_none_iff]
        exact drop_eq_nil_iff.mp hrest
      | cons next rest =>
        have hnext := @ih { self with
          currentIncludedRangeIndex := self.currentIncludedRangeIndex + 1
          currentPosition := ⟨next.startByte, next.startPoint⟩ } hrest
        exact ⟨hnext.ranges, hnext.inRange, hnext.afterAll⟩
    · next hcond =>
      refine ⟨rfl, fun _ r hr => ?_, by simp⟩
      rw [Option.some.inj (hr.symm.trans hget)]
      push Not at hcond
      exact hcond

theorem incrementColumnData_eq (self : Lexer) :
    ∃ c, self.incrementColumnData = { self with columnData := c } := by
  unfold incrementColumnData
  split
  · exact ⟨_, rfl⟩
  · exact ⟨self.columnData, rfl⟩

@[simp] theorem incrementColumnData_includedRanges :
    self.incrementColumnData.includedRanges = self.includedRanges := by
  unfold incrementColumnData
  split <;> rfl

@[simp] theorem passLookahead_includedRanges :
    self.passLookahead.includedRanges = self.includedRanges := by
  unfold passLookahead
  split
  · dsimp only
    split
    · rfl
    · split <;> simp
  · rfl

@[simp] theorem passLookahead_index :
    self.passLookahead.currentIncludedRangeIndex = self.currentIncludedRangeIndex := by
  obtain ⟨c, hc⟩ := self.incrementColumnData_eq
  unfold passLookahead
  split
  · dsimp only
    split
    · rfl
    · rw [hc]
      split <;> rfl
  · rfl

theorem getLookahead_ok_of_enter
    (hrange : ∀ range, self.includedRanges[self.currentIncludedRangeIndex]? = some range →
      self.currentPosition.bytes < range.endByte ∧ range.endByte ≠ range.startByte)
    (hsmall : ∀ range ∈ self.includedRanges, range.endByte < 2 ^ 32)
    (hself : (if self.currentPosition.bytes < self.chunkStart ∨
        self.currentPosition.bytes ≥ addU32 self.chunkStart self.chunkSize then
      self.getChunk.getLookahead else self.getLookahead) = some self') : self'.Ok := by
  split at hself
  · exact getLookahead_ok (getChunk_placed hrange hsmall) hself
  · next hchunk =>
    push Not at hchunk
    exact getLookahead_ok ⟨hrange, hsmall, fun _ => hchunk.1⟩ hself

theorem doAdvance_ok (hsmall : ∀ range ∈ self.includedRanges, range.endByte < 2 ^ 32)
    {skip : Bool} (hself : self.doAdvance skip = some self') : self'.Ok := by
  obtain ⟨-, -, hself⟩ := bind_eq_some_iff.mp hself
  have henter : EntersRange self.passLookahead (self.passLookahead.enterRange _) :=
    enterRange_spec rfl
  rw [← passLookahead_includedRanges] at hsmall
  generalize self.passLookahead.enterRange _ = result at hself henter
  obtain ⟨lexer, inRange⟩ := result
  rw [← henter.ranges] at hsmall
  cases inRange with
  | true =>
    have hrange := henter.inRange rfl
    cases skip with
    | true => exact @getLookahead_ok_of_enter { lexer with
        tokenStartPosition := lexer.currentPosition } _ hrange hsmall hself
    | false => exact getLookahead_ok_of_enter hrange hsmall hself
  | false =>
    have hnone := henter.afterAll rfl
    simp only at hnone
    cases skip <;> cases hself <;>
      exact ⟨⟨by simp [clearChunk, hnone], hsmall, by simp [clearChunk]⟩,
        fun _ _ => by simp [byteOrderMark]⟩

/-! ### The fast path -/

variable {chunk : Chunk}

theorem getLookahead_ascii {k b : Nat} (hutf8 : self.input.encoding = .utf8)
    (hchunk : self.chunk = some chunk)
    (hk : subU32 self.currentPosition.bytes self.chunkStart = k) (hb : chunk.bytes[k]? = some b)
    (hascii : b < 0x80) :
    self.getLookahead = some { self with lookahead := Int.ofNat b, lookaheadSize := 1 } := by
  have hlt : k < chunk.bytes.length := (List.getElem?_eq_some_iff.mp hb).1
  have hsize : subU32 self.chunkSize k ≠ 0 := by
    have := chunk.small
    rw [chunkSize, hchunk, subU32_of_le hlt.le]
    omega
  dsimp only [getLookahead]
  rw [hk, if_neg hsize, hchunk]
  simp [hb, hutf8, hascii]

theorem enterRange_here (hlt : self.currentPosition.bytes < range.endByte)
    (hne : range.endByte ≠ range.startByte) :
    self.enterRange (range :: ranges) = (self, true) := by
  rw [enterRange, if_neg]
  push Not
  exact ⟨hlt, hne⟩

theorem Ok.chunkStart_le_next (h : self.Ok) (hchunk : self.chunk = some chunk)
    (hrange : self.includedRanges[self.currentIncludedRangeIndex]? = some range) :
    self.chunkStart ≤ addU32 self.currentPosition.bytes 1 := by
  have hstart := h.chunkStart_le (by simp [hchunk])
  have hlt := (h.inRange range hrange).1
  have hsmall := h.small range (mem_of_getElem? hrange)
  rw [addU32_of_lt (by omega)]
  omega

theorem Ok.nextByte_ne_none (h : self.Ok) (hchunk : self.chunk = some chunk)
    (hrange : self.includedRanges[self.currentIncludedRangeIndex]? = some range)
    (hin : addU32 self.currentPosition.bytes 1 < addU32 self.chunkStart self.chunkSize) :
    chunk.bytes[subU32 (addU32 self.currentPosition.bytes 1) self.chunkStart]? ≠ none := by
  have hle := h.chunkStart_le_next hchunk hrange
  have hwrap : addU32 self.chunkStart self.chunkSize ≤ self.chunkStart + self.chunkSize :=
    Nat.mod_le _ _
  have hsize : self.chunkSize = chunk.bytes.length := by rw [chunkSize, hchunk]
  rw [subU32_of_le hle, Ne, getElem?_eq_none_iff]
  omega

theorem doAdvance_ascii (h : self.Ok) (hchunk : self.chunk = some chunk)
    (hrange : self.includedRanges[self.currentIncludedRangeIndex]? = some range)
    (hutf8 : self.input.encoding = .utf8) (hsize : self.lookaheadSize = 1)
    (hnewline : self.lookahead ≠ 10) (hend : addU32 self.currentPosition.bytes 1 < range.endByte)
    (hin : addU32 self.currentPosition.bytes 1 < addU32 self.chunkStart self.chunkSize) {b : Nat}
    (hascii : b < 0x80)
    (hb : chunk.bytes[subU32 (addU32 self.currentPosition.bytes 1) self.chunkStart]? = some b)
    (skip : Bool) : self.doAdvance skip = some (self.advanceAscii skip b) := by
  obtain ⟨c, hc⟩ := self.incrementColumnData_eq
  have hbom : (decide (self.currentPosition.bytes = 0) && decide (self.lookahead = byteOrderMark))
      = false := by
    simp [h.notBom hutf8 hsize]
  have hpass : self.passLookahead = { self with
      columnData := c
      currentPosition := ⟨addU32 self.currentPosition.bytes 1, self.currentPosition.extent.row,
        addU32 self.currentPosition.extent.column 1⟩ } := by
    rw [passLookahead, if_pos (by omega)]
    dsimp only
    rw [if_neg hnewline, hbom, Bool.not_false, if_pos rfl, hc, hsize]
  have hdrop : ∃ rest, self.includedRanges.drop self.currentIncludedRangeIndex = range :: rest := by
    obtain ⟨hlt, rfl⟩ := List.getElem?_eq_some_iff.mp hrange
    exact ⟨_, List.drop_eq_getElem_cons hlt⟩
  obtain ⟨rest, hdrop⟩ := hdrop
  have hle := h.chunkStart_le_next hchunk hrange
  have hin' : ¬ (addU32 self.currentPosition.bytes 1 < self.chunkStart ∨
      addU32 self.currentPosition.bytes 1 ≥ addU32 self.chunkStart self.chunkSize) := by
    omega
  unfold doAdvance
  rw [hpass]
  dsimp only
  rw [hrange, hdrop, enterRange_here hend (h.inRange range hrange).2]
  -- The rest of the two computations differs only in the start of the token.
  cases skip with
  | true | false =>
    refine Eq.trans (if_neg hin') ?_
    refine Eq.trans (getLookahead_ascii hutf8 hchunk rfl hb hascii) ?_
    simp [advanceAscii, hc, hsize]

theorem doAdvance_eq_none (h : self.includedRanges[self.currentIncludedRangeIndex]? = none)
    (skip : Bool) : self.doAdvance skip = none := by
  dsimp only [doAdvance]
  rw [passLookahead_includedRanges, passLookahead_index, h]
  rfl

theorem advance_eq_doAdvance (h : self.Ok) (hchunk : self.chunk = some chunk) (skip : Bool) :
    self.advance skip = self.doAdvance skip := by
  unfold advance
  rw [hchunk]
  dsimp only
  cases hrange : self.includedRanges[self.currentIncludedRangeIndex]? with
  | none => exact (doAdvance_eq_none hrange skip).symm
  | some range =>
    rw [bind_eq_bind, bind_some]
    split
    · next hguard =>
      obtain ⟨hutf8, hsize, hnewline, hend, hin⟩ := hguard
      cases hb : chunk.bytes[subU32 (addU32 self.currentPosition.bytes 1) self.chunkStart]? with
      | none => exact absurd hb (h.nextByte_ne_none hchunk hrange hin)
      | some b =>
        rw [bind_eq_bind, bind_some]
        split
        · next hascii =>
          exact (doAdvance_ascii h hchunk hrange hutf8 hsize hnewline hend hin hascii hb skip).symm
        · rfl
    · rfl

/-! ### Runs of the lexer -/

theorem markEnd_eq (hself : self.markEnd = some self') :
    ∃ position, self' = { self with tokenEndPosition := position } := by
  unfold markEnd at hself
  split at hself
  · cases hself
    exact ⟨_, rfl⟩
  · obtain ⟨range, -, hself⟩ := bind_eq_some_iff.mp hself
    split at hself
    · obtain ⟨previous, -, hself⟩ := bind_eq_some_iff.mp hself
      cases hself
      exact ⟨_, rfl⟩
    · cases hself
      exact ⟨_, rfl⟩

section

variable (h : self.Ok)

include h

/-- The invariant is not about the token, the column and the symbol. -/
theorem Ok.of_token (tokenStart tokenEnd : Length) (symbol : Nat) (column : ColumnData)
    (didGetColumn : Bool) :
    { self with
      tokenStartPosition := tokenStart, tokenEndPosition := tokenEnd, resultSymbol := symbol
      columnData := column, didGetColumn := didGetColumn }.Ok :=
  ⟨⟨h.inRange, h.small, h.chunkStart_le⟩, h.notBom⟩

theorem advance_ok {skip : Bool} (hself : self.advance skip = some self') : self'.Ok := by
  cases hchunk : self.chunk with
  | none =>
    rw [advance, hchunk] at hself
    cases hself
    exact h
  | some chunk =>
    rw [advance_eq_doAdvance h hchunk] at hself
    exact doAdvance_ok h.small hself

theorem advanceTo_ok {goalByte fuel : Nat}
    (hself : advanceTo goalByte fuel self = some self') : self'.Ok := by
  induction fuel generalizing self with
  | zero => cases hself
  | succ fuel ih =>
    rw [advanceTo] at hself
    split at hself
    · obtain ⟨lexer, hlexer, hself⟩ := bind_eq_some_iff.mp hself
      exact ih (doAdvance_ok h.small hlexer) hself
    · cases hself
      exact h

theorem getColumn_ok {fuel column : Nat}
    (hself : self.getColumn fuel = some (self', column)) : self'.Ok := by
  dsimp only [getColumn] at hself
  split at hself
  · cases hself
    exact h.of_token _ _ _ _ _
  · obtain ⟨lexer, hlexer, hself⟩ := bind_eq_some_iff.mp hself
    have hok : lexer.Ok := goto_ok (by exact h.small) hlexer
    have hchunk : (lexer.setColumnData 0).getChunk.Ok := getChunk_ok (hok.of_token _ _ _ _ _)
    split at hself
    · cases hself
      exact hchunk
    · obtain ⟨lexer', hlexer', hself⟩ := bind_eq_some_iff.mp hself
      obtain ⟨lexer'', hlexer'', hself⟩ := bind_eq_some_iff.mp hself
      cases hself
      exact advanceTo_ok (getLookahead_ok hchunk.toPlaced hlexer') hlexer''

theorem setIncludedRanges_ok (hranges : ∀ range ∈ ranges, range.endByte < 2 ^ 32)
    {done : Bool} (hself : self.setIncludedRanges ranges = some (self', done)) : self'.Ok := by
  dsimp only [setIncludedRanges] at hself
  split at hself
  · obtain ⟨lexer, hlexer, hself⟩ := bind_eq_some_iff.mp hself
    cases hself
    exact goto_ok (by simp [defaultRange]) hlexer
  · split at hself
    · obtain ⟨lexer, hlexer, hself⟩ := bind_eq_some_iff.mp hself
      cases hself
      exact goto_ok hranges hlexer
    · cases hself
      exact h

theorem start_ok_of_chunk
    (hself : (do
      let self ← (if self.lookaheadSize = 0 then self.getLookahead else some self)
      if self.currentPosition.bytes = 0 then
        let self ← (if self.lookahead = byteOrderMark then self.advance true else some self)
        some (self.setColumnData 0)
      else some self) = some self') : self'.Ok := by
  obtain ⟨lexer, hlexer, hself⟩ := bind_eq_some_iff.mp hself
  have hok : lexer.Ok := by
    split at hlexer
    · exact getLookahead_ok h.toPlaced hlexer
    · cases hlexer
      exact h
  split at hself
  · obtain ⟨lexer', hlexer', hself⟩ := bind_eq_some_iff.mp hself
    cases hself
    have hok' : lexer'.Ok := by
      split at hlexer'
      · exact advance_ok hok hlexer'
      · cases hlexer'
        exact hok
    exact hok'.of_token _ _ _ _ _
  · cases hself
    exact hok

theorem start_ok (hself : self.start = some self') : self'.Ok := by
  have hok := h.of_token self.currentPosition .undefined 0 self.columnData false
  dsimp only [start] at hself
  split at hself
  · cases hself
    exact hok
  · refine start_ok_of_chunk ?_ hself
    split
    · exact getChunk_ok hok
    · exact hok

theorem finish_ok {lookaheadEndByte lookaheadEndByte' : Nat}
    (hself : self.finish lookaheadEndByte = some (self', lookaheadEndByte')) : self'.Ok := by
  obtain ⟨lexer, hlexer, hself⟩ := bind_eq_some_iff.mp hself
  have hok : lexer.Ok := by
    split at hlexer
    · obtain ⟨position, rfl⟩ := markEnd_eq hlexer
      exact h.of_token _ _ _ _ _
    · cases hlexer
      exact h
  cases hself
  split
  · exact hok.of_token _ _ _ _ _
  · exact hok

end

/-- One call of a function of the lexer. The bytes of a range are 32-bit numbers, and the loop of
`getColumn` ends. -/
inductive Call : Lexer → Lexer → Prop where
  | setInput {self self' : Lexer} (input : TSInput) (h : self.setInput input = some self') :
      Call self self'
  | setIncludedRanges {self self' : Lexer} (ranges : List TSRange) (done : Bool)
      (hranges : ∀ range ∈ ranges, range.endByte < 2 ^ 32)
      (h : self.setIncludedRanges ranges = some (self', done)) : Call self self'
  | reset {self self' : Lexer} (position : Length) (h : self.reset position = some self') :
      Call self self'
  | start {self self' : Lexer} (h : self.start = some self') : Call self self'
  | advance {self self' : Lexer} (skip : Bool) (h : self.advance skip = some self') :
      Call self self'
  | markEnd {self self' : Lexer} (h : self.markEnd = some self') : Call self self'
  | getColumn {self self' : Lexer} (fuel column : Nat)
      (h : self.getColumn fuel = some (self', column)) : Call self self'
  | finish {self self' : Lexer} (lookaheadEndByte lookaheadEndByte' : Nat)
      (h : self.finish lookaheadEndByte = some (self', lookaheadEndByte')) : Call self self'

/-- A lexer that calls lead to, from a new one. -/
inductive Reachable : Lexer → Prop where
  | init {self : Lexer} (input : TSInput) (h : init input = some self) : Reachable self
  | call {self self' : Lexer} (h : Reachable self) (hcall : Call self self') : Reachable self'

theorem Call.ok (hcall : Call self self') (h : self.Ok) : self'.Ok := by
  cases hcall with
  | setInput input hself =>
    rw [Lexer.setInput] at hself
    exact goto_ok (by exact h.small) hself
  | setIncludedRanges ranges done hranges hself => exact setIncludedRanges_ok h hranges hself
  | reset position hself =>
    rw [Lexer.reset] at hself
    split at hself
    · exact goto_ok h.small hself
    · cases hself
      exact h
  | start hself => exact start_ok h hself
  | advance skip hself => exact advance_ok h hself
  | markEnd hself =>
    obtain ⟨position, rfl⟩ := markEnd_eq hself
    exact h.of_token _ _ _ _ _
  | getColumn fuel column hself => exact getColumn_ok h hself
  | finish _ _ hself => exact finish_ok h hself

theorem Reachable.ok (h : Reachable self) : self.Ok := by
  induction h with
  | init input hself =>
    dsimp only [Lexer.init] at hself
    obtain ⟨⟨lexer, done⟩, hlexer, hself⟩ := bind_eq_some_iff.mp hself
    cases hself
    refine setIncludedRanges_ok ?_ (by simp) hlexer
    exact ⟨⟨by simp, by simp, by simp⟩, by simp⟩
  | call _ hcall ih => exact hcall.ok ih

/-- **The fast path is the slow path.** In every run, `advance` moves a lexer that has a chunk as
`doAdvance` does, in all of its state; a lexer without a chunk stays as it is. -/
theorem Reachable.advance_eq (h : Reachable self) (skip : Bool) :
    self.advance skip = if self.chunk.isNone then some self else self.doAdvance skip := by
  cases hchunk : self.chunk with
  | none => simp [advance, hchunk]
  | some chunk => exact advance_eq_doAdvance h.ok hchunk skip

theorem ab_isByte : ∀ b ∈ [97, 98], b < 256 := by decide

theorem ab_small : [97, 98].length < 2 ^ 32 := by decide

theorem empty_isByte : ∀ b ∈ ([] : List Nat), b < 256 := by decide

theorem empty_small : ([] : List Nat).length < 2 ^ 32 := by decide

/-- The text `ab`, in one chunk. -/
def abInput : TSInput where
  encoding := .utf8
  read := fun _ byte _ => if byte = 0 then ⟨[97, 98], ab_isByte, ab_small⟩
    else ⟨[], empty_isByte, empty_small⟩
  decode := fun _ => none

theorem init_abInput_isSome : (Lexer.init abInput).isSome := by decide +kernel

theorem Reachable.advance_eq_ab :
    ∃ self, Reachable self ∧ self.lookahead = 97 ∧ self.chunk.isSome ∧
      self.advance false = self.doAdvance false := by
  obtain ⟨lexer, hinit⟩ := isSome_iff_exists.mp init_abInput_isSome
  have hlookahead : ((Lexer.init abInput).bind start).map lookahead = some 97 := by
    decide +kernel
  have hchunk : ((Lexer.init abInput).bind start).map (fun self => self.chunk.isSome) =
      some true := by
    decide +kernel
  rw [hinit, bind_some] at hlookahead hchunk
  obtain ⟨self, hstart, hlookahead⟩ := map_eq_some_iff.mp hlookahead
  have hreach : Reachable self := .call (.init abInput hinit) (.start hstart)
  have hsome : self.chunk.isSome := by simpa [hstart] using hchunk
  refine ⟨self, hreach, hlookahead, hsome, ?_⟩
  rw [hreach.advance_eq, if_neg]
  rw [isNone_iff_eq_none]
  exact isSome_iff_ne_none.mp hsome

/-- A lexer that was given its input has no chunk yet: `advance` leaves it alone, and `doAdvance`
would read the first chunk. -/
theorem not_advance_eq_doAdvance :
    ¬ ∀ self, Reachable self → ∀ skip, self.advance skip = self.doAdvance skip := by
  intro h
  obtain ⟨lexer, hinit⟩ := isSome_iff_exists.mp init_abInput_isSome
  have hadvance : ((Lexer.init abInput).bind (advance · false)).map lookahead = some 0 := by
    decide +kernel
  have hdoAdvance : ((Lexer.init abInput).bind (doAdvance · false)).map lookahead = some 97 := by
    decide +kernel
  rw [hinit, bind_some] at hadvance hdoAdvance
  rw [h lexer (.init abInput hinit), hdoAdvance] at hadvance
  exact absurd hadvance (by decide)

end Lexer

end TreeSitter.Lib
