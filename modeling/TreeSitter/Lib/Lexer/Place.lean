import TreeSitter.Lib.Lexer

/-!
# TreeSitter.Lib.Lexer.Place

The **places** of a lexer: a range and a byte in it, or the end. Which place follows another one
depends on the included ranges and on the characters alone, if the characters do not depend on the
chunks that they are read from (`TSInput.Steady`). A `Reading` has both.

* `Reading.landing` is where `ts_lexer_goto` goes to;
* `Reading.nextPlace` is where the lexer comes to behind a character;
* `Reading.Counts` is the path from a byte on, with the number of characters in the line.

`getLookahead_spec` and `enterRange_enters` say what the lexer's functions do at a place.
-/

namespace TreeSitter.Lib

open List

/-! ### Characters of an input -/

/-- The size and the code of the first character, as the lexer reads it. -/
def TSInput.character (input : TSInput) (bytes : List Nat) : Option (Nat × Int) := do
  let first ← bytes[0]?
  if input.encoding = .utf8 ∧ first < 0x80 then some (1, Int.ofNat first)
  else
    let (size, code) ← input.decoder bytes
    some (if code = decodeError then 1 else size, code)

/-- The lexer takes the bytes for the front of a character and reads another chunk. -/
def TSInput.CutOff (input : TSInput) (bytes : List Nat) : Prop :=
  bytes.length < 4 ∧ ∃ size, input.decoder bytes = some (size, decodeError)

/-- The input hands out chunks of one text of some length. What character is at a byte does not
depend on the chunk, but a chunk may end in front of the last bytes of a character. -/
structure TSInput.Steady (input : TSInput) (length : Nat) (charAt : Nat → Nat × Int) : Prop where
  small : length < 2 ^ 32
  ended : ∀ reads byte point, length ≤ byte → (input.read reads byte point).bytes = []
  nonempty : ∀ reads byte point, byte < length → (input.read reads byte point).bytes ≠ []
  within : ∀ reads byte point, byte < length →
    byte + (input.read reads byte point).bytes.length ≤ length
  first : ∀ reads byte point, byte < length →
    input.character (input.read reads byte point).bytes = some (charAt byte)
  rest : ∀ reads byte point k, k < (input.read reads byte point).bytes.length →
    input.character ((input.read reads byte point).bytes.drop k) = some (charAt (byte + k)) ∨
      input.CutOff ((input.read reads byte point).bytes.drop k)
  size : ∀ byte, byte < length → 0 < (charAt byte).1 ∧ byte + (charAt byte).1 < 2 ^ 32

namespace Lexer

/-! ### Places -/

/-- A text with its characters and the ranges of it that are read. -/
structure Reading where
  length : Nat
  charAt : Nat → Nat × Int
  ranges : List TSRange

/-- There are ranges, in order and apart, and their bytes are 32-bit numbers. -/
structure Reading.Valid (reading : Reading) : Prop where
  nonempty : reading.ranges ≠ []
  small : ∀ range ∈ reading.ranges, range.endByte < 2 ^ 32
  startByte_le : ∀ range ∈ reading.ranges, range.startByte ≤ range.endByte
  apart : reading.ranges.Pairwise fun range next => range.endByte ≤ next.startByte

/-- The index and the byte where the lexer is, and whether it is in a range, when it looks for one
from an index on. -/
def enterPlace (byte index : Nat) : List TSRange → Nat × Nat × Bool
  | [] => (index, byte, false)
  | range :: ranges =>
    if byte ≥ range.endByte ∨ range.endByte = range.startByte then
      match ranges with
      | [] => (index + 1, byte, false)
      | next :: rest => enterPlace next.startByte (index + 1) (next :: rest)
    else (index, byte, true)

/-- Where a character is read: in a range, at a byte of it, or behind all of the text. -/
inductive Place where
  | at (index byte : Nat)
  | eof

def place (self : Lexer) : Place :=
  if self.eof then .eof else .at self.currentIncludedRangeIndex self.currentPosition.bytes

namespace Reading

variable (reading : Reading)

/-- The number of characters in the line behind a character. -/
def countAfter (byte value : Nat) : Nat :=
  let code := (reading.charAt byte).2
  if code = 10 then 0 else if byte = 0 ∧ code = byteOrderMark then value else addU32 value 1

/-- Where the lexer comes to at a byte of a range. -/
def arrive (index byte : Nat) : Place := if byte < reading.length then .at index byte else .eof

/-- The place behind a character. -/
def nextPlace (index byte : Nat) : Place :=
  match enterPlace (byte + (reading.charAt byte).1) index (reading.ranges.drop index) with
  | (index, byte, true) => reading.arrive index byte
  | (_, _, false) => .eof

/-- Where `ts_lexer_goto` goes to. -/
def landing (byte : Nat) : Option (Nat × Nat) :=
  (findIncludedRange byte reading.ranges 0).map fun (index, range) =>
    (index, max byte range.startByte)

/-- From a byte on, the lexer comes to a byte of a range, with a number of characters in the
line. -/
inductive Counts (start : Nat) : Nat → Nat → Nat → Prop where
  | start {index byte : Nat} (h : reading.landing start = some (index, byte))
      (hlt : byte < reading.length) : Counts start index byte 0
  | next {index byte value index' byte' : Nat} (h : Counts start index byte value)
      (hnext : reading.nextPlace index byte = .at index' byte') :
      Counts start index' byte' (reading.countAfter byte value)

/-- From a byte on, the lexer comes to the end, in front of another byte, with a number of
characters in the line. -/
inductive CountsToEnd (start stop : Nat) : Nat → Prop where
  | nothing (h : reading.landing start = none) : CountsToEnd start stop 0
  | empty {index byte : Nat} (h : reading.landing start = some (index, byte))
      (hle : reading.length ≤ byte) : CountsToEnd start stop 0
  | last {index byte value : Nat} (h : reading.Counts start index byte value) (hlt : byte < stop)
      (hnext : reading.nextPlace index byte = .eof) :
      CountsToEnd start stop (reading.countAfter byte value)

end Reading

/-! ### Lines -/

def lineStart (position : Length) : Nat := position.bytes - position.extent.column

/-- No range has text between two bytes. -/
def NoText (ranges : List TSRange) (start stop : Nat) : Prop :=
  ∀ range ∈ ranges, range.endByte ≤ start ∨ stop ≤ range.startByte ∨
    range.endByte = range.startByte

/-! ### The chunk and the character -/

/-- The lexer reads the text, in a range or at the end. -/
structure On (reading : Reading) (lexer : Lexer) : Prop where
  steady : lexer.input.Steady reading.length reading.charAt
  ranges : lexer.includedRanges = reading.ranges
  index_le : lexer.currentIncludedRangeIndex ≤ reading.ranges.length
  inRange : ∀ range, reading.ranges[lexer.currentIncludedRangeIndex]? = some range →
    range.startByte ≤ lexer.currentPosition.bytes ∧ lexer.currentPosition.bytes < range.endByte

/-- The chunk is one that has been read at its start. -/
def ReadChunk (self : Lexer) : Prop :=
  ∀ chunk, self.chunk = some chunk → chunk.bytes ≠ [] ∧
    ∃ reads point, chunk = self.input.read reads self.chunkStart point

/-- The current position is in the chunk. -/
def InChunk (self : Lexer) : Prop :=
  ∃ chunk, self.chunk = some chunk ∧ self.chunkStart ≤ self.currentPosition.bytes ∧
    self.currentPosition.bytes < self.chunkStart + chunk.bytes.length

/-- The lexer is at the same place, with the same column. -/
structure SamePlace (lexer lexer' : Lexer) : Prop where
  currentPosition : lexer'.currentPosition = lexer.currentPosition
  index : lexer'.currentIncludedRangeIndex = lexer.currentIncludedRangeIndex
  ranges : lexer'.includedRanges = lexer.includedRanges
  input : lexer'.input = lexer.input
  columnData : lexer'.columnData = lexer.columnData

/-- The character at the current position has been read from a chunk. -/
structure Loaded (reading : Reading) (lexer : Lexer) : Prop where
  readChunk : lexer.ReadChunk
  inChunk : lexer.InChunk
  lt : lexer.currentPosition.bytes < reading.length
  character : (lexer.lookaheadSize, lexer.lookahead) = reading.charAt lexer.currentPosition.bytes

variable {reading : Reading} {self self' : Lexer}

theorem On.of_samePlace (h : self.On reading) (hsame : SamePlace self self') :
    self'.On reading where
  steady := hsame.input ▸ h.steady
  ranges := hsame.ranges.trans h.ranges
  index_le := hsame.index ▸ h.index_le
  inRange := by
    rw [hsame.index, hsame.currentPosition]
    exact h.inRange

theorem On.chunk_within (h : self.On reading) (hread : self.ReadChunk) {chunk : Chunk}
    (hchunk : self.chunk = some chunk) :
    self.chunkStart < reading.length ∧
      self.chunkStart + chunk.bytes.length ≤ reading.length := by
  obtain ⟨hne, reads, point, rfl⟩ := hread chunk hchunk
  have hlt : self.chunkStart < reading.length := by
    by_contra hle
    exact hne (h.steady.ended _ _ _ (not_lt.mp hle))
  exact ⟨hlt, h.steady.within _ _ _ hlt⟩

theorem getChunk_spec (h : self.On reading) (hlt : self.currentPosition.bytes < reading.length) :
    SamePlace self self.getChunk ∧ self.getChunk.ReadChunk ∧ self.getChunk.InChunk ∧
      self.getChunk.chunk = some (self.input.read self.reads self.currentPosition.bytes
        self.currentPosition.extent) ∧ self.getChunk.chunkStart = self.currentPosition.bytes := by
  have hne := h.steady.nonempty self.reads self.currentPosition.bytes
    self.currentPosition.extent hlt
  have hchunk : self.getChunk = { self with
      chunkStart := self.currentPosition.bytes, reads := self.reads + 1
      chunk := some (self.input.read self.reads self.currentPosition.bytes
        self.currentPosition.extent) } := by
    rw [getChunk]
    exact if_neg fun hlength => hne (length_eq_zero_iff.mp hlength)
  rw [hchunk]
  refine ⟨⟨rfl, rfl, rfl, rfl, rfl⟩, ?_, ?_, rfl, rfl⟩
  · intro chunk hsome
    cases hsome
    exact ⟨hne, _, _, rfl⟩
  · refine ⟨_, rfl, le_rfl, ?_⟩
    have hpos := length_pos_iff.mpr hne
    exact Nat.lt_add_of_pos_right hpos

theorem getChunk_end (h : self.On reading) (hle : reading.length ≤ self.currentPosition.bytes) :
    self.getChunk = { self with
      chunkStart := self.currentPosition.bytes, reads := self.reads + 1, chunk := none
      currentIncludedRangeIndex := self.includedRanges.length } := by
  have hnil := h.steady.ended self.reads self.currentPosition.bytes self.currentPosition.extent hle
  rw [getChunk]
  exact if_pos (by rw [hnil]; rfl)

variable {bytes : List Nat}

theorem decodeUtf8_ascii {first : Nat} (hfirst : bytes[0]? = some first) (hlt : first < 0x80) :
    decodeUtf8 bytes = some (1, Int.ofNat first) := by
  have hascii : ∀ byte < 0x80, byte &&& 0x80 = 0 := by decide
  rw [decodeUtf8, hfirst]
  exact if_pos (hascii first hlt)

theorem character_of_decoder {input : TSInput} {size : Nat} {code : Int} {char : Nat × Int}
    (hchar : input.character bytes = some char)
    (hdecode : input.decoder bytes = some (size, code)) :
    char = (if code = decodeError then 1 else size, code) := by
  obtain ⟨first, hfirst, hchar⟩ := Option.bind_eq_some_iff.mp hchar
  split at hchar
  next hascii =>
    have hutf8 : input.decoder bytes = some (1, Int.ofNat first) := by
      rw [TSInput.decoder, hascii.1]
      exact decodeUtf8_ascii hfirst hascii.2
    cases hdecode.symm.trans hutf8
    cases hchar
    simp
  next =>
    rw [hdecode] at hchar
    exact (Option.some.inj hchar).symm

theorem decoder_of_character {input : TSInput} {char : Nat × Int}
    (hchar : input.character bytes = some char) :
    ∃ size code, input.decoder bytes = some (size, code) := by
  obtain ⟨first, hfirst, hchar⟩ := Option.bind_eq_some_iff.mp hchar
  split at hchar
  next hascii =>
    refine ⟨1, Int.ofNat first, ?_⟩
    rw [TSInput.decoder, hascii.1]
    exact decodeUtf8_ascii hfirst hascii.2
  next =>
    obtain ⟨⟨size, code⟩, hdecode, -⟩ := Option.bind_eq_some_iff.mp hchar
    exact ⟨size, code, hdecode⟩

/-- The lexer reads the character at the current position, from the chunk or from another one. -/
theorem getLookahead_spec (h : self.On reading) (hread : self.ReadChunk) (hin : self.InChunk) :
    ∃ self', self.getLookahead = some self' ∧ SamePlace self self' ∧ self'.Loaded reading := by
  obtain ⟨chunk, hchunk, hle, hlt⟩ := hin
  obtain ⟨hstart, hwithin⟩ := h.chunk_within hread hchunk
  obtain ⟨hne, reads, point, hchunkRead⟩ := hread chunk hchunk
  have hposition : self.currentPosition.bytes < reading.length := by omega
  obtain ⟨k, hk⟩ := Nat.exists_eq_add_of_le hle
  have hoffset : subU32 self.currentPosition.bytes self.chunkStart = k := by
    rw [subU32_of_le hle, hk, Nat.add_sub_cancel_left]
  have hklt : k < chunk.bytes.length := by omega
  have hchunkSize : self.chunkSize = chunk.bytes.length := by rw [chunkSize, hchunk]
  have hsize : subU32 self.chunkSize k = chunk.bytes.length - k := by
    rw [hchunkSize, subU32_of_le hklt.le]
  have hdrop : (chunk.bytes.drop k).length = chunk.bytes.length - k := length_drop
  obtain ⟨first, hfirst⟩ : ∃ first, (chunk.bytes.drop k)[0]? = some first :=
    ⟨_, getElem?_eq_getElem (by rw [hdrop]; omega)⟩
  have hrest := h.steady.rest reads self.chunkStart point k (by rw [← hchunkRead]; exact hklt)
  rw [← hchunkRead, ← hk] at hrest
  have hlook : self.getLookahead = (do
      if self.input.encoding = .utf8 ∧ first < 0x80 then
        some { self with lookahead := Int.ofNat first, lookaheadSize := 1 }
      else
        let (decodedSize, code) ← self.input.decoder (chunk.bytes.drop k)
        if code = decodeError ∧ chunk.bytes.length - k < 4 then
          let self := self.getChunk
          let (decodedSize, code) ← self.input.decoder ((self.chunk.map Chunk.bytes).getD [])
          some (self.setDecoded decodedSize code)
        else some (self.setDecoded decodedSize code)) := by
    dsimp only [getLookahead]
    rw [hoffset, hsize, if_neg (by omega), hchunk]
    simp only [hfirst]
    rfl
  rw [hlook]
  by_cases hascii : self.input.encoding = .utf8 ∧ first < 0x80
  · rw [if_pos hascii]
    have hdecode : self.input.decoder (chunk.bytes.drop k) = some (1, Int.ofNat first) := by
      rw [TSInput.decoder, hascii.1]
      exact decodeUtf8_ascii hfirst hascii.2
    have hchar : self.input.character (chunk.bytes.drop k) =
        some (reading.charAt self.currentPosition.bytes) := by
      refine hrest.resolve_right fun hcut => ?_
      obtain ⟨-, size, herror⟩ := hcut
      cases hdecode.symm.trans herror
    refine ⟨_, rfl, ⟨rfl, rfl, rfl, rfl, rfl⟩, hread, ⟨chunk, hchunk, hle, hlt⟩, hposition, ?_⟩
    have heq := character_of_decoder hchar hdecode
    rw [heq]
    simp
  · rw [if_neg hascii]
    have hdecoded : ∃ size code, self.input.decoder (chunk.bytes.drop k) = some (size, code) := by
      rcases hrest with hchar | hcut
      · exact decoder_of_character hchar
      · exact ⟨_, _, hcut.2.choose_spec⟩
    obtain ⟨size, code, hdecode⟩ := hdecoded
    simp only [hdecode, Option.bind_eq_bind, Option.bind_some]
    by_cases hretry : code = decodeError ∧ chunk.bytes.length - k < 4
    · rw [if_pos hretry]
      obtain ⟨hsame, hread', hin', hchunk', hstart'⟩ := getChunk_spec h hposition
      have hchar := h.steady.first self.reads self.currentPosition.bytes
        self.currentPosition.extent hposition
      obtain ⟨size', code', hdecode'⟩ := decoder_of_character hchar
      have hinput : self.getChunk.input.decoder
          ((self.getChunk.chunk.map Chunk.bytes).getD []) = some (size', code') := by
        rw [hsame.input, hchunk']
        exact hdecode'
      rw [hinput, Option.bind_some]
      refine ⟨_, rfl, ⟨hsame.currentPosition, hsame.index, hsame.ranges, hsame.input,
        hsame.columnData⟩, hread', hin', ?_, ?_⟩
      · exact hsame.currentPosition ▸ hposition
      · have hchar' := character_of_decoder hchar hdecode'
        exact (hsame.currentPosition ▸ hchar').symm
    · rw [if_neg hretry]
      have hchar : self.input.character (chunk.bytes.drop k) =
          some (reading.charAt self.currentPosition.bytes) := by
        refine hrest.resolve_right fun hcut => ?_
        obtain ⟨hshort, size', herror⟩ := hcut
        cases hdecode.symm.trans herror
        exact hretry ⟨rfl, hdrop ▸ hshort⟩
      refine ⟨_, rfl, ⟨rfl, rfl, rfl, rfl, rfl⟩, hread, ⟨chunk, hchunk, hle, hlt⟩, hposition, ?_⟩
      exact (character_of_decoder hchar hdecode).symm

/-! ### Entering a range -/

/-- The range has no text at a byte or behind it. -/
def Passed (byte : Nat) (range : TSRange) : Prop :=
  byte ≥ range.endByte ∨ range.endByte = range.startByte

def enterNext (self : Lexer) (next : TSRange) : Lexer :=
  { self with
    currentIncludedRangeIndex := self.currentIncludedRangeIndex + 1
    currentPosition := ⟨next.startByte, next.startPoint⟩ }

section Ranges

variable {range next : TSRange} {rest : List TSRange}

theorem enterRange_stay (h : ¬ Passed self.currentPosition.bytes range) :
    self.enterRange (range :: rest) = (self, true) := by
  rw [enterRange]
  exact if_neg h

theorem enterRange_last (h : Passed self.currentPosition.bytes range) :
    self.enterRange [range] =
      ({ self with currentIncludedRangeIndex := self.currentIncludedRangeIndex + 1 }, false) := by
  rw [enterRange]
  exact if_pos h

theorem enterRange_next (h : Passed self.currentPosition.bytes range) :
    self.enterRange (range :: next :: rest) = (self.enterNext next).enterRange (next :: rest) := by
  rw [enterRange]
  exact if_pos h

variable {byte : Nat}

theorem enterPlace_stay (h : ¬ Passed byte range) (index : Nat) :
    enterPlace byte index (range :: rest) = (index, byte, true) := by
  rw [enterPlace.eq_def]
  exact if_neg h

theorem enterPlace_last (h : Passed byte range) (index : Nat) :
    enterPlace byte index [range] = (index + 1, byte, false) := by
  rw [enterPlace.eq_def]
  exact if_pos h

theorem enterPlace_next (h : Passed byte range) (index : Nat) :
    enterPlace byte index (range :: next :: rest) =
      enterPlace next.startByte (index + 1) (next :: rest) := by
  rw [enterPlace.eq_def]
  exact if_pos h

end Ranges

/-- What entering a range does to a lexer that is at the start of some ranges. -/
structure Enters (ranges : List TSRange) (lexer : Lexer) (result : Lexer × Bool) : Prop where
  frame : result.1 = { lexer with
    currentPosition := result.1.currentPosition
    currentIncludedRangeIndex := result.1.currentIncludedRangeIndex }
  place : (result.1.currentIncludedRangeIndex, result.1.currentPosition.bytes, result.2) =
    enterPlace lexer.currentPosition.bytes lexer.currentIncludedRangeIndex
      (ranges.drop lexer.currentIncludedRangeIndex)
  index_ge : lexer.currentIncludedRangeIndex ≤ result.1.currentIncludedRangeIndex
  passed : ∀ k range, lexer.currentIncludedRangeIndex ≤ k →
    k < result.1.currentIncludedRangeIndex → ranges[k]? = some range →
      range.endByte = range.startByte ∨
        k = lexer.currentIncludedRangeIndex ∧ range.endByte ≤ lexer.currentPosition.bytes
  inRange : result.2 = true → ∃ range, ranges[result.1.currentIncludedRangeIndex]? = some range ∧
    result.1.currentPosition.bytes < range.endByte ∧ range.endByte ≠ range.startByte
  afterAll : result.2 = false → result.1.currentIncludedRangeIndex = ranges.length
  moved : (result.1.currentPosition = lexer.currentPosition ∧
      (result.2 = true → result.1.currentIncludedRangeIndex = lexer.currentIncludedRangeIndex)) ∨
    ∃ k range, lexer.currentIncludedRangeIndex < k ∧ k ≤ result.1.currentIncludedRangeIndex ∧
      ranges[k]? = some range ∧
      result.1.currentPosition = ⟨range.startByte, range.startPoint⟩ ∧
      (result.2 = true → k = result.1.currentIncludedRangeIndex)

variable {ranges : List TSRange}

theorem Enters.of_next {range next : TSRange} {result : Lexer × Bool}
    (hle : ∀ range ∈ ranges, range.startByte ≤ range.endByte)
    (hpassed : Passed self.currentPosition.bytes range)
    (hget : ranges[self.currentIncludedRangeIndex]? = some range)
    (hdrop : ∃ rest, ranges.drop self.currentIncludedRangeIndex = range :: next :: rest)
    (h : Enters ranges (self.enterNext next) result) : Enters ranges self result := by
  obtain ⟨rest, hdrop⟩ := hdrop
  have hdropNext : ranges.drop (self.currentIncludedRangeIndex + 1) = next :: rest := by
    rw [← tail_drop, hdrop]
    rfl
  have hgetNext : ranges[self.currentIncludedRangeIndex + 1]? = some next := by
    rw [← head?_drop, hdropNext]
    rfl
  have hge : self.currentIncludedRangeIndex + 1 ≤ result.1.currentIncludedRangeIndex := h.index_ge
  refine ⟨h.frame, ?_, by omega, ?_, h.inRange, h.afterAll, .inr ?_⟩
  · rw [h.place, hdrop, enterPlace_next hpassed]
    exact congrArg (enterPlace _ _) hdropNext
  · intro k other hk hlt hother
    rcases Nat.eq_or_lt_of_le hk with rfl | hk
    · cases hget.symm.trans hother
      exact hpassed.elim (fun hle => .inr ⟨rfl, hle⟩) .inl
    · refine (h.passed k other hk hlt hother).elim .inl fun hstart => .inl ?_
      -- The next range is passed at its start only if it is empty.
      obtain ⟨rfl, hend⟩ := hstart
      cases hgetNext.symm.trans hother
      exact le_antisymm hend (hle next (mem_of_getElem? hgetNext))
  · rcases h.moved with ⟨hposition, hindex⟩ | ⟨k, other, hk, hle', hother, hposition, hindex⟩
    · exact ⟨self.currentIncludedRangeIndex + 1, next, Nat.lt_succ_self _, hge, hgetNext, hposition,
        fun htrue => (hindex htrue).symm⟩
    · exact ⟨k, other, by
        have : self.currentIncludedRangeIndex + 1 < k := hk
        omega, hle', hother, hposition, hindex⟩

theorem enterRange_enters {rest : List TSRange}
    (hle : ∀ range ∈ ranges, range.startByte ≤ range.endByte)
    (hrest : ranges.drop self.currentIncludedRangeIndex = rest) (hne : rest ≠ []) :
    Enters ranges self (self.enterRange rest) := by
  induction rest generalizing self with
  | nil => exact absurd rfl hne
  | cons range rest ih =>
    have hget : ranges[self.currentIncludedRangeIndex]? = some range := by
      rw [← head?_drop, hrest]
      rfl
    by_cases hpassed : Passed self.currentPosition.bytes range
    · cases rest with
      | nil =>
        have hlength : ranges.length = self.currentIncludedRangeIndex + 1 := by
          have := congrArg List.length hrest
          rw [length_drop] at this
          simp only [length_singleton] at this
          omega
        rw [enterRange_last hpassed]
        refine ⟨rfl, ?_, Nat.le_succ _, ?_, nofun, fun _ => hlength.symm, .inl ⟨rfl, nofun⟩⟩
        · rw [hrest, enterPlace_last hpassed]
        · intro k other hk hlt hother
          obtain rfl : k = self.currentIncludedRangeIndex := by
            have : k < self.currentIncludedRangeIndex + 1 := hlt
            omega
          cases hget.symm.trans hother
          exact hpassed.elim (fun hle => .inr ⟨rfl, hle⟩) .inl
      | cons next rest =>
        rw [enterRange_next hpassed]
        refine .of_next hle hpassed hget ⟨rest, hrest⟩ (ih ?_ (cons_ne_nil _ _))
        rw [enterNext, ← tail_drop, hrest]
        rfl
    · rw [enterRange_stay hpassed]
      refine ⟨rfl, ?_, le_rfl, ?_, fun _ => ⟨range, hget, ?_⟩, nofun, .inl ⟨rfl, fun _ => rfl⟩⟩
      · rw [hrest, enterPlace_stay hpassed]
      · exact fun k _ hk hlt => absurd hk (not_le.mpr hlt)
      · rw [Passed, not_or, not_le] at hpassed
        exact hpassed

/-! ### Landing in a range -/

theorem findIncludedRange_eq_some {byte : Nat} {index k : Nat} {range : TSRange}
    (hget : ranges[k]? = some range)
    (hrange : range.endByte > byte ∧ range.endByte > range.startByte) (hbefore : ∀ i other, i < k
      → ranges[i]? = some other → ¬ (other.endByte > byte ∧ other.endByte > other.startByte)) :
    findIncludedRange byte ranges index = some (index + k, range) := by
  induction ranges generalizing index k with
  | nil => cases hget
  | cons first ranges ih =>
    cases k with
    | zero =>
      cases hget
      rw [findIncludedRange, if_pos hrange]
      rfl
    | succ k =>
      have hfirst := hbefore 0 first (Nat.succ_pos k) rfl
      have hrest := @ih (index + 1) k hget fun i other hi hother =>
        hbefore (i + 1) other (Nat.succ_lt_succ hi) hother
      rw [findIncludedRange, if_neg hfirst, hrest]
      exact congrArg (fun i => some (i, range)) (by omega)

theorem findIncludedRange_eq_none {byte : Nat} (index : Nat)
    (h : ∀ range ∈ ranges, ¬ (range.endByte > byte ∧ range.endByte > range.startByte)) :
    findIncludedRange byte ranges index = none := by
  induction ranges generalizing index with
  | nil => rfl
  | cons range ranges ih =>
    rw [findIncludedRange, if_neg (h range mem_cons_self)]
    exact ih (index + 1) fun other hother => h other (mem_cons_of_mem _ hother)

namespace Reading

variable {range : TSRange}

/-- From a byte on, the lexer lands in the first range that has text there or behind. -/
theorem landing_eq_some {byte index : Nat} (hget : reading.ranges[index]? = some range)
    (hlt : byte < range.endByte) (hne : range.startByte < range.endByte) (hbefore : ∀ i other, i <
      index → reading.ranges[i]? = some other → ¬ (other.endByte > byte ∧ other.endByte >
      other.startByte)) :
    reading.landing byte = some (index, max byte range.startByte) := by
  rw [landing, findIncludedRange_eq_some hget ⟨hlt, hne⟩ hbefore, Nat.zero_add]
  rfl

theorem landing_eq_none {byte : Nat}
    (h : ∀ range ∈ reading.ranges, ¬ (range.endByte > byte ∧ range.endByte > range.startByte)) :
    reading.landing byte = none := by
  rw [landing, findIncludedRange_eq_none 0 h]
  rfl

theorem Valid.endByte_le {reading : Reading} (h : reading.Valid) {i j : Nat} {other : TSRange}
    (hi : reading.ranges[i]? = some range) (hj : reading.ranges[j]? = some other) (hlt : i < j) :
    range.endByte ≤ other.startByte := by
  obtain ⟨hi', rfl⟩ := List.getElem?_eq_some_iff.mp hi
  obtain ⟨hj', rfl⟩ := List.getElem?_eq_some_iff.mp hj
  exact pairwise_iff_getElem.mp h.apart i j hi' hj' hlt

theorem landing_of_noText {reading : Reading} (hvalid : reading.Valid) {start index : Nat}
    (hget : reading.ranges[index]? = some range) (h : NoText reading.ranges start range.startByte)
    (hle : start ≤ range.startByte) (hne : range.startByte < range.endByte) :
    reading.landing start = some (index, range.startByte) := by
  rw [landing_eq_some hget (by omega) hne, max_eq_right hle]
  intro i other hi hother hin
  have hapart := hvalid.endByte_le hother hget hi
  have htext := h other (mem_of_getElem? hother)
  omega

end Reading

end Lexer

end TreeSitter.Lib
