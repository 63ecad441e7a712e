import TreeSitter.Lib.Lexer.Place

/-!
# TreeSitter.Lib.Lexer.Advance

**Advancing** with a column to keep up to date. When the lexer enters an included range, the
position gets the column of the range's start point, but the count of characters goes on. It is then
the count from the start of the line only if the range begins on the line that is left, or if
nothing was counted and no included text precedes the range on its line (`Anchors`).

`doAdvance_advances` says where an advance leads to, and `advance_tracks` that the column is again
the number of characters from the start of the line.
-/

namespace TreeSitter.Lib

open List

namespace Lexer

variable {reading : Reading} {self self' : Lexer}

/-! ### Keeping the line -/

/-- The column of a lexer is also that of another position: the position is on the same line, or
nothing has been counted and there is nothing to count. -/
def Anchors (self : Lexer) (position : Length) : Prop :=
  position.extent.column ≤ position.bytes ∧
    (lineStart position = lineStart self.currentPosition ∨ self.columnData.value = 0 ∧
        NoText self.includedRanges (lineStart position) position.bytes)

/-- The lexer behind the current character, in the range where it goes on. -/
def entered (self : Lexer) : Lexer × Bool :=
  self.passLookahead.enterRange
    (self.passLookahead.includedRanges.drop self.passLookahead.currentIncludedRangeIndex)

/-- If the lexer advances to a point that a range says it is at, with a column to keep up to date,
that is also the column of the point. -/
def KeepsLine (self : Lexer) : Prop :=
  self.passLookahead.columnData.valid = true →
    self.entered.1.currentPosition ≠ self.passLookahead.currentPosition →
      self.passLookahead.Anchors self.entered.1.currentPosition

/-! ### Advancing -/

/-- The lexer looks at the current position, in its chunk or in a new one. -/
def load (self : Lexer) : Option Lexer :=
  if self.currentPosition.bytes < self.chunkStart ∨
      self.currentPosition.bytes ≥ addU32 self.chunkStart self.chunkSize then
    self.getChunk.getLookahead
  else self.getLookahead

theorem load_spec (h : self.On reading) (hread : self.ReadChunk)
    (hlt : self.currentPosition.bytes < reading.length) :
    ∃ self', self.load = some self' ∧ SamePlace self self' ∧ self'.Loaded reading := by
  rw [load]
  split
  next =>
    obtain ⟨hsame, hread', hin, -⟩ := getChunk_spec h hlt
    obtain ⟨self', hself', hsame', hloaded⟩ := getLookahead_spec (h.of_samePlace hsame) hread' hin
    exact ⟨self', hself', ⟨hsame'.currentPosition.trans hsame.currentPosition,
      hsame'.index.trans hsame.index, hsame'.ranges.trans hsame.ranges,
      hsame'.input.trans hsame.input, hsame'.columnData.trans hsame.columnData⟩, hloaded⟩
  next hin =>
    rw [not_or, not_lt, not_le] at hin
    refine getLookahead_spec h hread ?_
    cases hchunk : self.chunk with
    | none =>
      have hwrap : addU32 self.chunkStart 0 ≤ self.chunkStart := Nat.mod_le _ _
      rw [chunkSize, hchunk] at hin
      exact absurd (hin.2.trans_le hwrap) (by omega)
    | some chunk =>
      have hwrap : addU32 self.chunkStart chunk.bytes.length ≤
          self.chunkStart + chunk.bytes.length := Nat.mod_le _ _
      rw [chunkSize, hchunk] at hin
      exact ⟨chunk, hchunk, hin.1, hin.2.trans_le hwrap⟩

theorem load_end (h : self.On reading) (hread : self.ReadChunk)
    (hle : reading.length ≤ self.currentPosition.bytes) :
    self.load = some { self.getChunk with lookaheadSize := 1, lookahead := 0 } := by
  have hout : self.currentPosition.bytes < self.chunkStart ∨
      self.currentPosition.bytes ≥ addU32 self.chunkStart self.chunkSize := by
    by_contra hin
    rw [not_or, not_lt, not_le] at hin
    cases hchunk : self.chunk with
    | none =>
      have hwrap : addU32 self.chunkStart 0 ≤ self.chunkStart := Nat.mod_le _ _
      rw [chunkSize, hchunk] at hin
      exact absurd (hin.2.trans_le hwrap) (by omega)
    | some chunk =>
      have hwrap : addU32 self.chunkStart chunk.bytes.length ≤
          self.chunkStart + chunk.bytes.length := Nat.mod_le _ _
      have hwithin := h.chunk_within hread hchunk
      rw [chunkSize, hchunk] at hin
      exact absurd (hin.2.trans_le hwrap) (by omega)
  rw [load, if_pos hout, getChunk_end h hle, getLookahead]
  simp [chunkSize, subU32]

/-- What passing a character does. -/
structure Passes (reading : Reading) (lexer passed : Lexer) : Prop where
  bytes : passed.currentPosition.bytes =
    lexer.currentPosition.bytes + (reading.charAt lexer.currentPosition.bytes).1
  newline : (reading.charAt lexer.currentPosition.bytes).2 = 10 →
    passed.currentPosition.extent.column = 0 ∧ passed.columnData = ⟨0, true⟩
  lineStart : (reading.charAt lexer.currentPosition.bytes).2 ≠ 10 →
    lexer.currentPosition.extent.column ≤ lexer.currentPosition.bytes →
      lineStart passed.currentPosition = lineStart lexer.currentPosition ∧
        passed.currentPosition.extent.column ≤ passed.currentPosition.bytes
  valid : lexer.columnData.valid = true → passed.columnData =
    ⟨reading.countAfter lexer.currentPosition.bytes lexer.columnData.value, true⟩
  invalid : (reading.charAt lexer.currentPosition.bytes).2 ≠ 10 →
    lexer.columnData.valid = false → passed.columnData.valid = false
  frame : passed = { lexer with
    currentPosition := passed.currentPosition, columnData := passed.columnData }

theorem passLookahead_passes (h : self.On reading) (hloaded : self.Loaded reading) :
    Passes reading self self.passLookahead := by
  have hchar := hloaded.character
  obtain ⟨hpos, hsmall⟩ := h.steady.size _ hloaded.lt
  have hsize : self.lookaheadSize = (reading.charAt self.currentPosition.bytes).1 :=
    congrArg Prod.fst hchar
  have hcode : self.lookahead = (reading.charAt self.currentPosition.bytes).2 :=
    congrArg Prod.snd hchar
  have hbytes : addU32 self.currentPosition.bytes self.lookaheadSize =
      self.currentPosition.bytes + (reading.charAt self.currentPosition.bytes).1 := by
    rw [hsize]
    exact addU32_of_lt hsmall
  have hne : self.lookaheadSize ≠ 0 := by omega
  rw [passLookahead, if_pos hne]
  by_cases hline : (reading.charAt self.currentPosition.bytes).2 = 10
  · have hcount (value : Nat) : reading.countAfter self.currentPosition.bytes value = 0 :=
      if_pos hline
    rw [if_pos (hcode.trans hline)]
    exact ⟨hbytes, fun _ => ⟨rfl, rfl⟩, fun hother => absurd hline hother,
      fun _ => by rw [hcount]; rfl, fun hother => absurd hline hother, rfl⟩
  · rw [if_neg (hcode ▸ hline)]
    -- The column counts characters, the extent bytes.
    have hextent (columnData : ColumnData)
        (hcolumn : self.currentPosition.extent.column ≤ self.currentPosition.bytes) :
        lineStart ⟨addU32 self.currentPosition.bytes self.lookaheadSize,
            self.currentPosition.extent.row,
            addU32 self.currentPosition.extent.column self.lookaheadSize⟩ =
          lineStart self.currentPosition ∧
        addU32 self.currentPosition.extent.column self.lookaheadSize ≤
          addU32 self.currentPosition.bytes self.lookaheadSize := by
      rw [hbytes, addU32_of_lt (by omega), hsize]
      simp only [lineStart]
      omega
    by_cases hbom : self.currentPosition.bytes = 0 ∧ self.lookahead = byteOrderMark
    · have hcount (value : Nat) : reading.countAfter self.currentPosition.bytes value = value := by
        rw [Reading.countAfter]
        simp only [if_neg hline]
        exact if_pos ⟨hbom.1, hcode ▸ hbom.2⟩
      have hflag : (decide (self.currentPosition.bytes = 0) &&
          decide (self.lookahead = byteOrderMark)) = true := by
        simp [hbom.1, hbom.2]
      rw [hflag]
      refine ⟨hbytes, fun hother => absurd hother hline,
        fun _ hcolumn => hextent self.columnData hcolumn, fun hvalid => ?_, fun _ hvalid => hvalid,
        rfl⟩
      have hself : self.columnData = ⟨self.columnData.value, true⟩ := by rw [← hvalid]
      rw [hcount]
      exact hself
    · have hcount (value : Nat) :
          reading.countAfter self.currentPosition.bytes value = addU32 value 1 := by
        rw [Reading.countAfter]
        simp only [if_neg hline]
        exact if_neg fun hboth => hbom ⟨hboth.1, hcode.trans hboth.2⟩
      have hflag : (decide (self.currentPosition.bytes = 0) &&
          decide (self.lookahead = byteOrderMark)) = false := by
        rw [← Bool.decide_and]
        exact decide_eq_false hbom
      rw [hflag, incrementColumnData]
      cases hvalid : self.columnData.valid with
      | true =>
        refine ⟨hbytes, fun hother => absurd hother hline,
          fun _ hcolumn => hextent self.columnData hcolumn, fun _ => ?_,
          fun _ hfalse => absurd (hvalid.symm.trans hfalse) Bool.noConfusion, rfl⟩
        rw [hcount]
        simp [hvalid]
      | false =>
        refine ⟨hbytes, fun hother => absurd hother hline,
          fun _ hcolumn => hextent self.columnData hcolumn,
          fun htrue => absurd (hvalid.symm.trans htrue) Bool.noConfusion, fun _ _ => hvalid, rfl⟩

/-- What an advance does to a lexer that has read a character. -/
structure Advances (reading : Reading) (lexer lexer' : Lexer) : Prop where
  on : lexer'.On reading
  readChunk : lexer'.ReadChunk
  place : lexer'.place = reading.nextPlace lexer.currentIncludedRangeIndex
    lexer.currentPosition.bytes
  loaded : lexer'.eof = false → lexer'.Loaded reading
  columnData : lexer'.columnData = lexer.passLookahead.columnData
  position : lexer'.currentPosition = lexer.entered.1.currentPosition

theorem eof_eq_false_iff (h : self.On reading) :
    self.eof = false ↔ ∃ range, reading.ranges[self.currentIncludedRangeIndex]? = some range := by
  have hle := h.index_le
  rw [eof, decide_eq_false_iff_not, h.ranges]
  constructor
  · intro hne
    exact ⟨_, getElem?_eq_getElem (by omega)⟩
  · rintro ⟨range, hget⟩
    have := (List.getElem?_eq_some_iff.mp hget).1
    omega

/-- The lexer behind the current character, in the range where it goes on. -/
theorem entered_enters (hvalid : reading.Valid) (h : self.On reading) (heof : self.eof = false) :
    Enters reading.ranges self.passLookahead self.entered := by
  obtain ⟨range, hget⟩ := (eof_eq_false_iff h).mp heof
  rw [entered]
  refine enterRange_enters hvalid.startByte_le ?_ ?_
  · rw [passLookahead_includedRanges, h.ranges]
  · rw [passLookahead_includedRanges, passLookahead_index, h.ranges]
    exact fun hnil => absurd (drop_eq_nil_iff.mp hnil)
      (not_le.mpr (List.getElem?_eq_some_iff.mp hget).1)

theorem doAdvance_eq (skip : Bool) (h : self.On reading) (heof : self.eof = false) :
    self.doAdvance skip =
      let lexer := if skip then { self.entered.1 with
        tokenStartPosition := self.entered.1.currentPosition } else self.entered.1
      if self.entered.2 then lexer.load
      else some { lexer.clearChunk with lookahead := 0, lookaheadSize := 1 } := by
  obtain ⟨range, hget⟩ := (eof_eq_false_iff h).mp heof
  have hpassed : self.passLookahead.includedRanges[self.passLookahead.currentIncludedRangeIndex]? =
      some range := by
    rw [passLookahead_includedRanges, passLookahead_index, h.ranges, hget]
  rw [doAdvance, hpassed]
  rfl

theorem entered_on (hvalid : reading.Valid) (h : self.On reading) (hloaded : self.Loaded reading)
    (heof : self.eof = false) : self.entered.1.On reading ∧ self.entered.1.ReadChunk := by
  have hpasses := passLookahead_passes h hloaded
  have henters := entered_enters hvalid h heof
  have hframe : self.entered.1 = { self with
      currentPosition := self.entered.1.currentPosition
      columnData := self.entered.1.columnData
      currentIncludedRangeIndex := self.entered.1.currentIncludedRangeIndex } := by
    rw [henters.frame, hpasses.frame]
  refine ⟨⟨?_, ?_, ?_, ?_⟩, ?_⟩
  · rw [hframe]
    exact h.steady
  · rw [hframe]
    exact h.ranges
  · cases hflag : self.entered.2 with
    | true =>
      obtain ⟨range, hget, -⟩ := henters.inRange hflag
      exact (List.getElem?_eq_some_iff.mp hget).1.le
    | false => exact (henters.afterAll hflag).le
  · intro range hget
    cases hflag : self.entered.2 with
    | true =>
      obtain ⟨other, hother, hlt, -⟩ := henters.inRange hflag
      cases hget.symm.trans hother
      refine ⟨?_, hlt⟩
      rcases henters.moved with ⟨hposition, hindex⟩ | ⟨k, other, -, -, hother, hposition, hk⟩
      · -- It is the range that the lexer was in.
        rw [hindex hflag, passLookahead_index] at hget
        rw [hposition, hpasses.bytes]
        exact (h.inRange range hget).1.trans (Nat.le_add_right _ _)
      · rw [hk hflag] at hother
        cases hget.symm.trans hother
        rw [hposition]
    | false =>
      rw [henters.afterAll hflag, getElem?_eq_none le_rfl] at hget
      cases hget
  · rw [hframe]
    exact hloaded.readChunk

theorem place_of_eof_eq_false (h : self.eof = false) :
    self.place = .at self.currentIncludedRangeIndex self.currentPosition.bytes := by
  rw [place, h]
  rfl

theorem nextPlace_eq (hvalid : reading.Valid) (h : self.On reading)
    (hloaded : self.Loaded reading) (heof : self.eof = false) :
    reading.nextPlace self.currentIncludedRangeIndex self.currentPosition.bytes =
      if self.entered.2 then reading.arrive self.entered.1.currentIncludedRangeIndex
        self.entered.1.currentPosition.bytes
      else .eof := by
  have hplace := (entered_enters hvalid h heof).place
  rw [passLookahead_index, (passLookahead_passes h hloaded).bytes] at hplace
  rw [Reading.nextPlace, ← hplace]
  cases self.entered.2 <;> simp

theorem on_end (h : self.On reading) (hinput : self'.input = self.input)
    (hranges : self'.includedRanges = self.includedRanges)
    (hindex : self'.currentIncludedRangeIndex = self.includedRanges.length)
    (hchunk : self'.chunk = none) :
    self'.On reading ∧ self'.ReadChunk ∧ self'.eof = true := by
  rw [h.ranges] at hindex
  refine ⟨⟨hinput ▸ h.steady, hranges.trans h.ranges, hindex.le, ?_⟩, ?_, ?_⟩
  · intro range hget
    rw [hindex, getElem?_eq_none le_rfl] at hget
    cases hget
  · intro chunk hsome
    cases hchunk.symm.trans hsome
  · rw [eof, hranges, h.ranges, hindex]
    exact decide_eq_true rfl

theorem doAdvance_advances (hvalid : reading.Valid) (h : self.On reading)
    (hloaded : self.Loaded reading) (heof : self.eof = false) (skip : Bool) :
    ∃ self', self.doAdvance skip = some self' ∧ Advances reading self self' := by
  have henters := entered_enters hvalid h heof
  obtain ⟨hon, hread⟩ := entered_on hvalid h hloaded heof
  have hcolumn : self.entered.1.columnData = self.passLookahead.columnData := by
    rw [henters.frame]
  have hplace := nextPlace_eq hvalid h hloaded heof
  rw [doAdvance_eq skip h heof]
  -- The start of the token does not matter.
  obtain ⟨lexer, hlexer, honLexer, hreadLexer, hsame⟩ : ∃ lexer, lexer = (if skip then
      { self.entered.1 with tokenStartPosition := self.entered.1.currentPosition }
      else self.entered.1) ∧ lexer.On reading ∧ lexer.ReadChunk ∧
        SamePlace self.entered.1 lexer := by
    cases skip with
    | true =>
      exact ⟨_, rfl, ⟨hon.steady, hon.ranges, hon.index_le, hon.inRange⟩, hread,
        ⟨rfl, rfl, rfl, rfl, rfl⟩⟩
    | false => exact ⟨_, rfl, hon, hread, ⟨rfl, rfl, rfl, rfl, rfl⟩⟩
  dsimp only
  rw [← hlexer]
  cases hflag : self.entered.2 with
  | true =>
    simp only [if_true]
    rw [hflag, if_pos rfl, ← hsame.index, ← hsame.currentPosition, Reading.arrive] at hplace
    by_cases hlt : lexer.currentPosition.bytes < reading.length
    · obtain ⟨self', hself', hsame', hloaded'⟩ := load_spec honLexer hreadLexer hlt
      obtain ⟨range, hget, -⟩ := henters.inRange hflag
      have heof' : self'.eof = false := by
        refine (eof_eq_false_iff (honLexer.of_samePlace hsame')).mpr ⟨range, ?_⟩
        rw [hsame'.index, hsame.index, hget]
      refine ⟨self', hself', honLexer.of_samePlace hsame', hloaded'.readChunk, ?_,
        fun _ => hloaded', ?_, ?_⟩
      · rw [place_of_eof_eq_false heof', hplace, if_pos hlt, hsame'.index, hsame'.currentPosition]
      · rw [hsame'.columnData, hsame.columnData, hcolumn]
      · rw [hsame'.currentPosition, hsame.currentPosition]
    · have hle := not_lt.mp hlt
      have hchunk := getChunk_end honLexer hle
      obtain ⟨hon', hread', heof'⟩ := @on_end reading lexer
        { lexer.getChunk with lookaheadSize := 1, lookahead := 0 } honLexer
        (by rw [hchunk]) (by rw [hchunk]) (by rw [hchunk]) (by rw [hchunk])
      refine ⟨_, load_end honLexer hreadLexer hle, hon', hread', ?_,
        fun hfalse => absurd (heof'.symm.trans hfalse) Bool.noConfusion, ?_, ?_⟩
      · rw [place, heof', hplace, if_neg hlt]
        rfl
      · rw [hchunk]
        exact hsame.columnData.trans hcolumn
      · rw [hchunk]
        exact hsame.currentPosition
  | false =>
    simp only [Bool.false_eq_true, if_false]
    rw [hflag] at hplace
    have hindex := henters.afterAll hflag
    obtain ⟨hon', hread', heof'⟩ := @on_end reading lexer
      { lexer.clearChunk with lookahead := 0, lookaheadSize := 1 } honLexer rfl rfl
      (by rw [honLexer.ranges, ← hindex]; exact hsame.index) rfl
    refine ⟨_, rfl, hon', hread', ?_,
      fun hfalse => absurd (heof'.symm.trans hfalse) Bool.noConfusion,
      hsame.columnData.trans hcolumn, hsame.currentPosition⟩
    rw [place, heof', hplace]
    rfl

/-! ### The column that is kept -/

/-- The column is the number of characters from the start of the line. -/
structure Tracks (reading : Reading) (lexer : Lexer) : Prop where
  column_le : lexer.currentPosition.extent.column ≤ lexer.currentPosition.bytes
  counts : lexer.eof = false → reading.Counts (lineStart lexer.currentPosition)
    lexer.currentIncludedRangeIndex lexer.currentPosition.bytes lexer.columnData.value
  countsToEnd : lexer.eof = true → reading.CountsToEnd (lineStart lexer.currentPosition)
    lexer.currentPosition.bytes lexer.columnData.value

theorem Tracks.setColumnData (h : self.Tracks reading) {value : Nat}
    (hvalue : self.columnData.value = value) : (self.setColumnData value).Tracks reading := by
  subst hvalue
  exact ⟨h.column_le, h.counts, h.countsToEnd⟩

theorem Tracks.of_setColumnData {value : Nat} (h : (self.setColumnData value).Tracks reading)
    (hdata : self.columnData = ⟨value, true⟩) : self.Tracks reading := by
  obtain rfl : value = self.columnData.value := by rw [hdata]
  exact ⟨h.column_le, h.counts, h.countsToEnd⟩

section

variable (hvalid : reading.Valid) (h : self.On reading)

include hvalid h

theorem entered_over
    (hloaded : self.Loaded reading) (heof : self.eof = false) {k : Nat} {range : TSRange}
    (hk : k < self.entered.1.currentIncludedRangeIndex) (hget : reading.ranges[k]? = some range) :
    range.endByte = range.startByte ∨
      range.endByte ≤ self.passLookahead.currentPosition.bytes := by
  by_cases hlt : k < self.currentIncludedRangeIndex
  · right
    obtain ⟨current, hcurrent⟩ := (eof_eq_false_iff h).mp heof
    rw [(passLookahead_passes h hloaded).bytes]
    have hapart := hvalid.endByte_le hget hcurrent hlt
    have hin := (h.inRange current hcurrent).1
    omega
  · have hpassed := (entered_enters hvalid h heof).passed k range
      (by rw [passLookahead_index]; omega) hk hget
    exact hpassed.imp_right And.right

theorem entered_moved (heof : self.eof = false) :
    self.entered.1.currentPosition = self.passLookahead.currentPosition ∨
      ∃ k range, self.currentIncludedRangeIndex < k ∧ reading.ranges[k]? = some range ∧
        self.entered.1.currentPosition = ⟨range.startByte, range.startPoint⟩ ∧
        k ≤ self.entered.1.currentIncludedRangeIndex ∧
        (self.entered.2 = true → k = self.entered.1.currentIncludedRangeIndex) := by
  rcases (entered_enters hvalid h heof).moved with
    ⟨hposition, -⟩ | ⟨k, range, hk, hle, hget, hposition, hindex⟩
  · exact .inl hposition
  · rw [passLookahead_index] at hk
    exact .inr ⟨k, range, hk, hget, hposition, hle, hindex⟩

theorem lt_entered (hloaded : self.Loaded reading) (heof : self.eof = false) :
    self.currentPosition.bytes < self.entered.1.currentPosition.bytes := by
  have hpos := (h.steady.size _ hloaded.lt).1
  obtain ⟨current, hcurrent⟩ := (eof_eq_false_iff h).mp heof
  rcases entered_moved hvalid h heof with hposition | ⟨k, range, hk, hget, hposition, -⟩
  · rw [hposition, (passLookahead_passes h hloaded).bytes]
    omega
  · have hapart := hvalid.endByte_le hcurrent hget hk
    have hin := (h.inRange current hcurrent).2
    rw [hposition]
    exact hin.trans_le hapart

theorem landing_behind (hloaded : self.Loaded reading) (heof : self.eof = false)
    (hle : self.passLookahead.currentPosition.bytes ≤ self.entered.1.currentPosition.bytes) :
    reading.landing self.passLookahead.currentPosition.bytes =
      if self.entered.2 then some (self.entered.1.currentIncludedRangeIndex,
        self.entered.1.currentPosition.bytes)
      else none := by
  have henters := entered_enters hvalid h heof
  have hover {k : Nat} {range : TSRange}
      (hk : k < self.entered.1.currentIncludedRangeIndex) (hget : reading.ranges[k]? = some range) :
      ¬ (range.endByte > self.passLookahead.currentPosition.bytes ∧
        range.endByte > range.startByte) := by
    have := entered_over hvalid h hloaded heof hk hget
    omega
  cases hflag : self.entered.2 with
  | true =>
    obtain ⟨range, hget, hlt, hne⟩ := henters.inRange hflag
    have hstart := hvalid.startByte_le range (mem_of_getElem? hget)
    rw [if_pos rfl, Reading.landing_eq_some hget (by omega) (by omega)
      fun i other hi hother => hover hi hother]
    have hmax : max self.passLookahead.currentPosition.bytes range.startByte =
        self.entered.1.currentPosition.bytes := by
      rcases entered_moved hvalid h heof with
        hposition | ⟨k, other, -, hother, hposition, -, hk⟩
      · have hin := ((entered_on hvalid h hloaded heof).1.inRange range hget).1
        rw [hposition] at hin ⊢
        exact max_eq_left hin
      · rw [hk hflag] at hother
        cases hget.symm.trans hother
        rw [hposition] at hle ⊢
        exact max_eq_right hle
    rw [hmax]
  | false =>
    rw [if_neg Bool.false_ne_true]
    refine Reading.landing_eq_none fun range hrange => ?_
    obtain ⟨k, hk, rfl⟩ := mem_iff_getElem.mp hrange
    exact hover (by rw [henters.afterAll hflag]; exact hk) (getElem?_eq_getElem hk)

/-- From the line of a point that a range says it is at, with no text in front of it, the lexer
lands at that point. -/
theorem landing_at_point (heof : self.eof = false)
    (hmoved : self.entered.1.currentPosition ≠ self.passLookahead.currentPosition)
    (htext : NoText reading.ranges (lineStart self.entered.1.currentPosition)
      self.entered.1.currentPosition.bytes) :
    reading.landing (lineStart self.entered.1.currentPosition) =
      if self.entered.2 then some (self.entered.1.currentIncludedRangeIndex,
        self.entered.1.currentPosition.bytes)
      else none := by
  have henters := entered_enters hvalid h heof
  have hline : lineStart self.entered.1.currentPosition ≤
      self.entered.1.currentPosition.bytes := Nat.sub_le _ _
  obtain ⟨k, range, hk, hget, hposition, -, hindex⟩ :=
    (entered_moved hvalid h heof).resolve_left hmoved
  cases hflag : self.entered.2 with
  | true =>
    rw [hindex hflag] at hget
    obtain ⟨other, hother, hlt, -⟩ := henters.inRange hflag
    cases hget.symm.trans hother
    have hbytes : self.entered.1.currentPosition.bytes = range.startByte := by rw [hposition]
    rw [hbytes] at htext hline hlt ⊢
    rw [if_pos rfl]
    exact Reading.landing_of_noText hvalid hget htext hline hlt
  | false =>
    rw [if_neg Bool.false_ne_true]
    refine Reading.landing_eq_none fun other hother hin => ?_
    obtain ⟨m, hm, rfl⟩ := mem_iff_getElem.mp hother
    have hgetm := getElem?_eq_getElem hm
    have hcase := htext _ hother
    have hbytes : self.entered.1.currentPosition.bytes = range.startByte := by rw [hposition]
    rw [hbytes] at hcase
    -- A range with text is not behind the one that the lexer was in.
    have hle : m ≤ self.currentIncludedRangeIndex := by
      by_contra hgt
      have hpassed := henters.passed m _ (by rw [passLookahead_index]; omega)
        (by rw [henters.afterAll hflag]; exact hm) hgetm
      rw [passLookahead_index] at hpassed
      omega
    have hapart := hvalid.endByte_le hgetm hget (by omega)
    omega

/-- A lexer that lands from the start of the line where it goes on has counted nothing. -/
theorem tracks_of_landing (hloaded : self.Loaded reading) (heof : self.eof = false)
    (hadvances : Advances reading self self')
    (hcolumn : self'.currentPosition.extent.column ≤ self'.currentPosition.bytes)
    (hlanding : reading.landing (lineStart self'.currentPosition) =
      if self.entered.2 then some (self.entered.1.currentIncludedRangeIndex,
        self.entered.1.currentPosition.bytes)
      else none) : (self'.setColumnData 0).Tracks reading := by
  have hplace := hadvances.place.trans (nextPlace_eq hvalid h hloaded heof)
  refine ⟨hcolumn, fun hfalse => ?_, fun htrue => ?_⟩
  · replace hfalse : self'.eof = false := hfalse
    rw [place_of_eof_eq_false hfalse] at hplace
    cases hflag : self.entered.2 with
    | true =>
      rw [hflag, if_pos rfl] at hlanding hplace
      rw [Reading.arrive] at hplace
      split at hplace
      next hlt =>
        injection hplace with hindex hbytes
        rw [← hindex, ← hbytes] at hlanding
        exact .start hlanding (hbytes ▸ hlt)
      next => cases hplace
    | false =>
      rw [hflag] at hplace
      cases hplace
  · replace htrue : self'.eof = true := htrue
    have hend : self'.place = .eof := by
      rw [place, htrue]
      rfl
    rw [hend] at hplace
    cases hflag : self.entered.2 with
    | true =>
      rw [hflag, if_pos rfl] at hlanding hplace
      rw [Reading.arrive] at hplace
      split at hplace
      next => cases hplace
      next hle => exact .empty hlanding (not_lt.mp hle)
    | false =>
      rw [hflag] at hlanding
      exact .nothing hlanding

theorem tracks_of_lineStart (hloaded : self.Loaded reading) (heof : self.eof = false)
    (hadvances : Advances reading self self') {value : Nat}
    (htracks : (self.setColumnData value).Tracks reading)
    (hcolumn : self'.currentPosition.extent.column ≤ self'.currentPosition.bytes)
    (hline : lineStart self'.currentPosition = lineStart self.currentPosition) :
    (self'.setColumnData (reading.countAfter self.currentPosition.bytes value)).Tracks reading := by
  have hcounts : reading.Counts (lineStart self.currentPosition) self.currentIncludedRangeIndex
      self.currentPosition.bytes value := htracks.counts heof
  rw [← hline] at hcounts
  refine ⟨hcolumn, fun hfalse => ?_, fun htrue => ?_⟩
  · replace hfalse : self'.eof = false := hfalse
    have hplace := hadvances.place
    rw [place_of_eof_eq_false hfalse] at hplace
    exact .next hcounts hplace.symm
  · replace htrue : self'.eof = true := htrue
    have hend : self'.place = .eof := by
      rw [place, htrue]
      rfl
    have hlt := lt_entered hvalid h hloaded heof
    rw [← hadvances.position] at hlt
    exact .last hcounts hlt (hadvances.place.symm.trans hend)

/-- Advancing keeps the column of the line, whatever it was in front of a newline. -/
theorem advance_tracks (hloaded : self.Loaded reading) (heof : self.eof = false)
    (hadvances : Advances reading self self') {value : Nat}
    (htracks : (reading.charAt self.currentPosition.bytes).2 ≠ 10 →
      (self.setColumnData value).Tracks reading)
    (hkeeps : self.entered.1.currentPosition ≠ self.passLookahead.currentPosition →
      (self.passLookahead.setColumnData
        (reading.countAfter self.currentPosition.bytes value)).Anchors
          self.entered.1.currentPosition) :
    (self'.setColumnData (reading.countAfter self.currentPosition.bytes value)).Tracks reading := by
  have hpasses := passLookahead_passes h hloaded
  have hposition := hadvances.position
  -- The lexer stays on the line, or nothing has been counted.
  obtain ⟨hcolumn, hcase⟩ : self'.currentPosition.extent.column ≤ self'.currentPosition.bytes ∧
      (lineStart self'.currentPosition = lineStart self.passLookahead.currentPosition ∨
        self.entered.1.currentPosition ≠ self.passLookahead.currentPosition ∧
        reading.countAfter self.currentPosition.bytes value = 0 ∧
          NoText reading.ranges (lineStart self'.currentPosition) self'.currentPosition.bytes) := by
    by_cases hmoved : self.entered.1.currentPosition = self.passLookahead.currentPosition
    · rw [hposition, hmoved]
      refine ⟨?_, .inl rfl⟩
      by_cases hnewline : (reading.charAt self.currentPosition.bytes).2 = 10
      · rw [(hpasses.newline hnewline).1]
        exact Nat.zero_le _
      · exact (hpasses.lineStart hnewline (htracks hnewline).column_le).2
    · have hanchors := hkeeps hmoved
      rw [← hposition] at hanchors
      refine ⟨hanchors.1, hanchors.2.imp_right fun ⟨hzero, htext⟩ => ⟨hmoved, hzero, ?_⟩⟩
      rw [← h.ranges, ← @passLookahead_includedRanges self]
      exact htext
  rcases hcase with hline | ⟨hmoved, hzero, htext⟩
  · by_cases hnewline : (reading.charAt self.currentPosition.bytes).2 = 10
    · have hzero : reading.countAfter self.currentPosition.bytes value = 0 := if_pos hnewline
      have hstart : lineStart self'.currentPosition =
          self.passLookahead.currentPosition.bytes := by
        rw [hline, lineStart, (hpasses.newline hnewline).1, Nat.sub_zero]
      have hle : self.passLookahead.currentPosition.bytes ≤
          self.entered.1.currentPosition.bytes := by
        rw [← hstart, ← hposition]
        exact Nat.sub_le _ _
      rw [hzero]
      refine tracks_of_landing hvalid h hloaded heof hadvances hcolumn ?_
      rw [hstart]
      exact landing_behind hvalid h hloaded heof hle
    · have htracks := htracks hnewline
      refine tracks_of_lineStart hvalid h hloaded heof hadvances htracks hcolumn ?_
      exact hline.trans (hpasses.lineStart hnewline htracks.column_le).1
  · rw [hzero]
    refine tracks_of_landing hvalid h hloaded heof hadvances hcolumn ?_
    rw [hposition] at htext ⊢
    exact landing_at_point hvalid h heof hmoved htext

end

end Lexer

end TreeSitter.Lib
