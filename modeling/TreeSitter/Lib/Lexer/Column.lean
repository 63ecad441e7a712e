import TreeSitter.Lib.Lexer.Recount

/-!
# TreeSitter.Lib.Lexer.Column

The **column cache** of the lexer. `ts_lexer__get_column` counts the characters from the start of
the line, and the lexer keeps the count up to date as long as it only advances.

`Kept` is the invariant of a run, and `Runs.columnOfPosition` says that a column that is kept is the
one that is counted again, if the lexer keeps to one line whenever it keeps or counts a column. An
advance from a range on one line to a range on another one does not (`not_columnOfPosition`).
-/

namespace TreeSitter.Lib

open Option List

namespace Lexer

variable {reading : Reading} {self self' : Lexer}

/-! ### Calls -/

/-- The lexer's functions, without those that give it another text. -/
inductive Op where
  | reset (position : Length)
  | start
  | advance (skip : Bool)
  | markEnd
  | getColumn (fuel : Nat)
  | finish (lookaheadEndByte : Nat)

def Op.run (self : Lexer) : Op → Option Lexer
  | reset position => self.reset position
  | start => self.start
  | advance skip => self.advance skip
  | markEnd => self.markEnd
  | getColumn fuel => (self.getColumn fuel).map Prod.fst
  | finish lookaheadEndByte => (self.finish lookaheadEndByte).map Prod.fst

/-- `ts_lexer_start` has set up the token. -/
def restarted (self : Lexer) : Lexer :=
  { self with
    tokenStartPosition := self.currentPosition, tokenEndPosition := .undefined
    resultSymbol := 0, didGetColumn := false }

/-- `ts_lexer_start` has a chunk and a character. -/
def started (self : Lexer) : Option Lexer :=
  let self := if self.chunkSize = 0 then self.getChunk else self
  if self.lookaheadSize = 0 then self.getLookahead else some self

/-- At the first byte the column is zero, also if the lexer goes to a range behind a byte order
mark. -/
def StartsLine (self : Lexer) : Prop :=
  self.eof = false → self.currentPosition.bytes = 0 → self.currentPosition.extent.column = 0 ∧
    ∀ lexer, self.restarted.started = some lexer → lexer.lookahead = byteOrderMark →
      lexer.entered.1.currentPosition ≠ lexer.passLookahead.currentPosition →
        (lexer.passLookahead.setColumnData 0).Anchors lexer.entered.1.currentPosition

/-- Every advance of `advanceTo` keeps the line. -/
def AdvanceToKeepsLine (goalByte : Nat) : Nat → Lexer → Prop
  | 0, _ => True
  | fuel + 1, self =>
    self.currentPosition.bytes < goalByte → self.eof = false → self.KeepsLine ∧
      ∀ self', self.doAdvance false = some self' → AdvanceToKeepsLine goalByte fuel self'

/-- If the line starts at a point that a range says it is at, there is no text in front of it. -/
def LandsOnLine (self line : Lexer) : Prop :=
  line.currentPosition ≠ self.startOfCol →
    line.currentPosition.extent.column ≤ line.currentPosition.bytes ∧
      NoText line.includedRanges (lineStart line.currentPosition) line.currentPosition.bytes

/-- A column that is counted is counted on one line. -/
def CountsLine (self : Lexer) (fuel : Nat) : Prop :=
  self.columnData.valid = false → ∀ line,
    { self with didGetColumn := true }.goto self.startOfCol = some line →
      self.LandsOnLine line ∧ ∀ first, line.rewound.getLookahead = some first →
        AdvanceToKeepsLine self.currentPosition.bytes fuel first

/-- In a call, the lexer keeps or counts the column on one line. -/
def Op.KeepsLine (self : Lexer) : Op → Prop
  | start => self.StartsLine
  | advance _ => self.KeepsLine
  | getColumn fuel => self.CountsLine fuel
  | _ => True

/-- What holds of the lexer as long as it keeps the line. -/
structure Kept (reading : Reading) (lexer : Lexer) : Prop where
  ok : lexer.Ok
  on : lexer.On reading
  readChunk : lexer.ReadChunk
  read : lexer.eof = false →
    lexer.Loaded reading ∨ lexer.Unread ∧ lexer.columnData.valid = false
  tracks : lexer.columnData.valid = true → lexer.Tracks reading

theorem Kept.of_token (h : self.Kept reading) (tokenStart tokenEnd : Length) (symbol : Nat)
    (didGetColumn : Bool) :
    { self with
      tokenStartPosition := tokenStart, tokenEndPosition := tokenEnd, resultSymbol := symbol
      didGetColumn := didGetColumn }.Kept reading where
  ok := h.ok.of_token tokenStart tokenEnd symbol self.columnData didGetColumn
  on := ⟨h.on.steady, h.on.ranges, h.on.index_le, h.on.inRange⟩
  readChunk := h.readChunk
  read heof := (h.read heof).imp
    (fun hloaded => ⟨hloaded.readChunk, hloaded.inChunk, hloaded.lt, hloaded.character⟩)
    (fun hunread => ⟨⟨hunread.1.lookaheadSize, hunread.1.inChunk⟩, hunread.2⟩)
  tracks hvalid :=
    ⟨(h.tracks hvalid).column_le, (h.tracks hvalid).counts, (h.tracks hvalid).countsToEnd⟩

theorem Kept.of_loaded (hok : self.Ok) (hon : self.On reading) (hloaded : self.Loaded reading)
    (htracks : self.columnData.valid = true → self.Tracks reading) : self.Kept reading where
  ok := hok
  on := hon
  readChunk := hloaded.readChunk
  read _ := .inl hloaded
  tracks := htracks

variable {position : Length}

theorem Lands.kept (h : Lands reading position self self') (hok : self'.Ok)
    (hcolumn : self'.columnData.valid = false) : self'.Kept reading where
  ok := hok
  on := h.on
  readChunk := h.readChunk
  read heof := .inr ⟨(h.landed heof).1, hcolumn⟩
  tracks hvalid := absurd (hcolumn.symm.trans hvalid) Bool.noConfusion

theorem reset_kept (hvalid : reading.Valid) (h : self.Kept reading)
    (hself : self.reset position = some self') : self'.Kept reading := by
  rw [reset] at hself
  split at hself
  next hne =>
    obtain ⟨lexer, hlexer, hlands⟩ :=
      goto_lands hvalid h.on.steady h.on.ranges h.readChunk position
    cases hlexer.symm.trans hself
    refine hlands.kept (goto_ok h.ok.small hself) ?_
    exact Bool.eq_false_iff.mpr fun htrue => hne (hlands.columnData htrue).1
  next =>
    cases hself
    exact h

variable {skip : Bool}

theorem doAdvance_kept (hvalid : reading.Valid) (h : self.Kept reading)
    (hloaded : self.Loaded reading) (heof : self.eof = false) (hkeeps : self.KeepsLine)
    (hself : self.doAdvance skip = some self') :
    Advances reading self self' ∧ self'.Kept reading := by
  obtain ⟨lexer, hlexer, hadvances⟩ := doAdvance_advances hvalid h.on hloaded heof skip
  cases hlexer.symm.trans hself
  have hpasses := passLookahead_passes h.on hloaded
  refine ⟨hadvances, doAdvance_ok h.ok.small hself, hadvances.on, hadvances.readChunk,
    fun heof' => .inl (hadvances.loaded heof'), fun htrue => ?_⟩
  rw [hadvances.columnData] at htrue
  -- The column is valid behind a newline, or if it was before.
  have hdata : (reading.charAt self.currentPosition.bytes).2 = 10 ∨
      self.columnData.valid = true := by
    by_contra hneither
    rw [not_or, Bool.not_eq_true] at hneither
    rw [hpasses.invalid hneither.1 hneither.2] at htrue
    cases htrue
  have hcolumn : self.passLookahead.columnData =
      ⟨reading.countAfter self.currentPosition.bytes self.columnData.value, true⟩ := by
    rcases hdata with hnewline | hself
    · rw [(hpasses.newline hnewline).2, Reading.countAfter]
      simp [hnewline]
    · exact hpasses.valid hself
  have htracks : (self'.setColumnData (reading.countAfter self.currentPosition.bytes
      self.columnData.value)).Tracks reading := by
    refine advance_tracks hvalid h.on hloaded heof hadvances (fun hother => ?_) fun hmoved => ?_
    · exact (h.tracks (hdata.resolve_left hother)).setColumnData rfl
    · have hanchors := hkeeps (by rw [hcolumn]) hmoved
      exact ⟨hanchors.1, hanchors.2.imp_right fun hzero => ⟨by rw [← hzero.1, hcolumn]; rfl,
        hzero.2⟩⟩
  exact htracks.of_setColumnData (by rw [hadvances.columnData, hcolumn])

theorem doAdvance_unread (h : self.Kept reading) (hunread : self.Unread)
    (hcolumn : self.columnData.valid = false) (heof : self.eof = false)
    (hchunk : self.chunk.isSome) (hself : self.doAdvance skip = some self') :
    self'.Kept reading := by
  obtain ⟨range, hget⟩ := (eof_eq_false_iff h.on).mp heof
  have hpass : self.passLookahead = self := if_neg (not_not.mpr hunread.lookaheadSize)
  have hentered : self.entered = (self, true) := by
    obtain ⟨hlt, hrange⟩ := List.getElem?_eq_some_iff.mp hget
    have hin := h.on.inRange range hget
    rw [entered, hpass, h.on.ranges, drop_eq_getElem_cons hlt, hrange, enterRange_stay]
    rw [Passed, not_or]
    exact ⟨not_le.mpr hin.2, by omega⟩
  have hadvance := doAdvance_eq skip h.on heof
  rw [hself, hentered] at hadvance
  replace hadvance : some self' = load (if skip then
      { self with tokenStartPosition := self.currentPosition } else self) := hadvance
  obtain ⟨lexer, hlexer, hsame, hread⟩ : ∃ lexer, lexer = (if skip then
      { self with tokenStartPosition := self.currentPosition } else self) ∧
        SamePlace self lexer ∧ lexer.ReadChunk := by
    refine ⟨_, rfl, ?_⟩
    cases skip with
    | true | false => exact ⟨⟨rfl, rfl, rfl, rfl, rfl⟩, h.readChunk⟩
  rw [← hlexer] at hadvance
  have hlt : lexer.currentPosition.bytes < reading.length := by
    obtain ⟨chunk, hsome, -, hlt⟩ := hunread.inChunk hchunk
    rw [hsame.currentPosition]
    exact hlt.trans_le (h.on.chunk_within h.readChunk hsome).2
  have hon := h.on.of_samePlace hsame
  obtain ⟨loaded, hload, hsame', hloaded⟩ := load_spec hon hread hlt
  cases hadvance.trans hload
  refine .of_loaded (doAdvance_ok h.ok.small hself) (hon.of_samePlace hsame') hloaded
    fun htrue => ?_
  rw [hsame'.columnData, hsame.columnData, hcolumn] at htrue
  cases htrue

theorem advance_kept (hvalid : reading.Valid) (h : self.Kept reading) (hkeeps : self.KeepsLine)
    (hself : self.advance skip = some self') : self'.Kept reading := by
  cases hchunk : self.chunk with
  | none =>
    rw [advance, hchunk] at hself
    cases hself
    exact h
  | some chunk =>
    rw [advance_eq_doAdvance h.ok hchunk] at hself
    cases heof : self.eof with
    | true =>
      have hnone : self.includedRanges[self.currentIncludedRangeIndex]? = none :=
        getElem?_eq_none (of_decide_eq_true heof).ge
      rw [doAdvance_eq_none hnone] at hself
      cases hself
    | false =>
      rcases h.read heof with hloaded | ⟨hunread, hcolumn⟩
      · exact (doAdvance_kept hvalid h hloaded heof hkeeps hself).2
      · exact doAdvance_unread h hunread hcolumn heof (by rw [hchunk]; rfl) hself

/-! ### Starting and counting -/

/-- A lexer that starts has read the character, or the text is over. -/
theorem started_spec (h : self.Kept reading) (heof : self.eof = false)
    (hself : self.started = some self') :
    self'.On reading ∧ self'.ReadChunk ∧ self'.currentPosition = self.currentPosition ∧
      self'.columnData = self.columnData ∧
      ((self'.eof = false ∧ self'.Loaded reading ∧
          self'.currentIncludedRangeIndex = self.currentIncludedRangeIndex) ∨
        (self'.eof = true ∧ self'.lookahead = 0 ∧
          reading.length ≤ self.currentPosition.bytes)) := by
  rcases h.read heof with hloaded | ⟨hunread, hcolumn⟩
  · obtain ⟨chunk, hchunk, hle, hlt⟩ := hloaded.inChunk
    have hsize : self.lookaheadSize ≠ 0 := by
      have hchar : self.lookaheadSize = (reading.charAt self.currentPosition.bytes).1 :=
        congrArg Prod.fst hloaded.character
      rw [hchar]
      exact (h.on.steady.size _ hloaded.lt).1.ne'
    have hchunkSize : self.chunkSize ≠ 0 := by
      rw [chunkSize, hchunk]
      dsimp only
      omega
    rw [started, if_neg hchunkSize, if_neg hsize] at hself
    cases hself
    exact ⟨h.on, h.readChunk, rfl, rfl, .inl ⟨heof, hloaded, rfl⟩⟩
  · -- The character is read from the chunk, or from a new one.
    have hread {lexer : Lexer} (hsame : SamePlace self lexer) (hread : lexer.ReadChunk)
        (hin : lexer.InChunk) (hself : lexer.getLookahead = some self') :
        self'.On reading ∧ self'.ReadChunk ∧ self'.currentPosition = self.currentPosition ∧
          self'.columnData = self.columnData ∧ self'.eof = false ∧ self'.Loaded reading ∧
          self'.currentIncludedRangeIndex = self.currentIncludedRangeIndex := by
      have hon := h.on.of_samePlace hsame
      obtain ⟨loaded, hlookahead, hsame', hloaded⟩ := getLookahead_spec hon hread hin
      cases hself.symm.trans hlookahead
      exact ⟨hon.of_samePlace hsame', hloaded.readChunk,
        hsame'.currentPosition.trans hsame.currentPosition,
        hsame'.columnData.trans hsame.columnData,
        hsame'.eof_eq.trans (hsame.eof_eq.trans heof), hloaded, hsame'.index.trans hsame.index⟩
    rw [started] at hself
    cases hchunk : self.chunk with
    | some chunk =>
      have hin := hunread.inChunk (by rw [hchunk]; rfl)
      have hchunkSize : self.chunkSize ≠ 0 := by
        obtain ⟨chunk', hchunk', hle, hlt⟩ := hin
        rw [chunkSize, hchunk']
        dsimp only
        omega
      rw [if_neg hchunkSize, if_pos hunread.lookaheadSize] at hself
      obtain ⟨hon, hread', hposition, hdata, heof', hloaded, hindex⟩ :=
        hread ⟨rfl, rfl, rfl, rfl, rfl⟩ h.readChunk hin hself
      exact ⟨hon, hread', hposition, hdata, .inl ⟨heof', hloaded, hindex⟩⟩
    | none =>
      have hchunkSize : self.chunkSize = 0 := by rw [chunkSize, hchunk]
      have hsize : self.getChunk.lookaheadSize = 0 := by
        rw [getChunk]
        split <;> exact hunread.lookaheadSize
      rw [if_pos hchunkSize, if_pos hsize] at hself
      by_cases hlt : self.currentPosition.bytes < reading.length
      · obtain ⟨hsame, hreadChunk, hin, -⟩ := getChunk_spec h.on hlt
        obtain ⟨hon, hread', hposition, hdata, heof', hloaded, hindex⟩ :=
          hread hsame hreadChunk hin hself
        exact ⟨hon, hread', hposition, hdata, .inl ⟨heof', hloaded, hindex⟩⟩
      · have hle := not_lt.mp hlt
        have hend : self.getChunk.getLookahead =
            some { self.getChunk with lookaheadSize := 1, lookahead := 0 } := by
          rw [getChunk_end h.on hle, getLookahead]
          simp [chunkSize, subU32]
        have hget := getChunk_end h.on hle
        cases hself.symm.trans hend
        obtain ⟨hon, hread', heof'⟩ := @on_end reading self
          { self.getChunk with lookaheadSize := 1, lookahead := 0 } h.on
          (by rw [hget]) (by rw [hget]) (by rw [hget]) (by rw [hget])
        exact ⟨hon, hread', by rw [hget], by rw [hget], .inr ⟨heof', rfl, hle⟩⟩

/-- At the first byte, in a range, the lexer is where the text starts. -/
theorem landing_zero (hvalid : reading.Valid) (h : self.On reading) (heof : self.eof = false)
    (hzero : self.currentPosition.bytes = 0) :
    reading.landing 0 = some (self.currentIncludedRangeIndex, 0) := by
  obtain ⟨range, hget⟩ := (eof_eq_false_iff h).mp heof
  obtain ⟨hstart, hend⟩ := h.inRange range hget
  rw [hzero] at hstart hend
  have hstartByte : range.startByte = 0 := Nat.le_zero.mp hstart
  rw [Reading.landing_eq_some hget hend (by omega), hstartByte]
  · rfl
  · intro i other hi hother hin
    have hapart := hvalid.endByte_le hother hget hi
    omega

theorem start_eq (heof : self.eof = false) :
    self.start = self.restarted.started >>= fun lexer =>
      if lexer.currentPosition.bytes = 0 then
        (if lexer.lookahead = byteOrderMark then lexer.advance true else some lexer) >>=
          fun lexer => some (lexer.setColumnData 0)
      else some lexer := by
  rw [start]
  exact if_neg (by rw [Bool.not_eq_true]; exact heof)

theorem started_ok (h : self.Ok) (hself : self.started = some self') : self'.Ok := by
  rw [started] at hself
  have hok : (if self.chunkSize = 0 then self.getChunk else self).Ok := by
    split
    · exact getChunk_ok h
    · exact h
  generalize (if self.chunkSize = 0 then self.getChunk else self) = lexer at hok hself
  split at hself
  · exact getLookahead_ok hok.toPlaced hself
  · cases hself
    exact hok

theorem setColumnData_kept {value : Nat} (hok : self.Ok) (hon : self.On reading)
    (hread : self.ReadChunk) (hloaded : self.eof = false → self.Loaded reading)
    (htracks : (self.setColumnData value).Tracks reading) :
    (self.setColumnData value).Kept reading where
  ok := hok.of_token self.tokenStartPosition self.tokenEndPosition self.resultSymbol
    ⟨value, true⟩ self.didGetColumn
  on := hon.setColumnData value
  readChunk := hread
  read heof :=
    .inl ⟨hread, (hloaded heof).inChunk, (hloaded heof).lt, (hloaded heof).character⟩
  tracks _ := htracks

theorem start_kept (hvalid : reading.Valid) (h : self.Kept reading) (hkeeps : self.StartsLine)
    (hself : self.start = some self') : self'.Kept reading := by
  have hrestarted : self.restarted.Kept reading := h.of_token _ _ _ _
  cases heof : self.eof with
  | true =>
    have hstart : self.start = some self.restarted := if_pos heof
    cases hself.symm.trans hstart
    exact hrestarted
  | false =>
    rw [start_eq heof] at hself
    obtain ⟨lexer, hlexer, hself⟩ := bind_eq_some_iff.mp hself
    obtain ⟨hon, hread, hposition, hdata, hcase⟩ := started_spec hrestarted heof hlexer
    have hok := started_ok hrestarted.ok hlexer
    replace hposition : lexer.currentPosition = self.currentPosition := hposition
    replace hdata : lexer.columnData = self.columnData := hdata
    split at hself
    next hzero =>
      rw [hposition] at hzero
      obtain ⟨hcolumn, hkeeps⟩ := hkeeps heof hzero
      obtain ⟨advanced, hadvanced, hself⟩ := bind_eq_some_iff.mp hself
      cases hself
      have hlanding := landing_zero hvalid h.on heof hzero
      have hline : lineStart self.currentPosition = 0 := by
        rw [lineStart, hzero, Nat.zero_sub]
      -- Nothing has been counted at the start of the text.
      have htracks : (lexer.setColumnData 0).Tracks reading := by
        have hstart : lineStart lexer.currentPosition = 0 := by rw [hposition, hline]
        have hle : lexer.currentPosition.extent.column ≤ lexer.currentPosition.bytes := by
          rw [hposition, hcolumn]
          exact Nat.zero_le _
        rcases hcase with ⟨heof', hloaded, hindex⟩ | ⟨htrue, -, hend⟩
        · refine ⟨hle, fun _ => ?_, fun htrue => ?_⟩
          · have hcounts : reading.Counts 0 self.currentIncludedRangeIndex 0 0 :=
              .start hlanding (hzero ▸ hposition ▸ hloaded.lt)
            change reading.Counts (lineStart lexer.currentPosition)
              lexer.currentIncludedRangeIndex lexer.currentPosition.bytes 0
            rw [hstart, hindex, hposition, hzero]
            exact hcounts
          · exact absurd (Eq.trans (Eq.symm htrue) heof') Bool.noConfusion
        · refine ⟨hle, fun heof' => ?_, fun _ => ?_⟩
          · exact absurd (Eq.trans (Eq.symm htrue) heof') Bool.noConfusion
          · change reading.CountsToEnd (lineStart lexer.currentPosition)
              lexer.currentPosition.bytes 0
            rw [hstart]
            exact .empty hlanding (hzero ▸ hend)
      have hloaded (heof' : lexer.eof = false) : lexer.Loaded reading := by
        rcases hcase with ⟨-, hloaded, -⟩ | ⟨htrue, -⟩
        · exact hloaded
        · exact absurd (htrue.symm.trans heof') Bool.noConfusion
      split at hadvanced
      next hbom =>
        have heof' : lexer.eof = false := by
          rcases hcase with ⟨heof', -⟩ | ⟨-, hlookahead, -⟩
          · exact heof'
          · rw [hlookahead] at hbom
            exact absurd hbom (by decide)
        have hloaded := hloaded heof'
        obtain ⟨chunk, hchunk, -⟩ := hloaded.inChunk
        rw [advance_eq_doAdvance hok hchunk] at hadvanced
        obtain ⟨next, hnext, hadvances⟩ := doAdvance_advances hvalid hon hloaded heof' true
        cases hadvanced.symm.trans hnext
        have hcount : reading.countAfter lexer.currentPosition.bytes 0 = 0 := by
          have hcode : (reading.charAt lexer.currentPosition.bytes).2 = byteOrderMark :=
            (congrArg Prod.snd hloaded.character).symm.trans hbom
          rw [Reading.countAfter, hcode, hposition, hzero]
          decide
        have hnextTracks := advance_tracks hvalid hon hloaded heof' hadvances (fun _ => htracks)
          fun hmoved => by
            rw [hcount]
            exact hkeeps lexer hlexer hbom hmoved
        rw [hcount] at hnextTracks
        exact setColumnData_kept (doAdvance_ok hok.small hadvanced) hadvances.on
          hadvances.readChunk hadvances.loaded hnextTracks
      next =>
        cases hadvanced
        exact setColumnData_kept hok hon hread hloaded htracks
    next hne =>
      cases hself
      refine ⟨hok, hon, hread, fun heof' => ?_, fun htrue => ?_⟩
      · rcases hcase with ⟨-, hloaded, -⟩ | ⟨htrue, -⟩
        · exact .inl hloaded
        · exact absurd (htrue.symm.trans heof') Bool.noConfusion
      · rw [hdata] at htrue
        have hloaded := (h.read heof).resolve_right fun hunread =>
          Bool.noConfusion (hunread.2.symm.trans htrue)
        have hselfTracks := h.tracks htrue
        rcases hcase with ⟨heof', -, hindex⟩ | ⟨-, -, hle⟩
        · replace hindex : self'.currentIncludedRangeIndex = self.currentIncludedRangeIndex :=
            hindex
          refine ⟨by rw [hposition]; exact hselfTracks.column_le, fun _ => ?_, fun heofTrue => ?_⟩
          · rw [hposition, hindex, hdata]
            exact hselfTracks.counts heof
          · exact absurd (heofTrue.symm.trans heof') Bool.noConfusion
        · exact absurd hloaded.lt (not_lt.mpr hle)

theorem Kept.loaded (h : self.Kept reading) (heof : self.eof = false)
    (hcolumn : self.columnData.valid = true) : self.Loaded reading :=
  (h.read heof).resolve_right fun hunread => Bool.noConfusion (hunread.2.symm.trans hcolumn)

variable {fuel : Nat}

theorem advanceTo_kept (hvalid : reading.Valid) {goalByte : Nat} (h : self.Kept reading)
    (hcolumn : self.columnData.valid = true) (hkeeps : self.AdvanceToKeepsLine goalByte fuel)
    (hself : advanceTo goalByte fuel self = some self') : self'.Kept reading := by
  induction fuel generalizing self with
  | zero => cases hself
  | succ fuel ih =>
    rw [advanceTo] at hself
    split at hself
    next hmore =>
      obtain ⟨hlt, heof, -⟩ := hmore
      rw [Bool.not_eq_true'] at heof
      obtain ⟨next, hnext, hself⟩ := bind_eq_some_iff.mp hself
      have hloaded := h.loaded heof hcolumn
      obtain ⟨hkeepsLine, hkeeps⟩ := hkeeps hlt heof
      obtain ⟨hadvances, hkept⟩ := doAdvance_kept hvalid h hloaded heof hkeepsLine hnext
      refine ih hkept ?_ (hkeeps next hnext) hself
      rw [hadvances.columnData, (passLookahead_passes h.on hloaded).valid hcolumn]
    next =>
      cases hself
      exact h

theorem LandsOnLine.landing {line lexer : Lexer} (hvalid : reading.Valid)
    (h : self.LandsOnLine line) (hlands : Lands reading self.startOfCol lexer line) :
    line.currentPosition.extent.column ≤ line.currentPosition.bytes ∧
      reading.landing (lineStart line.currentPosition) =
        if line.eof then none
        else some (line.currentIncludedRangeIndex, line.currentPosition.bytes) := by
  by_cases hmoved : line.currentPosition = self.startOfCol
  · have hstart : lineStart line.currentPosition = self.startOfCol.bytes := by
      rw [hmoved]
      exact Nat.sub_zero _
    refine ⟨by rw [hmoved]; exact Nat.zero_le _, ?_⟩
    rw [hstart]
    cases heof : line.eof with
    | true => exact (hlands.ended heof).1
    | false => exact (hlands.landed heof).2
  · obtain ⟨hcolumn, htext⟩ := h hmoved
    refine ⟨hcolumn, ?_⟩
    rw [hlands.on.ranges] at htext
    have hline : lineStart line.currentPosition ≤ line.currentPosition.bytes := Nat.sub_le _ _
    cases heof : line.eof with
    | true =>
      rw [if_pos rfl]
      refine Reading.landing_eq_none fun range hrange hin => ?_
      have hover := (hlands.ended heof).2 range hrange
      have hcase := htext range hrange
      omega
    | false =>
      obtain ⟨range, hget⟩ := (eof_eq_false_iff hlands.on).mp heof
      obtain ⟨hstart, hend⟩ := hlands.on.inRange range hget
      have hcase := htext range (mem_of_getElem? hget)
      -- There is text at the position, so the range starts there.
      have hbyte : line.currentPosition.bytes = range.startByte := by omega
      rw [if_neg Bool.false_ne_true, hbyte]
      rw [hbyte] at htext hline hend
      exact Reading.landing_of_noText hvalid hget htext hline hend

theorem getColumn_kept (hvalid : reading.Valid) (h : self.Kept reading) {column : Nat}
    (hkeeps : self.CountsLine fuel) (hself : self.getColumn fuel = some (self', column)) :
    self'.Kept reading := by
  have hok := getColumn_ok h.ok hself
  cases hcolumn : self.columnData.valid with
  | true =>
    have hcached : self.getColumn fuel =
        some ({ self with didGetColumn := true }, self.columnData.value) := if_pos hcolumn
    cases hself.symm.trans hcached
    exact h.of_token _ _ _ _
  | false =>
    obtain ⟨line, hline, hlands⟩ := @goto_lands reading { self with didGetColumn := true } hvalid
      h.on.steady h.on.ranges h.readChunk self.startOfCol
    rw [getColumn_of_invalid hcolumn, hline, bind_some, countColumn] at hself
    obtain ⟨hlandsOn, hkeeps⟩ := hkeeps hcolumn line hline
    obtain ⟨hle, hlanding⟩ := hlandsOn.landing hvalid hlands
    by_cases hend : line.eof = true ∨ reading.length ≤ line.currentPosition.bytes
    · obtain ⟨heof, hon, hread, hposition, hdata⟩ := rewound_end hlands.on hend
      rw [if_pos heof] at hself
      cases hself
      refine ⟨hok, hon, hread, fun hfalse => absurd (heof.symm.trans hfalse) Bool.noConfusion,
        fun _ => ⟨by rw [hposition]; exact hle,
          fun hfalse => absurd (heof.symm.trans hfalse) Bool.noConfusion, fun _ => ?_⟩⟩
      rw [hposition, hdata]
      cases hlineEof : line.eof with
      | true =>
        rw [hlineEof, if_pos rfl] at hlanding
        exact .nothing hlanding
      | false =>
        rw [hlineEof, if_neg Bool.false_ne_true] at hlanding
        exact .empty hlanding
          (hend.resolve_left (by rw [hlineEof]; exact Bool.false_ne_true))
    · rw [not_or, Bool.not_eq_true, not_le] at hend
      obtain ⟨hlineEof, hlt⟩ := hend
      obtain ⟨heof, first, hfirst, hsame, hloaded⟩ := rewound_loaded hlands.on hlineEof hlt
      rw [hlineEof, if_neg Bool.false_ne_true] at hlanding
      rw [heof, if_neg Bool.false_ne_true, hfirst, bind_eq_bind, bind_some] at hself
      obtain ⟨last, hlast, hself⟩ := bind_eq_some_iff.mp hself
      cases hself
      have hon := (hlands.on.setColumnData 0).of_samePlace hsame
      have hdata : first.columnData = ⟨0, true⟩ := hsame.columnData
      have hposition : first.currentPosition = line.currentPosition := hsame.currentPosition
      have hindex : first.currentIncludedRangeIndex = line.currentIncludedRangeIndex :=
        hsame.index
      have htracks : first.Tracks reading := by
        refine ⟨by rw [hposition]; exact hle, fun _ => ?_, fun htrue => ?_⟩
        · rw [hposition, hindex, hdata]
          exact .start hlanding hlt
        · exact absurd (htrue.symm.trans (hsame.eof_eq.trans hlineEof)) Bool.noConfusion
      have hfirstOk : first.Ok := by
        have hlineOk : line.Ok := goto_ok (by exact h.ok.small) hline
        exact getLookahead_ok (getChunk_ok (hlineOk.of_token line.tokenStartPosition
          line.tokenEndPosition line.resultSymbol ⟨0, true⟩ line.didGetColumn)).toPlaced hfirst
      exact advanceTo_kept hvalid (.of_loaded hfirstOk hon hloaded fun _ => htracks)
        (by rw [hdata]) (hkeeps first hfirst) hlast

/-! ### Runs -/

/-- A lexer that calls lead to, from a new one that reads some ranges of an input, if each call
meets a condition. -/
inductive Runs (keeps : Lexer → Op → Prop) (input : TSInput) (ranges : List TSRange) :
    Lexer → Prop where
  | init {self self' : Lexer} (hinit : Lexer.init input = some self)
      (hranges : self.setIncludedRanges ranges = some (self', true)) :
      Runs keeps input ranges self'
  | call {self self' : Lexer} (h : Runs keeps input ranges self) (op : Op)
      (hself : op.run self = some self') (hkeeps : keeps self op) : Runs keeps input ranges self'

/-- The column that the lexer has kept is the one that is counted from the start of the line. -/
def ColumnOfPosition (self : Lexer) : Prop :=
  self.columnData.valid = true → ∃ fuel cached recomputed column,
    self.getColumn fuel = some (cached, column) ∧
      self.invalidateColumnData.getColumn fuel = some (recomputed, column)

theorem Op.run_kept (hvalid : reading.Valid) (h : self.Kept reading) {op : Op}
    (hself : op.run self = some self') (hkeeps : op.KeepsLine self) : self'.Kept reading := by
  cases op with
  | reset position => exact reset_kept hvalid h hself
  | start => exact start_kept hvalid h hkeeps hself
  | advance skip => exact advance_kept hvalid h hkeeps hself
  | markEnd =>
    obtain ⟨position, rfl⟩ := markEnd_eq hself
    exact h.of_token _ _ _ _
  | getColumn fuel =>
    obtain ⟨⟨lexer, column⟩, hcolumn, rfl⟩ := map_eq_some_iff.mp hself
    exact getColumn_kept hvalid h hkeeps hcolumn
  | finish lookaheadEndByte =>
    obtain ⟨⟨lexer, endByte⟩, hfinish, rfl⟩ := map_eq_some_iff.mp hself
    obtain ⟨marked, hmarked, hfinish⟩ := bind_eq_some_iff.mp hfinish
    have hkept : marked.Kept reading := by
      split at hmarked
      · obtain ⟨position, rfl⟩ := markEnd_eq hmarked
        exact h.of_token _ _ _ _
      · cases hmarked
        exact h
    cases hfinish
    split
    · exact hkept.of_token _ _ _ _
    · exact hkept

variable {ranges : List TSRange}

theorem rangesInOrder_spec {previousByte : Nat} (h : rangesInOrder previousByte ranges = true) :
    (∀ range ∈ ranges, previousByte ≤ range.startByte ∧ range.startByte ≤ range.endByte) ∧
      ranges.Pairwise fun range next => range.endByte ≤ next.startByte := by
  induction ranges generalizing previousByte with
  | nil => exact ⟨nofun, .nil⟩
  | cons range ranges ih =>
    rw [rangesInOrder] at h
    split at h
    next => cases h
    next hrange =>
      rw [not_or, not_lt, not_lt] at hrange
      obtain ⟨hin, hpairwise⟩ := ih h
      refine ⟨fun other hother => ?_, pairwise_cons.mpr ⟨fun next hnext => ?_, hpairwise⟩⟩
      · rcases mem_cons.mp hother with rfl | hother
        · exact hrange
        · have hle := hin other hother
          omega
      · exact (hin next hnext).1

theorem goto_ranges_kept (hvalid : reading.Valid)
    (hsteady : self.input.Steady reading.length reading.charAt) (hread : self.ReadChunk)
    (hcolumn : self.columnData.valid = false)
    (hself : { self with includedRanges := reading.ranges }.goto position = some self') :
    self'.Kept reading ∧ self'.columnData.valid = false := by
  obtain ⟨lexer, hlexer, hlands⟩ := @goto_lands reading
    { self with includedRanges := reading.ranges } hvalid hsteady rfl hread position
  cases hself.symm.trans hlexer
  have hinvalid : self'.columnData.valid = false :=
    Bool.eq_false_iff.mpr fun htrue => Bool.noConfusion
      (hcolumn.symm.trans (hlands.columnData htrue).2)
  exact ⟨hlands.kept (goto_ok (by exact hvalid.small) hself) hinvalid, hinvalid⟩

theorem setIncludedRanges_kept {length : Nat} {charAt : Nat → Nat × Int}
    (hsteady : self.input.Steady length charAt) (hread : self.ReadChunk)
    (hcolumn : self.columnData.valid = false) (hsmall : ∀ range ∈ ranges, range.endByte < 2 ^ 32)
    (hself : self.setIncludedRanges ranges = some (self', true)) :
    ∃ reading : Reading, reading.length = length ∧ reading.charAt = charAt ∧ reading.Valid ∧
      self'.Kept reading ∧ self'.columnData.valid = false := by
  rw [setIncludedRanges] at hself
  split at hself
  next =>
    obtain ⟨lexer, hlexer, hself⟩ := bind_eq_some_iff.mp hself
    cases hself
    have hvalid : Reading.Valid ⟨length, charAt, [defaultRange]⟩ :=
      ⟨cons_ne_nil _ _, by simp [defaultRange], by simp [defaultRange], by simp⟩
    exact ⟨_, rfl, rfl, hvalid, goto_ranges_kept hvalid hsteady hread hcolumn hlexer⟩
  next hlength =>
    split at hself
    next horder =>
      obtain ⟨lexer, hlexer, hself⟩ := bind_eq_some_iff.mp hself
      cases hself
      obtain ⟨hin, hpairwise⟩ := rangesInOrder_spec horder
      have hvalid : Reading.Valid ⟨length, charAt, ranges⟩ :=
        ⟨fun hnil => hlength (length_eq_zero_iff.mpr hnil), hsmall,
          fun range hrange => (hin range hrange).2, hpairwise⟩
      exact ⟨_, rfl, rfl, hvalid, goto_ranges_kept hvalid hsteady hread hcolumn hlexer⟩
    next => cases hself

theorem Runs.kept {input : TSInput} {length : Nat} {charAt : Nat → Nat × Int}
    (hsteady : input.Steady length charAt) (hsmall : ∀ range ∈ ranges, range.endByte < 2 ^ 32)
    (h : Runs Op.KeepsLine input ranges self) :
    ∃ reading : Reading, reading.Valid ∧ self.Kept reading := by
  induction h with
  | init hinit hranges =>
    dsimp only [Lexer.init] at hinit
    obtain ⟨⟨lexer, done⟩, hlexer, hself⟩ := bind_eq_some_iff.mp hinit
    cases hself
    have hdone : done = true := by
      rw [setIncludedRanges] at hlexer
      obtain ⟨_, -, hself⟩ := bind_eq_some_iff.mp ((if_pos rfl).symm.trans hlexer)
      cases hself
      rfl
    rw [hdone] at hlexer
    have hnone : ∀ range ∈ ([] : List TSRange), range.endByte < 2 ^ 32 := nofun
    obtain ⟨before, hlength, hcharAt, -, hkept, hcolumn⟩ :=
      setIncludedRanges_kept hsteady (by exact nofun) rfl hnone hlexer
    obtain ⟨reading, -, -, hvalid, hkept, -⟩ := setIncludedRanges_kept
      (hlength ▸ hcharAt ▸ hkept.on.steady) hkept.readChunk hcolumn hsmall hranges
    exact ⟨reading, hvalid, hkept⟩
  | call h op hself hkeeps ih =>
    obtain ⟨reading, hvalid, hkept⟩ := ih
    exact ⟨reading, hvalid, op.run_kept hvalid hkept hself hkeeps⟩

/-- **The column is that of the position.** In every run that keeps to one line whenever it keeps
or counts a column, a column that is kept is the one that is counted again from the start of the
line. -/
theorem Runs.columnOfPosition {input : TSInput} {length : Nat}
    {charAt : Nat → Nat × Int} (hsteady : input.Steady length charAt) {ranges : List TSRange}
    (hsmall : ∀ range ∈ ranges, range.endByte < 2 ^ 32) (h : Runs Op.KeepsLine input ranges self) :
    self.ColumnOfPosition := by
  intro hcolumn
  obtain ⟨reading, hvalid, hkept⟩ := h.kept hsteady hsmall
  obtain ⟨fuel, recomputed, hrecomputed⟩ :=
    (hkept.tracks hcolumn).getColumn_invalidate hvalid hkept.on hkept.readChunk
  exact ⟨fuel, { self with didGetColumn := true }, recomputed, self.columnData.value,
    if_pos hcolumn, hrecomputed⟩

theorem advanceTo_unique {goalByte fuel' : Nat} {last last' : Lexer}
    (h : advanceTo goalByte fuel self = some last)
    (h' : advanceTo goalByte fuel' self = some last') : last = last' := by
  induction fuel generalizing self fuel' with
  | zero => cases h
  | succ fuel ih =>
    cases fuel' with
    | zero => cases h'
    | succ fuel' =>
      rw [advanceTo] at h h'
      split at h
      next hmore =>
        rw [if_pos hmore] at h'
        obtain ⟨next, hnext, h⟩ := bind_eq_some_iff.mp h
        rw [hnext] at h'
        exact ih h h'
      next hdone =>
        rw [if_neg hdone] at h'
        exact Option.some.inj (h.symm.trans h')

theorem getColumn_unique {fuel' : Nat} {result result' : Lexer × Nat}
    (h : self.getColumn fuel = some result) (h' : self.getColumn fuel' = some result') :
    result = result' := by
  cases hvalid : self.columnData.valid with
  | true =>
    have hcached (fuel : Nat) : self.getColumn fuel =
        some ({ self with didGetColumn := true }, self.columnData.value) := if_pos hvalid
    exact Option.some.inj (h.symm.trans ((hcached fuel).trans ((hcached fuel').symm.trans h')))
  | false =>
    rw [getColumn_of_invalid hvalid] at h h'
    obtain ⟨line, hline, h⟩ := bind_eq_some_iff.mp h
    rw [hline, bind_some] at h'
    rw [countColumn] at h h'
    split at h
    next heof =>
      rw [if_pos heof] at h'
      exact Option.some.inj (h.symm.trans h')
    next hneof =>
      rw [if_neg hneof] at h'
      obtain ⟨first, hfirst, h⟩ := bind_eq_some_iff.mp h
      rw [hfirst, bind_eq_bind, bind_some] at h'
      obtain ⟨last, hlast, h⟩ := bind_eq_some_iff.mp h
      obtain ⟨last', hlast', h'⟩ := bind_eq_some_iff.mp h'
      cases advanceTo_unique hlast hlast'
      exact Option.some.inj (h.symm.trans h')

def asciiInput (text : List Nat) (hascii : ∀ b ∈ text, b < 128) (hsmall : text.length < 2 ^ 32) :
    TSInput where
  encoding := .utf8
  read := fun _ byte _ => ⟨text.drop byte,
    fun b hb => (hascii b (mem_of_mem_drop hb)).trans (by decide),
    (length_drop ▸ Nat.sub_le _ _).trans_lt hsmall⟩
  decode := fun _ => none

theorem asciiInput_steady {text : List Nat} (hascii : ∀ b ∈ text, b < 128)
    (hsmall : text.length < 2 ^ 32) :
    (asciiInput text hascii hsmall).Steady text.length
      fun byte => (1, Int.ofNat (text.getD byte 0)) := by
  have hcharacter (byte : Nat) (hlt : byte < text.length) :
      (asciiInput text hascii hsmall).character (text.drop byte) =
        some (1, Int.ofNat (text.getD byte 0)) := by
    have hfirst : (text.drop byte)[0]? = some (text.getD byte 0) := by
      rw [getElem?_drop, Nat.add_zero, getElem?_eq_getElem hlt, getD_eq_getElem _ _ hlt]
    have hlow : text.getD byte 0 < 128 := by
      rw [getD_eq_getElem _ _ hlt]
      exact hascii _ (getElem_mem hlt)
    rw [TSInput.character, hfirst]
    exact if_pos ⟨rfl, hlow⟩
  have hlength (byte : Nat) : (text.drop byte).length = text.length - byte := length_drop
  refine ⟨hsmall, fun _ byte _ hle => drop_of_length_le hle, fun _ byte _ hlt hnil => ?_,
    fun _ byte _ hlt => ?_, fun _ byte _ hlt => hcharacter byte hlt, fun _ byte _ k hk => .inl ?_,
    fun byte hlt => ⟨Nat.one_pos, ?_⟩⟩
  · exact absurd (drop_eq_nil_iff.mp hnil) (not_le.mpr hlt)
  · change byte + (text.drop byte).length ≤ text.length
    rw [hlength]
    omega
  · change k < (text.drop byte).length at hk
    change (asciiInput text hascii hsmall).character ((text.drop byte).drop k) = _
    rw [drop_drop]
    exact hcharacter (byte + k) (by rw [hlength] at hk; omega)
  · change byte + 1 < 2 ^ 32
    omega

def withRanges (input : TSInput) (ranges : List TSRange) : Option Lexer :=
  (Lexer.init input).bind fun self => (self.setIncludedRanges ranges).bind fun result =>
    if result.2 then some result.1 else none

theorem runs_withRanges {keeps : Lexer → Op → Prop} {input : TSInput}
    (hself : withRanges input ranges = some self) : Runs keeps input ranges self := by
  obtain ⟨lexer, hinit, hself⟩ := bind_eq_some_iff.mp hself
  obtain ⟨⟨ranged, done⟩, hranges, hself⟩ := bind_eq_some_iff.mp hself
  cases done with
  | true =>
    cases hself
    exact .init hinit hranges
  | false => cases hself

/-- The text `abc`. -/
def abc : TSInput := asciiInput [97, 98, 99] (by decide) (by decide)

/-- The `a` and the `c` of `abc`. -/
def aAndC : List TSRange := [⟨0, 1, ⟨0, 0⟩, ⟨0, 1⟩⟩, ⟨2, 3, ⟨0, 2⟩, ⟨0, 3⟩⟩]

theorem withRanges_abc : (withRanges abc aAndC).map (fun self =>
    (self.currentPosition.extent.column, self.restarted.started.map lookahead)) =
      some (0, some 97) := by
  decide +kernel

theorem start_abc : ((withRanges abc aAndC).bind start).map (fun self =>
    (self.entered.1.currentPosition, lineStart self.passLookahead.currentPosition)) =
      some (⟨2, 0, 2⟩, 0) := by
  decide +kernel

theorem advance_abc : (((withRanges abc aAndC).bind start).bind (·.advance false)).map columnData =
    some ⟨1, true⟩ := by
  decide +kernel

/-- The `c` has column 1 behind the `a`. -/
theorem Runs.columnOfPosition_abc :
    ∃ self, Runs Op.KeepsLine abc aAndC self ∧ self.columnData = ⟨1, true⟩ ∧
      self.ColumnOfPosition := by
  obtain ⟨self, hself, hdata⟩ := map_eq_some_iff.mp advance_abc
  obtain ⟨started, hstarted, hself⟩ := bind_eq_some_iff.mp hself
  obtain ⟨lexer, hlexer, hstart⟩ := bind_eq_some_iff.mp hstarted
  have hlookahead := withRanges_abc
  have hentered := start_abc
  rw [hlexer] at hlookahead
  rw [hstarted] at hentered
  simp only [map_some, Option.some.injEq, Prod.mk.injEq] at hlookahead hentered
  have hstarts : lexer.StartsLine := by
    refine fun _ _ => ⟨hlookahead.1, fun first hfirst hbom => ?_⟩
    rw [hfirst] at hlookahead
    have hcode : first.lookahead = 97 := Option.some.inj hlookahead.2
    rw [hcode] at hbom
    exact absurd hbom (by decide)
  have hkeeps : started.KeepsLine := by
    intro _ _
    rw [hentered.1]
    exact ⟨le_rfl, .inl hentered.2.symm⟩
  have hrun : Runs Op.KeepsLine abc aAndC self :=
    ((runs_withRanges hlexer).call .start hstart hstarts).call (.advance false) hself hkeeps
  exact ⟨self, hrun, hdata, hrun.columnOfPosition (asciiInput_steady _ _) (by decide)⟩

/-- The `a` and the `b` of two lines. -/
def aNewlineB : TSInput := asciiInput [97, 10, 98] (by decide) (by decide)

/-- The `a` and the `b`, without the end of the line. -/
def aAndB : List TSRange := [⟨0, 1, ⟨0, 0⟩, ⟨0, 1⟩⟩, ⟨2, 3, ⟨1, 0⟩, ⟨1, 1⟩⟩]

theorem advance_aNewlineB : (((withRanges aNewlineB aAndB).bind start).bind
    (·.advance false)).map (fun self => (self.columnData,
      (self.invalidateColumnData.getColumn 1).map Prod.snd)) = some (⟨1, true⟩, some 0) := by
  decide +kernel

/-- From the end of a range on one line, the lexer advances to the start of a range on the next
line. The column is 1 there, and 0 if it is counted again. -/
theorem not_columnOfPosition :
    ¬ ∀ (input : TSInput) (length : Nat) (charAt : Nat → Nat × Int) (ranges : List TSRange)
      (self : Lexer), input.Steady length charAt → (∀ range ∈ ranges, range.endByte < 2 ^ 32) →
        Runs (fun _ _ => True) input ranges self → self.ColumnOfPosition := by
  intro h
  obtain ⟨self, hself, hdata⟩ := map_eq_some_iff.mp advance_aNewlineB
  obtain ⟨started, hstarted, hself⟩ := bind_eq_some_iff.mp hself
  obtain ⟨lexer, hlexer, hstart⟩ := bind_eq_some_iff.mp hstarted
  rw [Prod.mk.injEq] at hdata
  obtain ⟨hdata, hcolumn⟩ := hdata
  have hrun : Runs (fun _ _ => True) aNewlineB aAndB self :=
    ((runs_withRanges hlexer).call .start hstart trivial).call (.advance false) hself trivial
  obtain ⟨fuel, cached, recomputed, column, hcached, hrecomputed⟩ :=
    h _ _ _ _ self (asciiInput_steady _ _) (by decide) hrun (by rw [hdata])
  have hkept : self.getColumn fuel = some ({ self with didGetColumn := true }, 1) := by
    rw [getColumn]
    dsimp only
    rw [hdata]
    rfl
  obtain ⟨⟨counted, column'⟩, hcounted, rfl⟩ := map_eq_some_iff.mp hcolumn
  have hunique := getColumn_unique hrecomputed hcounted
  cases hcached.symm.trans hkept
  cases hunique

end Lexer

end TreeSitter.Lib
