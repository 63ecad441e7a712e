import TreeSitter.Lib.Lexer.Advance

/-!
# TreeSitter.Lib.Lexer.Recount

**Counting a column again.** Without a valid column, `ts_lexer__get_column` goes back to the start
of the line and advances from there. `Tracks.getColumn_invalidate` says that it then finds the
column that was kept, if that was the number of characters from the start of the line.
-/

namespace TreeSitter.Lib

namespace Lexer

variable {reading : Reading} {self self' : Lexer}

/-! ### Going to a position -/

/-- The character at the current position has not been read. -/
structure Unread (lexer : Lexer) : Prop where
  lookaheadSize : lexer.lookaheadSize = 0
  inChunk : lexer.chunk.isSome → lexer.InChunk

/-- What `ts_lexer_goto` does. -/
structure Lands (reading : Reading) (position : Length) (lexer lexer' : Lexer) : Prop where
  on : lexer'.On reading
  readChunk : lexer'.ReadChunk
  columnData : lexer'.columnData.valid = true →
    position.bytes = lexer.currentPosition.bytes ∧ lexer.columnData.valid = true
  landed : lexer'.eof = false → lexer'.Unread ∧ reading.landing position.bytes =
    some (lexer'.currentIncludedRangeIndex, lexer'.currentPosition.bytes)
  ended : lexer'.eof = true → reading.landing position.bytes = none ∧
    ∀ range ∈ reading.ranges, range.endByte ≤ lexer'.currentPosition.bytes

theorem Reading.Valid.endByte_le_last (hvalid : reading.Valid)
    (hlast : reading.ranges.length - 1 < reading.ranges.length) {range : TSRange}
    (hrange : range ∈ reading.ranges) :
    range.endByte ≤ (reading.ranges[reading.ranges.length - 1]).endByte := by
  obtain ⟨i, hi, rfl⟩ := List.mem_iff_getElem.mp hrange
  rcases Nat.lt_or_ge i (reading.ranges.length - 1) with hlt | hge
  · have hapart := hvalid.endByte_le (List.getElem?_eq_getElem hi)
      (List.getElem?_eq_getElem hlast) hlt
    exact hapart.trans (hvalid.startByte_le _ (List.getElem_mem hlast))
  · obtain rfl : i = reading.ranges.length - 1 := by omega
    exact le_rfl

theorem dropStaleChunk_spec (hread : self.ReadChunk) :
    SamePlace self self.dropStaleChunk ∧ self.dropStaleChunk.ReadChunk ∧
      (self.dropStaleChunk.chunk.isSome → self.dropStaleChunk.InChunk) := by
  rw [dropStaleChunk]
  split
  next => exact ⟨⟨rfl, rfl, rfl, rfl, rfl⟩, nofun, nofun⟩
  next hkept =>
    refine ⟨⟨rfl, rfl, rfl, rfl, rfl⟩, hread, fun hsome => ?_⟩
    obtain ⟨chunk, hchunk⟩ := Option.isSome_iff_exists.mp hsome
    have hwrap : addU32 self.chunkStart chunk.bytes.length ≤
        self.chunkStart + chunk.bytes.length := Nat.mod_le _ _
    rw [chunkSize, hchunk, not_and, not_or, not_lt, not_le] at hkept
    obtain ⟨hle, hlt⟩ := hkept rfl
    exact ⟨chunk, hchunk, hle, hlt.trans_le hwrap⟩

theorem goto_lands (hvalid : reading.Valid)
    (hsteady : self.input.Steady reading.length reading.charAt)
    (hranges : self.includedRanges = reading.ranges) (hread : self.ReadChunk)
    (position : Length) :
    ∃ self', self.goto position = some self' ∧ Lands reading position self self' := by
  -- The column is forgotten unless the position is the current one.
  obtain ⟨lexer, hlexer, hcolumn, hframe⟩ : ∃ lexer, lexer =
      (if position.bytes ≠ self.currentPosition.bytes then self.invalidateColumnData else self) ∧
      (lexer.columnData.valid = true →
        position.bytes = self.currentPosition.bytes ∧ self.columnData.valid = true) ∧
      lexer = { self with columnData := lexer.columnData } := by
    refine ⟨_, rfl, fun hcolumn => ?_, ?_⟩
    · split at hcolumn
      next => cases hcolumn
      next heq => exact ⟨not_not.mp heq, hcolumn⟩
    · split <;> rfl
  have hreadLexer : lexer.ReadChunk := by
    rw [hframe]
    exact hread
  have hsteadyLexer : lexer.input.Steady reading.length reading.charAt := by
    rw [hframe]
    exact hsteady
  replace hranges : lexer.includedRanges = reading.ranges := by
    rw [hframe]
    exact hranges
  rw [goto]
  dsimp only
  rw [← hlexer]
  cases hfind : findIncludedRange position.bytes lexer.includedRanges 0 with
  | some found =>
    obtain ⟨index, range⟩ := found
    rw [hranges] at hfind
    obtain ⟨-, hget, hlt, hne⟩ := findIncludedRange_spec hfind
    rw [Nat.sub_zero] at hget
    dsimp only
    -- The lexer at the position, or at the start of the range.
    obtain ⟨moved, hmoved, hbytes, hindex, hkept⟩ : ∃ moved : Lexer, moved =
        { (if range.startByte ≥ position.bytes then
            { lexer with currentPosition := ⟨range.startByte, range.startPoint⟩ }
          else { lexer with currentPosition := position }) with
          currentIncludedRangeIndex := index } ∧
        moved.currentPosition.bytes = max position.bytes range.startByte ∧
        moved.currentIncludedRangeIndex = index ∧
        moved = { lexer with
          currentPosition := moved.currentPosition, currentIncludedRangeIndex := index } := by
      refine ⟨_, rfl, ?_, rfl, ?_⟩
      · split
        next hge => exact (max_eq_right hge).symm
        next hnot => exact (max_eq_left (not_le.mp hnot).le).symm
      · split <;> rfl
    have hreadMoved : moved.ReadChunk := by
      rw [hkept]
      exact hreadLexer
    obtain ⟨hsame, hread', hin⟩ := dropStaleChunk_spec hreadMoved
    have hlanding : reading.landing position.bytes =
        some (index, max position.bytes range.startByte) := by
      rw [Reading.landing, hfind]
      rfl
    refine ⟨{ moved.dropStaleChunk with lookaheadSize := 0, lookahead := 0 }, ?_, ?_, hread',
      ?_, ?_, ?_⟩
    · rw [hmoved]
    · refine ⟨?_, ?_, ?_, ?_⟩
      · rw [hsame.input, hkept]
        exact hsteadyLexer
      · rw [hsame.ranges, hkept]
        exact hranges
      · rw [hsame.index, hindex]
        exact (List.getElem?_eq_some_iff.mp hget).1.le
      · intro other hother
        rw [hsame.index, hindex] at hother
        cases hget.symm.trans hother
        rw [hsame.currentPosition, hbytes]
        exact ⟨le_max_right _ _, max_lt hlt hne⟩
    · intro hkeptColumn
      refine hcolumn (hkeptColumn.symm.trans ?_).symm
      exact congrArg ColumnData.valid (hsame.columnData.trans (by rw [hkept]))
    · intro _
      refine ⟨⟨rfl, hin⟩, ?_⟩
      rw [hlanding, ← hbytes, ← hindex, ← hsame.index, ← hsame.currentPosition]
    · intro heof
      have hother : reading.ranges.length = index := by
        have hlength : moved.dropStaleChunk.currentIncludedRangeIndex =
          moved.dropStaleChunk.includedRanges.length := of_decide_eq_true heof
        rw [hsame.index, hindex, hsame.ranges, hkept] at hlength
        exact (hranges ▸ hlength).symm
      rw [← hother, List.getElem?_eq_none le_rfl] at hget
      cases hget
  | none =>
    have hlast : lexer.includedRanges.length - 1 < lexer.includedRanges.length :=
      Nat.sub_lt (List.length_pos_iff.mpr (hranges ▸ hvalid.nonempty)) Nat.one_pos
    dsimp only
    rw [List.getElem?_eq_getElem hlast]
    have heof : ∀ lexer' : Lexer, lexer'.currentIncludedRangeIndex = reading.ranges.length →
        lexer'.includedRanges = reading.ranges → lexer'.eof = true := by
      intro lexer' hindex hranges'
      rw [eof, hranges', hindex]
      exact decide_eq_true rfl
    have hindex : lexer.includedRanges.length = reading.ranges.length := by rw [hranges]
    refine ⟨_, rfl, ⟨hsteadyLexer, hranges, hindex.le, ?_⟩, ?_, hcolumn, ?_, fun _ => ?_⟩
    · intro range hget
      replace hget : reading.ranges[lexer.includedRanges.length]? = some range := hget
      rw [hindex, List.getElem?_eq_none le_rfl] at hget
      cases hget
    · intro chunk hchunk
      cases hchunk
    · intro hfalse
      cases hfalse.symm.trans (heof _ hindex hranges)
    · refine ⟨?_, fun range hrange => ?_⟩
      · rw [Reading.landing, ← hranges, hfind]
        rfl
      · have hle := hvalid.endByte_le_last (hindex ▸ hlast) hrange
        simp only [← hranges] at hle
        exact hle

/-! ### Back to the start of the line -/

/-- `ts_lexer__get_column` has gone to the start of the line. -/
def rewound (self : Lexer) : Lexer := (self.setColumnData 0).getChunk

section Rewound

variable {position : Length} {lexer : Lexer}

theorem On.setColumnData (h : self.On reading) (value : Nat) :
    (self.setColumnData value).On reading := ⟨h.steady, h.ranges, h.index_le, h.inRange⟩

theorem rewound_end (h : lexer.On reading)
    (hend : lexer.eof = true ∨ reading.length ≤ lexer.currentPosition.bytes) :
    lexer.rewound.eof = true ∧ lexer.rewound.On reading ∧ lexer.rewound.ReadChunk ∧
      lexer.rewound.currentPosition = lexer.currentPosition ∧
      lexer.rewound.columnData = ⟨0, true⟩ := by
  have hon := h.setColumnData 0
  by_cases hlt : lexer.currentPosition.bytes < reading.length
  · obtain ⟨hsame, hread, -⟩ := getChunk_spec hon hlt
    have heof := hend.resolve_right (not_le.mpr hlt)
    refine ⟨?_, hon.of_samePlace hsame, hread, hsame.currentPosition, hsame.columnData⟩
    rw [eof, rewound, hsame.index, hsame.ranges]
    exact heof
  · have hchunk : lexer.rewound = _ := getChunk_end hon (not_lt.mp hlt)
    obtain ⟨hon', hread', heof'⟩ := @on_end reading _ lexer.rewound hon
      (by rw [hchunk]) (by rw [hchunk]) (by rw [hchunk]) (by rw [hchunk])
    exact ⟨heof', hon', hread', by rw [hchunk]; rfl, by rw [hchunk]; rfl⟩

theorem rewound_loaded (h : lexer.On reading) (heof : lexer.eof = false)
    (hlt : lexer.currentPosition.bytes < reading.length) :
    lexer.rewound.eof = false ∧ ∃ first, lexer.rewound.getLookahead = some first ∧
      SamePlace (lexer.setColumnData 0) first ∧ first.Loaded reading := by
  have hon := h.setColumnData 0
  obtain ⟨hsame, hread, hin, -⟩ := getChunk_spec hon hlt
  obtain ⟨first, hfirst, hsame', hloaded⟩ := getLookahead_spec (hon.of_samePlace hsame) hread hin
  refine ⟨?_, first, hfirst, ?_, hloaded⟩
  · rw [eof, rewound, hsame.index, hsame.ranges]
    exact heof
  · exact ⟨hsame'.currentPosition.trans hsame.currentPosition, hsame'.index.trans hsame.index,
      hsame'.ranges.trans hsame.ranges, hsame'.input.trans hsame.input,
      hsame'.columnData.trans hsame.columnData⟩

theorem SamePlace.eof_eq (h : SamePlace self self') : self'.eof = self.eof := by
  rw [eof, eof, h.index, h.ranges]

end Rewound

/-! ### Counting again -/

theorem Reading.Counts.landing_eq {start index byte value : Nat}
    (h : reading.Counts start index byte value) :
    ∃ index byte, reading.landing start = some (index, byte) ∧ byte < reading.length := by
  induction h with
  | start h hlt => exact ⟨_, _, h, hlt⟩
  | next _ _ ih => exact ih

theorem eq_of_place {index byte : Nat} (h : self.place = .at index byte) :
    self.eof = false ∧ self.currentIncludedRangeIndex = index ∧
      self.currentPosition.bytes = byte := by
  rw [place] at h
  split at h
  next => cases h
  next heof =>
    injection h with hindex hbyte
    exact ⟨Bool.eq_false_iff.mpr heof, hindex, hbyte⟩

theorem advanceTo_done {goalByte : Nat} (fuel : Nat)
    (h : ¬ (self.currentPosition.bytes < goalByte ∧ !self.eof ∧ self.chunk.isSome)) :
    advanceTo goalByte (fuel + 1) self = some self := by
  rw [advanceTo, if_neg h]

theorem advanceTo_advance {goalByte fuel : Nat} (hlt : self.currentPosition.bytes < goalByte)
    (heof : self.eof = false) (hloaded : self.Loaded reading)
    (hadvance : self.doAdvance false = some self') :
    advanceTo goalByte (fuel + 1) self = advanceTo goalByte fuel self' := by
  obtain ⟨chunk, hchunk, -⟩ := hloaded.inChunk
  rw [advanceTo, if_pos ⟨hlt, by rw [heof]; rfl, by rw [hchunk]; rfl⟩, hadvance]
  rfl

/-- From the start of a line, the loop of `getColumn` comes to every place that counting comes to,
if its goal is not in front of it. -/
theorem Reading.Counts.exists_lexer (hvalid : reading.Valid) {first : Lexer}
    (hon : first.On reading) (hloaded : first.Loaded reading) (heof : first.eof = false)
    (hcolumn : first.columnData = ⟨0, true⟩) {start index byte value : Nat}
    (hlanding : reading.landing start =
      some (first.currentIncludedRangeIndex, first.currentPosition.bytes))
    (h : reading.Counts start index byte value) :
    ∃ lexer, lexer.On reading ∧ lexer.Loaded reading ∧ lexer.place = .at index byte ∧
      lexer.columnData = ⟨value, true⟩ ∧ ∀ goalByte, byte ≤ goalByte → ∀ fuel last,
        advanceTo goalByte fuel lexer = some last →
          ∃ fuel', advanceTo goalByte fuel' first = some last := by
  induction h with
  | start h hlt =>
    cases hlanding.symm.trans h
    exact ⟨first, hon, hloaded, place_of_eof_eq_false heof, hcolumn,
      fun goalByte hle fuel last hlast => ⟨fuel, hlast⟩⟩
  | next h hnext ih =>
    obtain ⟨lexer, hon, hloaded, hplace, hcolumn, hreaches⟩ := ih
    obtain ⟨heof, rfl, rfl⟩ := eq_of_place hplace
    obtain ⟨next, hadvance, hadvances⟩ := doAdvance_advances hvalid hon hloaded heof false
    have hplaceNext := hadvances.place.trans hnext
    obtain ⟨heofNext, -, hbyte⟩ := eq_of_place hplaceNext
    have hlt := lt_entered hvalid hon hloaded heof
    rw [← hadvances.position, hbyte] at hlt
    refine ⟨next, hadvances.on, hadvances.loaded heofNext, hplaceNext, ?_, ?_⟩
    · rw [hadvances.columnData, (passLookahead_passes hon hloaded).valid (by rw [hcolumn]), hcolumn]
    · intro goalByte hle fuel last hlast
      refine hreaches goalByte (hlt.le.trans hle) (fuel + 1) last ?_
      rw [advanceTo_advance (hlt.trans_le hle) heof hloaded hadvance]
      exact hlast

/-- The position that `ts_lexer__get_column` goes back to. -/
def startOfCol (self : Lexer) : Length :=
  ⟨subU32 self.currentPosition.bytes self.currentPosition.extent.column,
    self.currentPosition.extent.row, 0⟩

/-- The column counted by `ts_lexer__get_column` on the line, up to a byte. -/
def countColumn (line : Lexer) (goalByte fuel : Nat) : Option (Lexer × Nat) :=
  if line.rewound.eof then some (line.rewound, line.rewound.columnData.value)
  else line.rewound.getLookahead >>= fun first =>
    advanceTo goalByte fuel first >>= fun last => some (last, last.columnData.value)

theorem getColumn_of_invalid (h : self.columnData.valid = false) (fuel : Nat) :
    self.getColumn fuel = ({ self with didGetColumn := true }.goto self.startOfCol).bind
      fun line => line.countColumn self.currentPosition.bytes fuel := by
  rw [getColumn]
  exact if_neg (by rw [h]; exact Bool.false_ne_true)

/-- **Counting again** from the start of the line gives the column that was kept. -/
theorem Tracks.getColumn_invalidate (hvalid : reading.Valid) (hon : self.On reading)
    (hread : self.ReadChunk) (h : self.Tracks reading) :
    ∃ fuel lexer, self.invalidateColumnData.getColumn fuel =
      some (lexer, self.columnData.value) := by
  obtain ⟨line, hline, hlands⟩ := @goto_lands reading
    { self.invalidateColumnData with didGetColumn := true } hvalid hon.steady hon.ranges hread
    self.startOfCol
  have hstart : self.startOfCol.bytes = lineStart self.currentPosition :=
    subU32_of_le h.column_le
  have hcolumn (fuel : Nat) : self.invalidateColumnData.getColumn fuel =
      line.countColumn self.currentPosition.bytes fuel := by
    rw [getColumn_of_invalid rfl]
    exact congrArg (Option.bind · _) hline
  simp only [hcolumn]
  have hcounts := h.counts
  have hcountsToEnd := h.countsToEnd
  rw [← hstart] at hcounts hcountsToEnd
  generalize self.columnData.value = column at hcounts hcountsToEnd ⊢
  by_cases hend : line.eof = true ∨ reading.length ≤ line.currentPosition.bytes
  · -- There is nothing on the line, and nothing has been counted.
    obtain ⟨heof, -, -, -, hdata⟩ := rewound_end hlands.on hend
    have hnothing : ∀ index byte, reading.landing self.startOfCol.bytes = some (index, byte) →
        reading.length ≤ byte := by
      intro index byte hlanding
      cases hlineEof : line.eof with
      | true =>
        rw [(hlands.ended hlineEof).1] at hlanding
        cases hlanding
      | false =>
        rw [(hlands.landed hlineEof).2] at hlanding
        cases hlanding
        exact hend.resolve_left (by rw [hlineEof]; exact Bool.false_ne_true)
    have hzero : column = 0 := by
      have hnone {index byte value : Nat}
          (hcounts : reading.Counts self.startOfCol.bytes index byte value) : False := by
        obtain ⟨index, byte, hlanding, hlt⟩ := hcounts.landing_eq
        exact absurd (hnothing index byte hlanding) (not_le.mpr hlt)
      cases hselfEof : self.eof with
      | false => exact (hnone (hcounts hselfEof)).elim
      | true =>
        cases hcountsToEnd hselfEof with
        | nothing | empty => rfl
        | last hlast => exact (hnone hlast).elim
    refine ⟨0, line.rewound, ?_⟩
    rw [countColumn, if_pos heof, hdata, hzero]
  · rw [not_or, Bool.not_eq_true, not_le] at hend
    obtain ⟨hlineEof, hlt⟩ := hend
    obtain ⟨heof, first, hfirst, hsame, hloaded⟩ := rewound_loaded hlands.on hlineEof hlt
    have hlanding : reading.landing self.startOfCol.bytes =
        some (first.currentIncludedRangeIndex, first.currentPosition.bytes) := by
      rw [hsame.index, hsame.currentPosition]
      exact (hlands.landed hlineEof).2
    have honFirst := (hlands.on.setColumnData 0).of_samePlace hsame
    have heofFirst : first.eof = false := hsame.eof_eq.trans hlineEof
    -- The loop comes to the place where the column was kept.
    have hreach {index byte value : Nat}
        (hcounts : reading.Counts self.startOfCol.bytes index byte value)
        (hle : byte ≤ self.currentPosition.bytes) :
        ∃ lexer, lexer.On reading ∧ lexer.Loaded reading ∧ lexer.place = .at index byte ∧
          lexer.columnData = ⟨value, true⟩ ∧ ∀ fuel last,
            advanceTo self.currentPosition.bytes fuel lexer = some last →
              ∃ fuel', line.countColumn self.currentPosition.bytes fuel' =
                some (last, last.columnData.value) := by
      obtain ⟨lexer, hon, hloaded, hplace, hcolumn, hreaches⟩ := hcounts.exists_lexer hvalid
        honFirst hloaded heofFirst hsame.columnData hlanding
      refine ⟨lexer, hon, hloaded, hplace, hcolumn, fun fuel last hlast => ?_⟩
      obtain ⟨fuel', hlast'⟩ := hreaches _ hle fuel last hlast
      refine ⟨fuel', ?_⟩
      rw [countColumn, heof, if_neg Bool.false_ne_true, hfirst, Option.bind_eq_bind,
        Option.bind_some, hlast']
      rfl
    cases hselfEof : self.eof with
    | false =>
      obtain ⟨lexer, -, -, hplace, hcolumn, hreaches⟩ := hreach (hcounts hselfEof) le_rfl
      obtain ⟨-, -, hbyte⟩ := eq_of_place hplace
      obtain ⟨fuel, hfuel⟩ := hreaches 1 lexer
        (advanceTo_done 0 fun hmore => absurd hmore.1 (by rw [hbyte]; exact lt_irrefl _))
      exact ⟨fuel, lexer, by rw [hfuel, hcolumn]⟩
    | true =>
      cases hcountsToEnd hselfEof with
      | nothing hnone =>
        rw [(hlands.landed hlineEof).2] at hnone
        cases hnone
      | empty hempty hle =>
        rw [(hlands.landed hlineEof).2] at hempty
        cases hempty
        exact absurd hle (not_le.mpr hlt)
      | last hlast hbyteLt hnext =>
        obtain ⟨lexer, hon', hloaded', hplace, hcolumn, hreaches⟩ := hreach hlast hbyteLt.le
        obtain ⟨heof', rfl, rfl⟩ := eq_of_place hplace
        obtain ⟨last, hadvance, hadvances⟩ :=
          doAdvance_advances hvalid hon' hloaded' heof' false
        have hlastEof : last.eof = true := by
          have hplaceLast := hadvances.place.trans hnext
          rw [place] at hplaceLast
          split at hplaceLast
          next heofLast => exact heofLast
          next => cases hplaceLast
        obtain ⟨fuel, hfuel⟩ := hreaches 2 last (by
          rw [advanceTo_advance hbyteLt heof' hloaded' hadvance]
          exact advanceTo_done 0 fun hmore => by simp [hlastEof] at hmore)
        refine ⟨fuel, last, ?_⟩
        rw [hfuel, hadvances.columnData, (passLookahead_passes hon' hloaded').valid
          (by rw [hcolumn]), hcolumn]

end Lexer

end TreeSitter.Lib
