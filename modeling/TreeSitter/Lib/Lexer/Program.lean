import TreeSitter.Lib.Lexer.Column
import TreeSitter.Library.OptionRel

/-!
# TreeSitter.Lib.Lexer.Program

**Programs over the lexer.** Generated lex functions and external scanners see the lexer only
through the functions of `TSLexer`. A `LexerProgram` is any such code that comes to an end.

A column is the only thing that a program can learn of the text in front of it. Two runs that differ
in their columns are the same up to the first time that they ask for one (`LexerProgram.run_twins`);
from then on, `did_get_column` says that they have asked.
-/

namespace TreeSitter.Lib

open Option

/-- A program over the functions of `TSLexer`, with a result. -/
inductive LexerProgram (α : Type) where
  | done (result : α)
  | lookahead (next : Int → LexerProgram α)
  | setResultSymbol (symbol : Nat) (next : LexerProgram α)
  | advance (skip : Bool) (next : LexerProgram α)
  | markEnd (next : LexerProgram α)
  | getColumn (next : Nat → LexerProgram α)
  | isAtIncludedRangeStart (next : Bool → LexerProgram α)
  | eof (next : Bool → LexerProgram α)

/-- What a run gets from `ts_lexer__get_column`. -/
structure Columns where
  get : Lexer → Option (Lexer × Nat)
  didGetColumn : ∀ lexer lexer' column, get lexer = some (lexer', column) →
    lexer'.didGetColumn = true

def LexerProgram.run {α : Type} (columns : Columns) :
    LexerProgram α → Lexer → Option (Lexer × α)
  | done result, lexer => some (lexer, result)
  | lookahead next, lexer => (next lexer.lookahead).run columns lexer
  | setResultSymbol symbol next, lexer => next.run columns { lexer with resultSymbol := symbol }
  | advance skip next, lexer => (lexer.advance skip).bind fun lexer => next.run columns lexer
  | markEnd next, lexer => lexer.markEnd.bind fun lexer => next.run columns lexer
  | getColumn next, lexer =>
    (columns.get lexer).bind fun result => (next result.2).run columns result.1
  | isAtIncludedRangeStart next, lexer => (next lexer.isAtIncludedRangeStart).run columns lexer
  | eof next, lexer => (next lexer.eof).run columns lexer

namespace Lexer

/-! ### The column is the lexer's own -/

variable {self self' : Lexer}

def withColumn (self : Lexer) (columnData : ColumnData) : Lexer := { self with columnData }

/-- Another lexer is the same up to its column. -/
def Twins (self self' : Lexer) : Prop := ∃ columnData, self' = self.withColumn columnData

/-- Both calls lead to the same lexer up to its column, or neither leads to one. -/
abbrev TwinResults : Option Lexer → Option Lexer → Prop := Option.Rel Twins

theorem Twins.ite {p q : Prop} [Decidable p] [Decidable q] {a b a' b' : Lexer} (hiff : p ↔ q)
    (h : Twins a a') (hother : Twins b b') :
    Twins (if p then a else b) (if q then a' else b') := by
  by_cases hp : p
  · rw [if_pos hp, if_pos (hiff.mp hp)]
    exact h
  · rw [if_neg hp, if_neg fun hq => hp (hiff.mpr hq)]
    exact hother

section

variable (h : Twins self self')

include h

theorem Twins.getChunk : Twins self.getChunk self'.getChunk := by
  obtain ⟨columnData, rfl⟩ := h
  refine ⟨columnData, ?_⟩
  dsimp only [Lexer.getChunk, withColumn]
  split <;> rfl

theorem Twins.setDecoded (size : Nat) (code : Int) :
    Twins (self.setDecoded size code) (self'.setDecoded size code) := by
  obtain ⟨columnData, rfl⟩ := h
  exact ⟨columnData, rfl⟩

theorem Twins.getLookahead : TwinResults self.getLookahead self'.getLookahead := by
  obtain ⟨columnData', hchunk⟩ := h.getChunk
  obtain ⟨columnData, rfl⟩ := h
  have hkept : (self.withColumn columnData).chunk = self.chunk := rfl
  dsimp only [Lexer.getLookahead]
  rw [hchunk, hkept]
  refine .ite Iff.rfl (.some ⟨columnData, rfl⟩) ?_
  cases self.chunk with
  | none => exact .none
  | some chunk =>
    refine .bind_same fun first => .ite Iff.rfl (.some ⟨columnData, rfl⟩)
      (.bind_same fun decoded => ?_)
    refine .ite Iff.rfl (.bind_same fun decoded => ?_) ?_
    · exact .some (Twins.setDecoded ⟨columnData', rfl⟩ _ _)
    · exact .some (Twins.setDecoded ⟨columnData, rfl⟩ _ _)

theorem Twins.incrementColumnData : Twins self.incrementColumnData self'.incrementColumnData := by
  obtain ⟨columnData, rfl⟩ := h
  obtain ⟨left, hleft⟩ := self.incrementColumnData_eq
  obtain ⟨right, hright⟩ := (self.withColumn columnData).incrementColumnData_eq
  exact ⟨right, by rw [hleft, hright]; rfl⟩

theorem Twins.passLookahead : Twins self.passLookahead self'.passLookahead := by
  obtain ⟨columnData', hincrement⟩ := h.incrementColumnData
  obtain ⟨columnData, rfl⟩ := h
  dsimp only [Lexer.passLookahead]
  rw [hincrement]
  by_cases hsize : self.lookaheadSize ≠ 0
  · by_cases hline : self.lookahead = 10
    · exact ⟨⟨0, true⟩, by simp [withColumn, hsize, hline, setColumnData]⟩
    · have hbom : (decide ((self.withColumn columnData).currentPosition.bytes = 0) &&
            decide ((self.withColumn columnData).lookahead = byteOrderMark)) =
          (decide (self.currentPosition.bytes = 0) && decide (self.lookahead = byteOrderMark)) :=
        rfl
      rw [hbom]
      cases decide (self.currentPosition.bytes = 0) && decide (self.lookahead = byteOrderMark) with
      | true => exact ⟨columnData, by simp [withColumn, hsize, hline]⟩
      | false => exact ⟨columnData', by simp [withColumn, hsize, hline]⟩
  · exact ⟨columnData, by simp [withColumn, hsize]⟩

theorem Twins.enterRange (ranges : List TSRange) :
    Twins (self.enterRange ranges).1 (self'.enterRange ranges).1 ∧
      (self'.enterRange ranges).2 = (self.enterRange ranges).2 := by
  obtain ⟨columnData, rfl⟩ := h
  induction ranges generalizing self with
  | nil => exact ⟨⟨columnData, rfl⟩, rfl⟩
  | cons range ranges ih =>
    by_cases hpassed : Passed self.currentPosition.bytes range
    · cases ranges with
      | nil =>
        rw [enterRange_last hpassed, enterRange_last (by exact hpassed)]
        exact ⟨⟨columnData, rfl⟩, rfl⟩
      | cons next rest =>
        rw [enterRange_next hpassed, enterRange_next (by exact hpassed)]
        exact @ih (self.enterNext next)
    · rw [enterRange_stay hpassed, enterRange_stay (by exact hpassed)]
      exact ⟨⟨columnData, rfl⟩, rfl⟩

theorem Twins.load : TwinResults self.load self'.load := by
  have hchunk := h.getChunk.getLookahead
  have hhere := h.getLookahead
  obtain ⟨columnData, rfl⟩ := h
  exact .ite Iff.rfl hchunk hhere

theorem Twins.startToken (skip : Bool) :
    Twins (if skip then { self with tokenStartPosition := self.currentPosition } else self)
      (if skip then { self' with tokenStartPosition := self'.currentPosition } else self') := by
  obtain ⟨columnData, rfl⟩ := h
  cases skip <;> exact ⟨columnData, rfl⟩

theorem Twins.doAdvance (skip : Bool) :
    TwinResults (self.doAdvance skip) (self'.doAdvance skip) := by
  have hpass := h.passLookahead
  obtain ⟨henter, hinRange⟩ := hpass.enterRange
    (self.passLookahead.includedRanges.drop self.passLookahead.currentIncludedRangeIndex)
  have hranges : self'.passLookahead.includedRanges = self.passLookahead.includedRanges ∧
      self'.passLookahead.currentIncludedRangeIndex =
        self.passLookahead.currentIncludedRangeIndex := by
    obtain ⟨columnData, hpass⟩ := hpass
    rw [hpass]
    exact ⟨rfl, rfl⟩
  have htoken := henter.startToken skip
  dsimp only [Lexer.doAdvance]
  rw [hranges.1, hranges.2]
  refine .bind_same fun range => .ite (by rw [hinRange]) htoken.load (.some ?_)
  obtain ⟨columnData, htoken⟩ := htoken
  rw [htoken]
  exact ⟨columnData, rfl⟩

theorem Twins.advanceAscii (skip : Bool) (nextByte : Nat) :
    Twins (self.advanceAscii skip nextByte) (self'.advanceAscii skip nextByte) := by
  obtain ⟨columnData, hincrement⟩ := h.incrementColumnData
  dsimp only [Lexer.advanceAscii]
  rw [hincrement]
  cases skip <;> exact ⟨columnData, rfl⟩

theorem Twins.advance (skip : Bool) : TwinResults (self.advance skip) (self'.advance skip) := by
  have hdoAdvance := h.doAdvance skip
  have hascii (nextByte : Nat) := h.advanceAscii skip nextByte
  obtain ⟨columnData, rfl⟩ := h
  have hkept : (self.withColumn columnData).chunk = self.chunk := rfl
  dsimp only [Lexer.advance]
  rw [hkept]
  cases self.chunk with
  | none => exact .some ⟨columnData, rfl⟩
  | some chunk =>
    exact .bind_same fun range => .ite Iff.rfl
      (.bind_same fun nextByte => .ite Iff.rfl (.some (hascii nextByte)) hdoAdvance) hdoAdvance

theorem Twins.markEnd : TwinResults self.markEnd self'.markEnd := by
  obtain ⟨columnData, rfl⟩ := h
  refine .ite Iff.rfl (.some ⟨columnData, rfl⟩) (.bind_same fun range => ?_)
  exact .ite Iff.rfl (.bind_same fun previous => .some ⟨columnData, rfl⟩) (.some ⟨columnData, rfl⟩)

theorem Twins.dropStaleChunk : Twins self.dropStaleChunk self'.dropStaleChunk := by
  obtain ⟨columnData, rfl⟩ := h
  exact .ite Iff.rfl ⟨columnData, rfl⟩ ⟨columnData, rfl⟩

theorem Twins.goto (position : Length) :
    TwinResults (self.goto position) (self'.goto position) := by
  obtain ⟨columnData, rfl⟩ := h
  -- Whether the column is forgotten is a matter of the column alone.
  have hforget : ∃ columnData', (if position.bytes ≠ self.currentPosition.bytes then
      (self.withColumn columnData).invalidateColumnData else self.withColumn columnData) =
      (if position.bytes ≠ self.currentPosition.bytes then self.invalidateColumnData
        else self).withColumn columnData' := by
    split
    · exact ⟨⟨0, false⟩, rfl⟩
    · exact ⟨columnData, rfl⟩
  obtain ⟨columnData', hforget⟩ := hforget
  have hposition : (self.withColumn columnData).currentPosition = self.currentPosition := rfl
  dsimp only [Lexer.goto]
  rw [hposition, hforget]
  generalize (if position.bytes ≠ self.currentPosition.bytes then self.invalidateColumnData
    else self) = lexer
  have hranges : (lexer.withColumn columnData').includedRanges = lexer.includedRanges := rfl
  rw [hranges]
  cases findIncludedRange position.bytes lexer.includedRanges 0 with
  | some found =>
    refine .some ?_
    have hmoved : Twins
        { (if found.2.startByte ≥ position.bytes then
            { lexer with currentPosition := ⟨found.2.startByte, found.2.startPoint⟩ }
          else { lexer with currentPosition := position }) with
          currentIncludedRangeIndex := found.1 }
        { (if found.2.startByte ≥ position.bytes then
            { lexer.withColumn columnData' with
              currentPosition := ⟨found.2.startByte, found.2.startPoint⟩ }
          else { lexer.withColumn columnData' with currentPosition := position }) with
          currentIncludedRangeIndex := found.1 } := by
      split <;> exact ⟨columnData', rfl⟩
    obtain ⟨columnData, hdrop⟩ := hmoved.dropStaleChunk
    exact ⟨columnData, congrArg (fun lexer : Lexer =>
      { lexer with lookaheadSize := 0, lookahead := 0 }) hdrop⟩
  | none => exact .bind_same fun last => .some ⟨columnData', rfl⟩

theorem Twins.reset (position : Length) :
    TwinResults (self.reset position) (self'.reset position) := by
  have hgoto := h.goto position
  obtain ⟨columnData, rfl⟩ := h
  exact .ite Iff.rfl hgoto (.some ⟨columnData, rfl⟩)

theorem Twins.started : TwinResults self.started self'.started := by
  have hchunk : Twins (if self.chunkSize = 0 then self.getChunk else self)
      (if self'.chunkSize = 0 then self'.getChunk else self') := by
    have hgetChunk := h.getChunk
    obtain ⟨columnData, rfl⟩ := h
    exact .ite Iff.rfl hgetChunk ⟨columnData, rfl⟩
  rw [Lexer.started, Lexer.started]
  have hlookahead := hchunk.getLookahead
  refine .ite ?_ hlookahead (.some hchunk)
  obtain ⟨columnData, hchunk⟩ := hchunk
  rw [hchunk]
  exact Iff.rfl

theorem Twins.start : TwinResults self.start self'.start := by
  have hrestarted : Twins self.restarted self'.restarted := by
    obtain ⟨columnData, rfl⟩ := h
    exact ⟨columnData, rfl⟩
  have heof : self'.eof = self.eof := by
    obtain ⟨columnData, rfl⟩ := h
    rfl
  cases hcase : self.eof with
  | true =>
    have hstart : self.start = some self.restarted := if_pos hcase
    have hstart' : self'.start = some self'.restarted := if_pos (heof.trans hcase)
    rw [hstart, hstart']
    exact .some hrestarted
  | false =>
    rw [start_eq hcase, start_eq (heof.trans hcase)]
    refine hrestarted.started.bind fun lexer lexer' hlexer => ?_
    have hadvance := hlexer.advance true
    obtain ⟨columnData, rfl⟩ := hlexer
    refine .ite Iff.rfl ?_ (.some ⟨columnData, rfl⟩)
    refine Option.Rel.bind (.ite Iff.rfl hadvance (.some ⟨columnData, rfl⟩)) ?_
    intro advanced advanced' hadvanced
    obtain ⟨columnData, rfl⟩ := hadvanced
    exact .some ⟨⟨0, true⟩, rfl⟩

end

/-- `ts_lexer_finish` has put the start of the token in front of its end. -/
def startInFront (self : Lexer) : Lexer :=
  if self.tokenEndPosition.bytes < self.tokenStartPosition.bytes then
    { self with tokenStartPosition := self.tokenEndPosition }
  else self

/-- The end of what the lexer has looked at, with what it looked at before. -/
def lookedAt (self : Lexer) (lookaheadEndByte : Nat) : Nat :=
  let current := addU32 self.currentPosition.bytes 1
  let current := if self.lookahead = decodeError then addU32 current 4 else current
  if current > lookaheadEndByte then current else lookaheadEndByte

theorem finish_eq (lookaheadEndByte : Nat) : self.finish lookaheadEndByte =
    (if self.tokenEndPosition.isUndefined then self.markEnd else some self).bind fun lexer =>
      some (lexer.startInFront, lexer.startInFront.lookedAt lookaheadEndByte) := rfl

theorem Twins.finish (h : Twins self self') (lookaheadEndByte : Nat) :
    Option.Rel (fun result result' => Twins result.1 result'.1 ∧ result'.2 = result.2)
      (self.finish lookaheadEndByte) (self'.finish lookaheadEndByte) := by
  have hmarkEnd := h.markEnd
  have hmarked : TwinResults
      (if self.tokenEndPosition.isUndefined then self.markEnd else some self)
      (if self'.tokenEndPosition.isUndefined then self'.markEnd else some self') := by
    obtain ⟨columnData, rfl⟩ := h
    exact .ite Iff.rfl hmarkEnd (.some ⟨columnData, rfl⟩)
  rw [finish_eq, finish_eq]
  generalize (if self.tokenEndPosition.isUndefined then self.markEnd else some self) = marked
    at hmarked
  generalize (if self'.tokenEndPosition.isUndefined then self'.markEnd else some self') = marked'
    at hmarked
  cases hmarked with
  | none => exact .none
  | @some lexer lexer' hlexer =>
    have hstart : Twins lexer.startInFront lexer'.startInFront := by
      obtain ⟨columnData, rfl⟩ := hlexer
      exact .ite Iff.rfl ⟨columnData, rfl⟩ ⟨columnData, rfl⟩
    refine .some ⟨hstart, ?_⟩
    obtain ⟨columnData, hstart⟩ := hstart
    rw [hstart]
    rfl

/-! ### Having asked for a column -/

theorem getChunk_didGetColumn : self.getChunk.didGetColumn = self.didGetColumn := by
  rw [getChunk]
  split <;> rfl

theorem getLookahead_didGetColumn (h : self.getLookahead = some self') :
    self'.didGetColumn = self.didGetColumn := by
  dsimp only [getLookahead] at h
  split at h
  · cases h
    rfl
  · split at h
    · cases h
    · obtain ⟨first, -, h⟩ := bind_eq_some_iff.mp h
      split at h
      · cases h
        rfl
      · obtain ⟨decoded, -, h⟩ := bind_eq_some_iff.mp h
        split at h
        · obtain ⟨decoded, -, h⟩ := bind_eq_some_iff.mp h
          cases h
          exact getChunk_didGetColumn
        · cases h
          rfl

theorem passLookahead_didGetColumn : self.passLookahead.didGetColumn = self.didGetColumn := by
  obtain ⟨columnData, hincrement⟩ := self.incrementColumnData_eq
  dsimp only [passLookahead]
  rw [hincrement]
  split
  · split
    · rfl
    · split <;> rfl
  · rfl

theorem enterRange_didGetColumn (ranges : List TSRange) :
    (self.enterRange ranges).1.didGetColumn = self.didGetColumn := by
  induction ranges generalizing self with
  | nil => rfl
  | cons range ranges ih =>
    by_cases hpassed : Passed self.currentPosition.bytes range
    · cases ranges with
      | nil =>
        rw [enterRange_last hpassed]
      | cons next rest =>
        rw [enterRange_next hpassed]
        exact @ih (self.enterNext next)
    · rw [enterRange_stay hpassed]

theorem doAdvance_didGetColumn {skip : Bool} (h : self.doAdvance skip = some self') :
    self'.didGetColumn = self.didGetColumn := by
  obtain ⟨range, -, h⟩ := bind_eq_some_iff.mp h
  have hentered : (self.passLookahead.enterRange (self.passLookahead.includedRanges.drop
      self.passLookahead.currentIncludedRangeIndex)).1.didGetColumn = self.didGetColumn :=
    (enterRange_didGetColumn _).trans passLookahead_didGetColumn
  generalize self.passLookahead.enterRange _ = entered at h hentered
  dsimp only at h
  have htoken : (if skip then { entered.1 with
      tokenStartPosition := entered.1.currentPosition } else entered.1).didGetColumn =
      self.didGetColumn := by
    rw [← hentered]
    cases skip <;> rfl
  generalize (if skip then { entered.1 with
      tokenStartPosition := entered.1.currentPosition } else entered.1) = lexer at h htoken
  split at h
  · split at h
    · exact (getLookahead_didGetColumn h).trans (getChunk_didGetColumn.trans htoken)
    · exact (getLookahead_didGetColumn h).trans htoken
  · cases h
    exact htoken

theorem advance_didGetColumn {skip : Bool} (h : self.advance skip = some self') :
    self'.didGetColumn = self.didGetColumn := by
  dsimp only [advance] at h
  split at h
  · cases h
    rfl
  · obtain ⟨range, -, h⟩ := bind_eq_some_iff.mp h
    split at h
    · obtain ⟨nextByte, -, h⟩ := bind_eq_some_iff.mp h
      split at h
      · cases h
        obtain ⟨columnData, hincrement⟩ := self.incrementColumnData_eq
        dsimp only [advanceAscii]
        rw [hincrement]
        cases skip <;> rfl
      · exact doAdvance_didGetColumn h
    · exact doAdvance_didGetColumn h

theorem markEnd_didGetColumn (h : self.markEnd = some self') :
    self'.didGetColumn = self.didGetColumn := by
  obtain ⟨position, rfl⟩ := markEnd_eq h
  rfl

theorem goto_didGetColumn {position : Length} (h : self.goto position = some self') :
    self'.didGetColumn = self.didGetColumn := by
  dsimp only [goto] at h
  have hforget : (if position.bytes ≠ self.currentPosition.bytes then self.invalidateColumnData
      else self).didGetColumn = self.didGetColumn := by
    split <;> rfl
  generalize (if position.bytes ≠ self.currentPosition.bytes then self.invalidateColumnData
    else self) = lexer at h hforget
  split at h
  · cases h
    rw [dropStaleChunk]
    split
    · split <;> exact hforget
    · split <;> exact hforget
  · obtain ⟨last, -, h⟩ := bind_eq_some_iff.mp h
    cases h
    exact hforget

theorem reset_didGetColumn {position : Length} (h : self.reset position = some self') :
    self'.didGetColumn = self.didGetColumn := by
  rw [reset] at h
  split at h
  · exact goto_didGetColumn h
  · cases h
    rfl

theorem finish_didGetColumn {lookaheadEndByte lookaheadEndByte' : Nat}
    (h : self.finish lookaheadEndByte = some (self', lookaheadEndByte')) :
    self'.didGetColumn = self.didGetColumn := by
  rw [finish_eq] at h
  obtain ⟨marked, hmarked, h⟩ := bind_eq_some_iff.mp h
  have hmarkedDid : marked.didGetColumn = self.didGetColumn := by
    split at hmarked
    · exact markEnd_didGetColumn hmarked
    · cases hmarked
      rfl
  cases h
  rw [startInFront]
  split <;> exact hmarkedDid

end Lexer

/-! ### Two runs of a program -/

namespace LexerProgram

variable {α : Type} {program : LexerProgram α} {columns columns' : Columns} {lexer lexer' : Lexer}

theorem run_didGetColumn {last : Lexer} {result : α}
    (hrun : program.run columns lexer = some (last, result)) (h : lexer.didGetColumn = true) :
    last.didGetColumn = true := by
  induction program generalizing lexer with
  | done value =>
    cases hrun
    exact h
  | lookahead next ih => exact ih _ hrun h
  | setResultSymbol symbol next ih => exact ih hrun (by exact h)
  | advance skip next ih =>
    obtain ⟨lexer', hadvance, hrun⟩ := bind_eq_some_iff.mp hrun
    exact ih hrun ((Lexer.advance_didGetColumn hadvance).trans h)
  | markEnd next ih =>
    obtain ⟨lexer', hmarkEnd, hrun⟩ := bind_eq_some_iff.mp hrun
    exact ih hrun ((Lexer.markEnd_didGetColumn hmarkEnd).trans h)
  | getColumn next ih =>
    obtain ⟨result, hcolumn, hrun⟩ := bind_eq_some_iff.mp hrun
    exact ih _ hrun (columns.didGetColumn _ _ _ hcolumn)
  | isAtIncludedRangeStart next ih | eof next ih => exact ih _ hrun h

/-- Two runs of a program that differ in their columns have both asked for one, or they have come
to the same. -/
theorem run_twins {last last' : Lexer} {result result' : α} (htwins : Lexer.Twins lexer lexer')
    (hrun : program.run columns lexer = some (last, result))
    (hrun' : program.run columns' lexer' = some (last', result')) :
    (last.didGetColumn = true ∧ last'.didGetColumn = true) ∨
      (Lexer.Twins last last' ∧ result' = result) := by
  induction program generalizing lexer lexer' with
  | done value =>
    cases hrun
    cases hrun'
    exact .inr ⟨htwins, rfl⟩
  | lookahead next ih =>
    obtain ⟨columnData, rfl⟩ := htwins
    exact ih _ ⟨columnData, rfl⟩ hrun hrun'
  | setResultSymbol symbol next ih =>
    obtain ⟨columnData, rfl⟩ := htwins
    exact @ih { lexer with resultSymbol := symbol } _ ⟨columnData, rfl⟩ hrun hrun'
  | advance skip next ih =>
    obtain ⟨advanced, hadvance, hrun⟩ := bind_eq_some_iff.mp hrun
    obtain ⟨advanced', hadvance', hrun'⟩ := bind_eq_some_iff.mp hrun'
    exact ih ((htwins.advance skip).of_eq_some hadvance hadvance') hrun hrun'
  | markEnd next ih =>
    obtain ⟨marked, hmarkEnd, hrun⟩ := bind_eq_some_iff.mp hrun
    obtain ⟨marked', hmarkEnd', hrun'⟩ := bind_eq_some_iff.mp hrun'
    exact ih (htwins.markEnd.of_eq_some hmarkEnd hmarkEnd') hrun hrun'
  | getColumn next ih =>
    obtain ⟨result, hcolumn, hrun⟩ := bind_eq_some_iff.mp hrun
    obtain ⟨result', hcolumn', hrun'⟩ := bind_eq_some_iff.mp hrun'
    exact .inl ⟨run_didGetColumn hrun (columns.didGetColumn _ _ _ hcolumn),
      run_didGetColumn hrun' (columns'.didGetColumn _ _ _ hcolumn')⟩
  | isAtIncludedRangeStart next ih | eof next ih =>
    obtain ⟨columnData, rfl⟩ := htwins
    exact ih _ ⟨columnData, rfl⟩ hrun hrun'

end LexerProgram

end TreeSitter.Lib
