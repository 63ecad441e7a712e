import TreeSitter.Lib.Parser.Lex

/-!
# TreeSitter.Lib.Parser.LexColumn

**Two runs** of `ts_parser__lex` that see the same text, stack and state, but other columns. They
are the same up to the first attempt that asks for a column (`LexStep.Agree`).

Where only the attempt that finds the token asks, every token that could be another one in another
column is marked (`parserLex_dependsOnColumn`). No more is recorded: an attempt that asked and found
nothing may also decide which token is found after it (`not_parserLex_dependsOnColumn`).
-/

namespace TreeSitter.Lib

open Option

/-! ### Two runs -/

section Runs

variable {π : Type} {columns columns' : Columns} {language : LexLanguage π} {place : LexPlace}

/-- The variables are the same up to the column. -/
def LexLoop.Twins (loop loop' : LexLoop π) : Prop :=
  ∃ lexer', Lexer.Twins loop.lexer lexer' ∧ loop' = { loop with lexer := lexer' }

/-- The end is the same up to the column. -/
def LexEnd.Twins (result result' : LexEnd π) : Prop :=
  ∃ loop', LexLoop.Twins result.loop loop' ∧ result' = { result with loop := loop' }

/-- The external scanner has asked for a column. -/
def ExternalResult.Asked : ExternalResult π → Prop
  | .error _ => True
  | .found result => result.foundExternalToken = true ∧ result.calledGetColumn = true
  | .notFound loop => loop.lexer.didGetColumn = true

/-- The results are the same up to the column. -/
inductive ExternalResult.Twins : ExternalResult π → ExternalResult π → Prop where
  | error {loop loop' : LexLoop π} : Twins (.error loop) (.error loop')
  | found {result result' : LexEnd π} (h : result.Twins result') :
      Twins (.found result) (.found result')
  | notFound {loop loop' : LexLoop π} (h : loop.Twins loop') :
      Twins (.notFound loop) (.notFound loop')

variable {loop loop' : LexLoop π}

theorem LexLoop.resume_didGetColumn {currentPosition : Length} {columnData : ColumnData}
    (h : loop.resume currentPosition columnData = some loop') :
    loop'.lexer.didGetColumn = loop.lexer.didGetColumn := by
  obtain ⟨lexer, hreset, rfl⟩ := map_eq_some_iff.mp h
  have hdid := Lexer.reset_didGetColumn hreset
  exact hdid

variable {lexer : Lexer} {result : ExternalResult π}

/-- A scanner that has asked for a column leaves a mark, in the token or in the lexer. -/
theorem externalResult_asked {payload : π} {found : Bool} (hasked : lexer.didGetColumn = true)
    (h : externalResult language place loop lexer payload found = some result) :
    result.Asked := by
  dsimp only [externalResult] at h
  split at h
  · cases h
    exact trivial
  · obtain ⟨⟨finished, lookaheadEndByte⟩, hfinish, h⟩ := bind_eq_some_iff.mp h
    have hdid := (Lexer.finish_didGetColumn hfinish).trans hasked
    have hresume {loop : LexLoop π} {currentPosition : Length} {columnData : ColumnData}
        {result : ExternalResult π} (hloop : loop.lexer = finished)
        (h : (loop.resume currentPosition columnData).map .notFound = some result) :
        result.Asked := by
      obtain ⟨loop', hloop', rfl⟩ := map_eq_some_iff.mp h
      exact (LexLoop.resume_didGetColumn hloop').trans (hloop ▸ hdid)
    dsimp only at h
    split at h
    · split at h
      · exact hresume rfl h
      · cases h
        exact ⟨rfl, hdid⟩
    · exact hresume rfl h

theorem LexLoop.Twins.resume (h : loop.Twins loop') (currentPosition : Length)
    (columnData columnData' : ColumnData) :
    Option.Rel LexLoop.Twins (loop.resume currentPosition columnData)
      (loop'.resume currentPosition columnData') := by
  obtain ⟨lexer', htwins, rfl⟩ := h
  refine (htwins.reset currentPosition).map fun lexer lexer' hlexer => ?_
  obtain ⟨columnData, rfl⟩ := hlexer
  exact ⟨_, ⟨columnData', rfl⟩, rfl⟩

variable {lexer' : Lexer}

theorem externalResult_twins (hloop : loop.Twins loop') (hlexer : lexer.Twins lexer')
    (payload : π) (found : Bool) :
    Option.Rel ExternalResult.Twins (externalResult language place loop lexer payload found)
      (externalResult language place loop' lexer' payload found) := by
  obtain ⟨before, hbefore, rfl⟩ := hloop
  have hposition : before.currentPosition = loop.lexer.currentPosition := by
    obtain ⟨columnData, rfl⟩ := hbefore
    rfl
  refine .ite Iff.rfl (.some .error) ((hlexer.finish loop.lookaheadEndByte).bind ?_)
  rintro ⟨finished, lookaheadEndByte⟩ ⟨finished', lookaheadEndByte'⟩ ⟨hfinished, hend⟩
  dsimp only at hfinished hend
  subst hend
  -- The variables behind the scanner, with what is left of its payload.
  let after (lexer : Lexer) (payload : π) : LexLoop π :=
    { loop with lexer, payload, lookaheadEndByte := lookaheadEndByte' }
  have hafter (payload : π) : (after finished payload).Twins (after finished' payload) :=
    ⟨finished', hfinished, rfl⟩
  have hresume (payload : π) : Option.Rel ExternalResult.Twins
      (((after finished payload).resume loop.lexer.currentPosition
        loop.lexer.columnData).map .notFound)
      (((after finished' payload).resume before.currentPosition
        before.columnData).map .notFound) := by
    rw [hposition]
    exact ((hafter payload).resume _ _ _).map fun _ _ => .notFound
  refine .ite Iff.rfl (.ite ?_ (hresume _) (.some (.found ⟨_, hafter _, ?_⟩))) (hresume payload)
  · rw [hposition]
    obtain ⟨columnData, rfl⟩ := hfinished
    exact Iff.rfl
  · obtain ⟨columnData, rfl⟩ := hfinished
    rfl

theorem lexExternal_twins (hloop : loop.Twins loop') {result' : ExternalResult π}
    (h : lexExternal columns language place loop = some result)
    (h' : lexExternal columns' language place loop' = some result') :
    (result.Asked ∧ result'.Asked) ∨ result.Twins result' := by
  obtain ⟨started, hstart, h⟩ := bind_eq_some_iff.mp h
  obtain ⟨started', hstart', h'⟩ := bind_eq_some_iff.mp h'
  obtain ⟨⟨last, payload, found⟩, hrun, h⟩ := bind_eq_some_iff.mp h
  obtain ⟨⟨last', payload', found'⟩, hrun', h'⟩ := bind_eq_some_iff.mp h'
  have hkept := hloop
  obtain ⟨lexer', hlexer, rfl⟩ := hkept
  have hstarted := hlexer.start.of_eq_some hstart hstart'
  rcases LexerProgram.run_twins hstarted hrun hrun' with ⟨hasked, hasked'⟩ | ⟨hlast, hequal⟩
  · exact .inl ⟨externalResult_asked hasked h, externalResult_asked hasked' h'⟩
  · cases hequal
    exact .inr ((externalResult_twins hloop hlast payload found).of_eq_some h h')

theorem lexInternal_twins {last last' : LexLoop π} (hloop : loop.Twins loop')
    {found found' : Bool} (h : lexInternal columns language loop = some (last, found))
    (h' : lexInternal columns' language loop' = some (last', found')) :
    (last.lexer.didGetColumn = true ∧ last'.lexer.didGetColumn = true) ∨
      (last.Twins last' ∧ found' = found) := by
  obtain ⟨started, hstart, h⟩ := bind_eq_some_iff.mp h
  obtain ⟨started', hstart', h'⟩ := bind_eq_some_iff.mp h'
  obtain ⟨⟨ran, value⟩, hrun, h⟩ := bind_eq_some_iff.mp h
  obtain ⟨⟨ran', value'⟩, hrun', h'⟩ := bind_eq_some_iff.mp h'
  obtain ⟨⟨finished, lookaheadEndByte⟩, hfinish, h⟩ := bind_eq_some_iff.mp h
  obtain ⟨⟨finished', lookaheadEndByte'⟩, hfinish', h'⟩ := bind_eq_some_iff.mp h'
  cases h
  cases h'
  obtain ⟨lexer', hlexer, rfl⟩ := hloop
  have hstarted := hlexer.start.of_eq_some hstart hstart'
  rcases LexerProgram.run_twins hstarted hrun hrun' with ⟨hasked, hasked'⟩ | ⟨hran, hequal⟩
  · exact .inl ⟨(Lexer.finish_didGetColumn hfinish).trans hasked,
      (Lexer.finish_didGetColumn hfinish').trans hasked'⟩
  · obtain ⟨hfinished, hend⟩ := (hran.finish _).of_eq_some hfinish hfinish'
    dsimp only at hfinished hend
    subst hend
    exact .inr ⟨⟨finished', hfinished, rfl⟩, hequal⟩

/-! ### Asking only for the token -/

/-- The external scanner asks for a column only for a token that is returned. -/
def ExternalResult.AsksForToken : ExternalResult π → Prop
  | .error _ => True
  | .found result => result.calledGetColumn = true → result.loop.skippedError = false
  | .notFound loop => loop.lexer.didGetColumn = false

variable (columns language place) in
/-- In a round of the loop, only an external scanner that finds the token asks for a column. -/
structure LexLoop.AsksForToken (loop : LexLoop π) : Prop where
  external : loop.lexMode.externalLexState ≠ 0 → ∀ result,
    lexExternal columns language place loop = some result → result.AsksForToken
  internal : ∀ rest, externalStep columns language place loop = some (.notFound rest) →
    ∀ last found, lexInternal columns language rest = some (last, found) →
      last.lexer.didGetColumn = false

variable (columns language place) in
/-- So it is in every round. -/
def RoundsAskForToken : Nat → LexLoop π → Prop
  | 0, _ => True
  | fuel + 1, loop => loop.AsksForToken columns language place ∧
      ∀ next, lexStep columns language place loop = some (.again next) →
        RoundsAskForToken fuel next

/-- The token has been found by an external scanner that asked for a column. -/
structure LexEnd.Marked (result : LexEnd π) : Prop where
  foundExternalToken : result.foundExternalToken = true
  calledGetColumn : result.calledGetColumn = true
  skippedError : result.loop.skippedError = false

/-- Two rounds that differ in their columns: the token is marked in both, or they lead to the
same, or there is an error. -/
inductive LexStep.Agree : LexStep π → LexStep π → Prop where
  | marked {result result' : LexEnd π} (h : result.Marked) (h' : result'.Marked) :
      Agree (.done result) (.done result')
  | error (loop : LexLoop π) (step : LexStep π) : Agree (.error loop) step
  | error' (step : LexStep π) (loop : LexLoop π) : Agree step (.error loop)
  | done {result result' : LexEnd π} (h : result.Twins result') :
      Agree (.done result) (.done result')
  | again {loop loop' : LexLoop π} (h : loop.Twins loop') : Agree (.again loop) (.again loop')

theorem externalStep_agree (hloop : loop.Twins loop')
    (hasks : loop.AsksForToken columns language place)
    (hasks' : loop'.AsksForToken columns' language place) {result' : ExternalResult π}
    (h : externalStep columns language place loop = some result)
    (h' : externalStep columns' language place loop' = some result') :
    (∃ ended ended', result = .found ended ∧ result' = .found ended' ∧ ended.Marked ∧
        ended'.Marked) ∨
      (∃ loop, result = .error loop) ∨ (∃ loop, result' = .error loop) ∨ result.Twins result' := by
  have hmode : loop'.lexMode = loop.lexMode := by
    obtain ⟨lexer', -, rfl⟩ := hloop
    rfl
  rw [externalStep] at h h'
  rw [hmode] at h'
  split at h
  next hstate =>
    rw [if_pos hstate] at h'
    rcases lexExternal_twins hloop h h' with ⟨hasked, hasked'⟩ | htwins
    · have hfor := hasks.external hstate result h
      have hfor' := hasks'.external (hmode ▸ hstate) result' h'
      cases result with
      | error loop => exact .inr (.inl ⟨loop, rfl⟩)
      | notFound loop => exact absurd (hasked.symm.trans hfor) Bool.noConfusion
      | found ended =>
        cases result' with
        | error loop => exact .inr (.inr (.inl ⟨loop, rfl⟩))
        | notFound loop => exact absurd (hasked'.symm.trans hfor') Bool.noConfusion
        | found ended' =>
          exact .inl ⟨ended, ended', rfl, rfl, ⟨hasked.1, hasked.2, hfor hasked.2⟩,
            ⟨hasked'.1, hasked'.2, hfor' hasked'.2⟩⟩
    · exact .inr (.inr (.inr htwins))
  next hstate =>
    rw [if_neg hstate] at h'
    cases h
    cases h'
    exact .inr (.inr (.inr (.notFound hloop)))

theorem skipCharacter_twins (h : loop.Twins loop') :
    Option.Rel LexStep.Agree loop.skipCharacter loop'.skipCharacter := by
  have hskip : loop.skipError.Twins loop'.skipError := by
    obtain ⟨lexer', hlexer, rfl⟩ := h
    obtain ⟨columnData, rfl⟩ := hlexer
    rw [LexLoop.skipError, LexLoop.skipError]
    split
    · exact ⟨_, ⟨columnData, rfl⟩, rfl⟩
    · exact ⟨_, ⟨columnData, rfl⟩, rfl⟩
  rw [LexLoop.skipCharacter, LexLoop.skipCharacter]
  generalize loop.skipError = skipped at hskip
  generalize loop'.skipError = skipped' at hskip
  obtain ⟨lexer', hlexer, rfl⟩ := hskip
  have hadvance := hlexer.advance false
  obtain ⟨columnData, rfl⟩ := hlexer
  refine .ite Iff.rfl (.ite Iff.rfl ?_ (hadvance.bind fun lexer lexer' hlexer => ?_)) ?_
  · exact .some (.done ⟨_, ⟨_, ⟨columnData, rfl⟩, rfl⟩, rfl⟩)
  · obtain ⟨columnData, rfl⟩ := hlexer
    exact .some (.again ⟨_, ⟨columnData, rfl⟩, rfl⟩)
  · exact .some (.again ⟨_, ⟨columnData, rfl⟩, rfl⟩)

theorem lexInternalStep_agree (hloop : loop.Twins loop') (hasks : ∀ last found, lexInternal
      columns language loop = some (last, found) → last.lexer.didGetColumn = false)
    {step step' : LexStep π} (h : lexInternalStep columns language place loop = some step)
    (h' : lexInternalStep columns' language place loop' = some step') : step.Agree step' := by
  obtain ⟨⟨last, found⟩, hlex, h⟩ := bind_eq_some_iff.mp h
  obtain ⟨⟨last', found'⟩, hlex', h'⟩ := bind_eq_some_iff.mp h'
  rcases lexInternal_twins hloop hlex hlex' with ⟨hasked, -⟩ | ⟨hlast, rfl⟩
  · exact absurd (hasked.symm.trans (hasks last found hlex)) Bool.noConfusion
  · refine Option.Rel.of_eq_some (.ite Iff.rfl (.some (.done ⟨last', hlast, ?_⟩))
      (.ite ?_ ?_ (skipCharacter_twins hlast))) h h'
    · obtain ⟨lexer', -, rfl⟩ := hlast
      rfl
    · obtain ⟨lexer', -, rfl⟩ := hlast
      exact Iff.rfl
    · obtain ⟨lexer', hlexer, rfl⟩ := hlast
      exact (hlexer.reset _).bind fun reset reset' hreset => .some (.again ⟨reset', hreset, rfl⟩)

theorem lexStep_agree (hloop : loop.Twins loop')
    (hasks : loop.AsksForToken columns language place)
    (hasks' : loop'.AsksForToken columns' language place) {step step' : LexStep π}
    (h : lexStep columns language place loop = some step)
    (h' : lexStep columns' language place loop' = some step') : step.Agree step' := by
  obtain ⟨result, hexternal, h⟩ := bind_eq_some_iff.mp h
  obtain ⟨result', hexternal', h'⟩ := bind_eq_some_iff.mp h'
  rcases externalStep_agree hloop hasks hasks' hexternal hexternal' with
    ⟨ended, ended', rfl, rfl, hmarked, hmarked'⟩ | ⟨loop, rfl⟩ | ⟨loop, rfl⟩ | htwins
  · cases h
    cases h'
    exact .marked hmarked hmarked'
  · cases h
    exact .error _ _
  · cases h'
    exact .error' _ _
  · cases htwins with
    | error =>
      cases h
      exact .error _ _
    | found htwins =>
      cases h
      cases h'
      exact .done htwins
    | notFound htwins =>
      exact lexInternalStep_agree htwins (hasks.internal _ hexternal) h h'

/-- Two runs of the loop that come to a token: it is marked in both, or they come to the same. -/
theorem lexLoop_agree {fuel fuel' : Nat} (hloop : loop.Twins loop')
    (hasks : RoundsAskForToken columns language place fuel loop)
    (hasks' : RoundsAskForToken columns' language place fuel' loop') {result result' : LexEnd π}
    (h : lexLoop columns language place fuel loop = some (some result))
    (h' : lexLoop columns' language place fuel' loop' = some (some result')) :
    (result.Marked ∧ result'.Marked) ∨ result.Twins result' := by
  induction fuel generalizing fuel' loop loop' with
  | zero => cases h
  | succ fuel ih =>
    cases fuel' with
    | zero => cases h'
    | succ fuel' =>
      obtain ⟨step, hstep, h⟩ := bind_eq_some_iff.mp h
      obtain ⟨step', hstep', h'⟩ := bind_eq_some_iff.mp h'
      cases lexStep_agree hloop hasks.1 hasks'.1 hstep hstep' with
      | marked hmarked hmarked' =>
        cases h
        cases h'
        exact .inl ⟨hmarked, hmarked'⟩
      | error loop step => cases h
      | error' step loop => cases h'
      | done htwins =>
        cases h
        cases h'
        exact .inr htwins
      | again htwins =>
        exact ih htwins (hasks.2 _ hstep) (hasks'.2 _ hstep') h h'

variable {leaf : LeafData}

theorem LexEnd.Marked.dependsOnColumn {result : LexEnd π} (hmarked : result.Marked)
    (h : lexResult columns language place result = some (leaf, lexer)) :
    leaf.dependsOnColumn = true := by
  rw [lexResult] at h
  dsimp only at h
  rw [if_neg (by rw [hmarked.skippedError]; exact Bool.false_ne_true)] at h
  obtain ⟨⟨last, symbol, isKeyword⟩, hsymbol, h⟩ := bind_eq_some_iff.mp h
  dsimp only at h
  rw [if_pos hmarked.foundExternalToken] at h
  cases h
  dsimp only [LeafData.new]
  rw [hmarked.foundExternalToken, hmarked.calledGetColumn]
  simp

variable (columns language place) in
/-- The keyword lexer, where it is called, does not ask for a column. -/
def LexEnd.AsksForToken (result : LexEnd π) : Prop :=
  let symbol := result.loop.lexer.resultSymbol
  result.loop.skippedError = false → result.foundExternalToken = false →
    symbol = language.keywordCaptureToken → symbol ≠ 0 → ∀ lexer keyword isKeyword,
      lexKeyword columns language place result.loop.lexer symbol =
        some (lexer, keyword, isKeyword) → lexer.didGetColumn = false

theorem lexKeyword_twins (hlexer : lexer.Twins lexer') {symbol : Nat}
    {result result' : Lexer × Nat × Bool}
    (h : lexKeyword columns language place lexer symbol = some result)
    (h' : lexKeyword columns' language place lexer' symbol = some result')
    (hasks : result.1.didGetColumn = false) : result'.2 = result.2 := by
  obtain ⟨reset, hreset, h⟩ := bind_eq_some_iff.mp h
  obtain ⟨reset', hreset', h'⟩ := bind_eq_some_iff.mp h'
  obtain ⟨started, hstart, h⟩ := bind_eq_some_iff.mp h
  obtain ⟨started', hstart', h'⟩ := bind_eq_some_iff.mp h'
  obtain ⟨⟨last, isKeyword⟩, hrun, h⟩ := bind_eq_some_iff.mp h
  obtain ⟨⟨last', isKeyword'⟩, hrun', h'⟩ := bind_eq_some_iff.mp h'
  have hends : lexer'.tokenStartPosition = lexer.tokenStartPosition ∧
      lexer'.tokenEndPosition = lexer.tokenEndPosition := by
    obtain ⟨columnData, rfl⟩ := hlexer
    exact ⟨rfl, rfl⟩
  rw [hends.1] at hreset'
  have hresetTwins := (hlexer.reset _).of_eq_some hreset hreset'
  have hstarted := hresetTwins.start.of_eq_some hstart hstart'
  rcases LexerProgram.run_twins hstarted hrun hrun' with ⟨hasked, -⟩ | ⟨hlast, rfl⟩
  · have hresult : result.1 = last := by
      dsimp only at h
      split at h <;> cases h <;> rfl
    rw [hresult, hasked] at hasks
    cases hasks
  · obtain ⟨columnData, rfl⟩ := hlast
    dsimp only at h h'
    rw [hends.2] at h'
    exact Option.Rel.of_eq_some (r := fun result result' => result'.2 = result.2)
      (.ite Iff.rfl (.some rfl) (.some rfl)) h h'

theorem LexEnd.Twins.leaf_eq {result result' : LexEnd π} (htwins : result.Twins result')
    (hasks : result.AsksForToken columns language place) {leaf' : LeafData}
    (h : lexResult columns language place result = some (leaf, lexer))
    (h' : lexResult columns' language place result' = some (leaf', lexer')) : leaf' = leaf := by
  obtain ⟨loop', ⟨last', hlast, rfl⟩, rfl⟩ := htwins
  have hsymbol {found found' : Lexer × Nat × Bool} (hskipped : result.loop.skippedError = false)
      (hfound : lexSymbol columns language place result = some found)
      (hfound' : lexSymbol columns' language place
        { result with loop := { result.loop with lexer := last' } } = some found') :
      found'.2 = found.2 := by
    have hresultSymbol : last'.resultSymbol = result.loop.lexer.resultSymbol := by
      obtain ⟨columnData, rfl⟩ := hlast
      rfl
    rw [lexSymbol] at hfound hfound'
    dsimp only at hfound hfound'
    rw [hresultSymbol] at hfound'
    split at hfound
    next hexternal =>
      rw [if_pos hexternal] at hfound'
      cases hfound
      cases hfound'
      rfl
    next hexternal =>
      rw [if_neg hexternal] at hfound'
      split at hfound
      next hcapture =>
        rw [if_pos hcapture] at hfound'
        exact lexKeyword_twins hlast hfound hfound'
          (hasks hskipped (Bool.eq_false_iff.mpr hexternal) hcapture.1 hcapture.2 _ _ _ hfound)
      next hcapture =>
        rw [if_neg hcapture] at hfound'
        cases hfound
        cases hfound'
        rfl
  rw [lexResult] at h h'
  dsimp only at h h'
  split at h
  next hskipped =>
    rw [if_pos hskipped] at h'
    cases h
    cases h'
    rfl
  next hskipped =>
    rw [if_neg hskipped] at h'
    obtain ⟨⟨last, symbol, isKeyword⟩, hfound, h⟩ := bind_eq_some_iff.mp h
    obtain ⟨⟨last'', symbol', isKeyword'⟩, hfound', h'⟩ := bind_eq_some_iff.mp h'
    cases hsymbol (Bool.eq_false_iff.mpr hskipped) hfound hfound'
    obtain ⟨columnData, rfl⟩ := hlast
    dsimp only at h h'
    split at h
    next hexternal =>
      rw [if_pos hexternal] at h'
      cases h
      cases h'
      rfl
    next hexternal =>
      rw [if_neg hexternal] at h'
      cases h
      cases h'
      rfl

variable (columns language place) in
/-- Lexing asks for a column only for the token that it finds. -/
def LexAsksForToken (fuel : Nat) (lexer : Lexer) (payload : π) : Prop :=
  ∀ reset, lexer.reset place.startPosition = some reset →
    let first := LexLoop.first place (language.lexModes place.parseState) reset payload
    RoundsAskForToken columns language place fuel first ∧
      ∀ result, lexLoop columns language place fuel first = some (some result) →
        result.AsksForToken columns language place

theorem lexAt_dependsOnColumn {fuel : Nat} {payload : π} (hlexer : lexer.Twins lexer')
    (hasks : LexAsksForToken columns language place fuel lexer payload)
    (hasks' : LexAsksForToken columns' language place fuel lexer' payload) {leaf' : LeafData}
    {rest rest' : Lexer × π}
    (h : lexAt columns language place fuel lexer payload = some (some (leaf, rest)))
    (h' : lexAt columns' language place fuel lexer' payload = some (some (leaf', rest'))) :
    (leaf.dependsOnColumn = true ∧ leaf'.dependsOnColumn = true) ∨ leaf' = leaf := by
  rw [lexAt] at h h'
  dsimp only at h h'
  split at h
  next => cases h
  next hstate =>
    rw [if_neg hstate] at h'
    obtain ⟨reset, hreset, h⟩ := bind_eq_some_iff.mp h
    obtain ⟨reset', hreset', h'⟩ := bind_eq_some_iff.mp h'
    obtain ⟨result, hloop, h⟩ := bind_eq_some_iff.mp h
    obtain ⟨result', hloop', h'⟩ := bind_eq_some_iff.mp h'
    cases result with
    | none => cases h
    | some result =>
      cases result' with
      | none => cases h'
      | some result' =>
        obtain ⟨⟨found, last⟩, hfound, h⟩ := bind_eq_some_iff.mp h
        obtain ⟨⟨found', last'⟩, hfound', h'⟩ := bind_eq_some_iff.mp h'
        cases h
        cases h'
        obtain ⟨hrounds, hkeyword⟩ := hasks reset hreset
        obtain ⟨hrounds', -⟩ := hasks' reset' hreset'
        have hresetTwins := (hlexer.reset _).of_eq_some hreset hreset'
        rcases lexLoop_agree ⟨reset', hresetTwins, rfl⟩ hrounds hrounds' hloop hloop' with
          ⟨hmarked, hmarked'⟩ | htwins
        · exact .inl ⟨hmarked.dependsOnColumn hfound, hmarked'.dependsOnColumn hfound'⟩
        · exact .inr (htwins.leaf_eq (hkeyword result hloop) hfound hfound')

/-- **Dependence on the column is recorded.** Two runs see the same text, stack and state, but
other columns. If only the attempt that finds the token asks for a column, in each of them, and the
tokens have another symbol or another extent, then both depend on the column. -/
theorem parserLex_dependsOnColumn {τ : Type} {view : τ → SubtreeView} {stack : Stack τ}
    {version parseState fuel : Nat} {lexer lexer' : Lexer} {payload : π}
    (hlexer : lexer.Twins lexer')
    (hasks : ∀ place, stack.lexPlace view fuel version parseState = some place →
      LexAsksForToken columns language place fuel lexer payload)
    (hasks' : ∀ place, stack.lexPlace view fuel version parseState = some place →
      LexAsksForToken columns' language place fuel lexer' payload)
    {leaf leaf' : LeafData} {rest rest' : Lexer × π}
    (h : parserLex columns language view stack version parseState fuel lexer payload =
      some (some (leaf, rest)))
    (h' : parserLex columns' language view stack version parseState fuel lexer' payload =
      some (some (leaf', rest')))
    (hdiffer : leaf.symbol ≠ leaf'.symbol ∨ leaf.padding ≠ leaf'.padding ∨
      leaf.size ≠ leaf'.size) :
    leaf.dependsOnColumn = true ∧ leaf'.dependsOnColumn = true := by
  obtain ⟨place, hplace, h⟩ := bind_eq_some_iff.mp h
  obtain ⟨place', hplace', h'⟩ := bind_eq_some_iff.mp h'
  cases hplace.symm.trans hplace'
  refine Or.resolve_right
    (lexAt_dependsOnColumn hlexer (hasks place hplace) (hasks' place hplace) h h') fun heq => ?_
  subst heq
  simp at hdiffer

end Runs

/-! ### Scanners that ask for a column -/

/-- `ts_lexer__get_column` where another text is in front of the position. -/
def columnsIn (input : TSInput) (fuel : Nat) : Columns where
  get self := (Lexer.getColumn { self with input } fuel).map fun result =>
    ({ self with didGetColumn := true }, result.2)
  didGetColumn := by
    intro lexer lexer' column h
    obtain ⟨result, -, hresult⟩ := map_eq_some_iff.mp h
    cases hresult
    rfl

/-- An external scanner that takes a character for one token in the first column and for another
one elsewhere, if it finds a token there. The lex function takes it for a third one. -/
def columnLanguage (found : Nat → Bool) : LexLanguage Unit where
  tables :=
    { symbolCount := 4, tokenCount := 4, stateCount := 2, largeStateCount := 2
      parseTable := fun _ => 0, smallParseTable := fun _ => 0, smallParseTableMap := fun _ => 0
      parseActions := fun _ => .entry 0 false }
  symbolMetadata _ := ⟨true, true, false⟩
  lexModes _ := ⟨0, 1, 0⟩
  maxReservedWordSetSize := 0
  reservedWords _ := 0
  keywordCaptureToken := 0
  lexFn _ := .setResultSymbol 3 (.advance false (.markEnd (.done true)))
  keywordLexFn := .done false
  scanner :=
    { symbolMap := fun symbol => symbol + 1
      deserialize := fun _ _ => ()
      scan := fun _ _ => .getColumn fun column => .setResultSymbol (if column = 1 then 0 else 1)
        (.advance false (.markEnd (.done ((), found column))))
      serialize := fun _ => ([], ())
      hasError := fun _ => false }

/-- The text `abx`. -/
def abx : TSInput := Lexer.asciiInput [97, 98, 120] (by decide) (by decide)

/-- The text `éx`, which is as long. -/
def eAcuteX : TSInput where
  encoding := .utf8
  read := fun _ byte _ => ⟨[195, 169, 120].drop byte,
    fun b hb => (show ∀ b ∈ [195, 169, 120], b < 256 by decide) b (List.mem_of_mem_drop hb),
    (List.length_drop ▸ Nat.sub_le _ _).trans_lt (show 3 < 2 ^ 32 by decide)⟩
  decode := fun _ => none

def twoBytes : SubtreeView where
  symbol := 1
  padding := .zero
  size := ⟨2, 0, 2⟩
  childCount := 0
  errorCost := 0
  visible := true
  extra := false
  visibleDescendantCount := 0
  dynamicPrecedence := 0
  externalScannerState := []

def twoBytesStack : Option (Stack SubtreeView) := Stack.new.push id 0 (some twoBytes) false 1

/-- The `x` behind two bytes of a text, with the columns of a text. -/
def lexX (found : Nat → Bool) (columns : Columns) : Option (Option (LeafData × Lexer × Unit)) :=
  (Lexer.init abx).bind fun lexer => twoBytesStack.bind fun stack =>
    parserLex columns (columnLanguage found) id stack 0 1 1 lexer ()

theorem lexX_abx : (lexX (· = 1) (columnsIn abx 5)).map (Option.map fun result =>
    (result.1.symbol, result.1.dependsOnColumn)) = some (some (3, false)) := by
  decide +kernel

theorem lexX_eAcuteX : (lexX (· = 1) (columnsIn eAcuteX 5)).map (Option.map fun result =>
    (result.1.symbol, result.1.dependsOnColumn)) = some (some (1, true)) := by
  decide +kernel

theorem exists_of_lexX {found : Nat → Bool} {columns : Columns} {β : Type}
    {f : LeafData × Lexer × Unit → β} {value : β}
    (h : (lexX found columns).map (Option.map f) = some (some value)) :
    ∃ lexer stack result, Lexer.init abx = some lexer ∧ twoBytesStack = some stack ∧
      parserLex columns (columnLanguage found) id stack 0 1 1 lexer () = some (some result) ∧
        f result = value := by
  obtain ⟨leaf, hlex, hleaf⟩ := map_eq_some_iff.mp h
  obtain ⟨lexer, hlexer, hlex⟩ := bind_eq_some_iff.mp hlex
  obtain ⟨stack, hstack, hlex⟩ := bind_eq_some_iff.mp hlex
  obtain ⟨result, rfl, hresult⟩ := map_eq_some_iff.mp hleaf
  exact ⟨lexer, stack, result, hlexer, hstack, hlex, hresult⟩

/-- The scanner asks for the column and finds nothing behind `ab`, where the lex function then finds
a token. Behind `é` the scanner finds another one. The first token is not marked. -/
theorem not_parserLex_dependsOnColumn :
    ¬ ∀ (language : LexLanguage Unit) (columns columns' : Columns) (stack : Stack SubtreeView)
      (version parseState fuel : Nat) (lexer lexer' : Lexer) (payload : Unit)
      (leaf leaf' : LeafData) (rest rest' : Lexer × Unit), lexer.Twins lexer' →
        parserLex columns language id stack version parseState fuel lexer payload =
          some (some (leaf, rest)) →
        parserLex columns' language id stack version parseState fuel lexer' payload =
          some (some (leaf', rest')) →
        (leaf.symbol ≠ leaf'.symbol ∨ leaf.padding ≠ leaf'.padding ∨ leaf.size ≠ leaf'.size) →
          leaf.dependsOnColumn = true ∧ leaf'.dependsOnColumn = true := by
  intro h
  obtain ⟨lexer, stack, ⟨leaf, rest⟩, hlexer, hstack, hlex, hleaf⟩ := exists_of_lexX lexX_abx
  obtain ⟨lexer', stack', ⟨leaf', rest'⟩, hlexer', hstack', hlex', hleaf'⟩ :=
    exists_of_lexX lexX_eAcuteX
  cases hlexer.symm.trans hlexer'
  cases hstack.symm.trans hstack'
  rw [Prod.mk.injEq] at hleaf hleaf'
  have hboth := h _ _ _ stack 0 1 1 lexer lexer () leaf leaf' rest rest' ⟨lexer.columnData, rfl⟩
    hlex hlex' (.inl (by rw [hleaf.1, hleaf'.1]; decide))
  rw [hleaf.2] at hboth
  cases hboth.1

/-- What the external scanner leads to at the `x`, if it is a token: whether it has asked for a
column, and whether a character was skipped before. -/
def externalX (columns : Columns) : Option (Option (Bool × Bool)) :=
  (Lexer.init abx).bind fun lexer => twoBytesStack.bind fun stack =>
    (stack.lexPlace id 1 0 1).bind fun place => (lexer.reset place.startPosition).bind fun reset =>
      (externalStep columns (columnLanguage fun _ => true) place
        (.first place ⟨0, 1, 0⟩ reset ())).map fun result =>
          match result with
          | .found ended => some (ended.foundExternalToken, ended.loop.skippedError)
          | _ => none

theorem externalX_abx : externalX (columnsIn abx 5) = some (some (true, false)) := by
  decide +kernel

theorem externalX_eAcuteX : externalX (columnsIn eAcuteX 5) = some (some (true, false)) := by
  decide +kernel

theorem lexAsksForToken_of_externalX {columns : Columns}
    (hexternal : externalX columns = some (some (true, false))) {lexer : Lexer}
    {stack : Stack SubtreeView} {place : LexPlace} (hlexer : Lexer.init abx = some lexer)
    (hstack : twoBytesStack = some stack) (hplace : stack.lexPlace id 1 0 1 = some place) :
    LexAsksForToken columns (columnLanguage fun _ => true) place 1 lexer () := by
  intro reset hreset first
  rw [externalX, hlexer, bind_some, hstack, bind_some, hplace, bind_some,
    hreset, bind_some] at hexternal
  obtain ⟨result, hstep, hresult⟩ := map_eq_some_iff.mp hexternal
  replace hstep : externalStep columns (columnLanguage fun _ => true) place first =
      some result := hstep
  cases result with
  | error loop | notFound loop => cases hresult
  | found ended =>
    have hended : ended.foundExternalToken = true ∧ ended.loop.skippedError = false := by
      simpa using hresult
    refine ⟨⟨⟨fun _ other hother => ?_, fun rest hrest => ?_⟩, fun _ _ => trivial⟩,
      fun last hlast _ hfound => ?_⟩
    · have hlexExternal : externalStep columns (columnLanguage fun _ => true) place first =
          some other := hother
      cases hstep.symm.trans hlexExternal
      exact fun _ => hended.2
    · cases hstep.symm.trans hrest
    · obtain ⟨step, hround, hlast⟩ := bind_eq_some_iff.mp hlast
      rw [lexStep, hstep] at hround
      cases hround
      cases hlast
      rw [hended.1] at hfound
      cases hfound

theorem lexX_always : ((lexX (fun _ => true) (columnsIn abx 5)).map (Option.map fun result =>
      result.1.symbol), (lexX (fun _ => true) (columnsIn eAcuteX 5)).map (Option.map fun result =>
      result.1.symbol)) = (some (some 2), some (some 1)) := by
  decide +kernel

/-- The tokens that the scanner finds in two columns are marked. -/
theorem parserLex_dependsOnColumn_x :
    ∃ leaf leaf' rest rest',
      lexX (fun _ => true) (columnsIn abx 5) = some (some (leaf, rest)) ∧
        lexX (fun _ => true) (columnsIn eAcuteX 5) = some (some (leaf', rest')) ∧
          leaf.symbol ≠ leaf'.symbol ∧ leaf.dependsOnColumn = true ∧
            leaf'.dependsOnColumn = true := by
  obtain ⟨habx, heAcuteX⟩ := Prod.mk.inj lexX_always
  obtain ⟨lexer, stack, ⟨leaf, rest⟩, hlexer, hstack, hlex, hleaf⟩ := exists_of_lexX habx
  obtain ⟨lexer', stack', ⟨leaf', rest'⟩, hlexer', hstack', hlex', hleaf'⟩ :=
    exists_of_lexX heAcuteX
  cases hlexer.symm.trans hlexer'
  cases hstack.symm.trans hstack'
  have hsymbol : leaf.symbol ≠ leaf'.symbol := by
    dsimp only at hleaf hleaf'
    rw [hleaf, hleaf']
    decide
  have hmarked := parserLex_dependsOnColumn ⟨lexer.columnData, rfl⟩
    (fun _ hplace => lexAsksForToken_of_externalX externalX_abx hlexer hstack hplace)
    (fun _ hplace => lexAsksForToken_of_externalX externalX_eAcuteX hlexer hstack hplace)
    hlex hlex' (.inl hsymbol)
  refine ⟨leaf, leaf', rest, rest', ?_, ?_, hsymbol, hmarked⟩
  · rw [lexX, hlexer, bind_some, hstack, bind_some]
    exact hlex
  · rw [lexX, hlexer, bind_some, hstack, bind_some]
    exact hlex'

end TreeSitter.Lib
