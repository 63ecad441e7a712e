import TreeSitter.Lib.Language
import TreeSitter.Lib.Lexer.Program
import TreeSitter.Lib.Stack
import TreeSitter.Lib.Subtree.Edit
import TreeSitter.Lib.SyntaxTree

/-!
# TreeSitter.Lib.Parser.Lex

`ts_parser__lex`: the **next token** of a stack version. An external scanner comes first, then the
generated lex function; if neither finds a token, both are tried again in the error state's mode,
and then from one character to the next.

A token **depends on the column** if the external scanner that found it has asked for one.

The number of rounds is bounded by fuel. The payload of the external scanner is of any type. Log
messages are left out.
-/

namespace TreeSitter.Lib

/-! ### Languages -/

/-- `TSLexerMode`. -/
structure TSLexerMode where
  lexState : Nat
  externalLexState : Nat
  reservedWordSetId : Nat

/-- `external_scanner`, with the errors of a Wasm store as a part of the payload. -/
structure ExternalScanner (π : Type) where
  symbolMap : Nat → Nat
  deserialize : π → List Nat → π
  scan : Nat → π → LexerProgram (π × Bool)
  serialize : π → List Nat × π
  hasError : π → Bool

/-- `TSLanguage`, of what lexing reads. -/
structure LexLanguage (π : Type) where
  tables : TSLanguage
  symbolMetadata : Nat → SymbolMetadata
  lexModes : Nat → TSLexerMode
  maxReservedWordSetSize : Nat
  reservedWords : Nat → Nat
  keywordCaptureToken : Nat
  lexFn : Nat → LexerProgram Bool
  keywordLexFn : LexerProgram Bool
  scanner : ExternalScanner π

namespace LexLanguage

variable {π : Type} (language : LexLanguage π)

/-- `ts_language_symbol_metadata`. -/
def metadata (symbol : Nat) : SymbolMetadata :=
  if symbol = builtinSymError then { visible := true, named := true, supertype := false }
  else if symbol = builtinSymErrorRepeat then
    { visible := false, named := false, supertype := false }
  else language.symbolMetadata symbol

/-- `ts_language_has_actions`. -/
def hasActions (state symbol : Nat) : Bool := languageLookup language.tables state symbol ≠ 0

/-- The loop over a set of reserved words, from an index on. -/
def findReservedWord (symbol : Nat) : Nat → Nat → Bool
  | 0, _ => false
  | count + 1, i =>
    if language.reservedWords i = symbol then true
    else if language.reservedWords i = 0 then false
    else findReservedWord symbol count (i + 1)

/-- `ts_language_is_reserved_word`. -/
def isReservedWord (state symbol : Nat) : Bool :=
  let lexMode := language.lexModes state
  if lexMode.reservedWordSetId > 0 then
    language.findReservedWord symbol language.maxReservedWordSetSize
      (lexMode.reservedWordSetId * language.maxReservedWordSetSize)
  else false

end LexLanguage

/-! ### Leaves -/

/-- `SubtreeHeapData` and `SubtreeInlineData` of a leaf. -/
structure LeafData where
  symbol : Nat
  padding : Length
  size : Length
  lookaheadBytes : Nat
  parseState : Nat
  visible : Bool
  named : Bool
  extra : Bool
  fragileLeft : Bool
  fragileRight : Bool
  hasExternalTokens : Bool
  hasExternalScannerStateChange : Bool
  dependsOnColumn : Bool
  isKeyword : Bool
  isInline : Bool
  lookaheadChar : Int
  externalScannerState : List Nat

/-- `ts_builtin_sym_end`. -/
def builtinSymEnd : Nat := 0

/-- `ts_subtree_new_leaf`. An inline leaf has no room for the marks of an external token and of the
column. -/
def LeafData.new {π : Type} (language : LexLanguage π) (symbol : Nat) (padding size : Length)
    (lookaheadBytes parseState : Nat) (hasExternalTokens dependsOnColumn isKeyword : Bool) :
    LeafData :=
  let metadata := language.metadata symbol
  let isInline := symbol ≤ 255 && !hasExternalTokens && canInline padding size lookaheadBytes
  { symbol, padding, size, lookaheadBytes, parseState
    visible := metadata.visible, named := metadata.named, extra := symbol = builtinSymEnd
    fragileLeft := false, fragileRight := false
    hasExternalTokens := !isInline && hasExternalTokens
    hasExternalScannerStateChange := false
    dependsOnColumn := !isInline && dependsOnColumn
    isKeyword, isInline, lookaheadChar := 0, externalScannerState := [] }

/-- `ts_subtree_new_error`. -/
def LeafData.newError {π : Type} (language : LexLanguage π) (lookaheadChar : Int)
    (padding size : Length) (bytesScanned parseState : Nat) : LeafData :=
  { LeafData.new language builtinSymError padding size bytesScanned parseState false false
      false with
    fragileLeft := true, fragileRight := true, lookaheadChar }

/-! ### The stack version -/

section Stack

variable {τ : Type} (view : τ → SubtreeView)

/-- The loop of `ts_stack_has_advanced_since_error`. -/
def advancedSinceError (self : Stack τ) (head : StackHead τ) : Nat → Nat → Option Bool
  | 0, _ => none
  | fuel + 1, index => do
      let node ← self.nodes[index]?
      match node.links with
      | [] => some false
      | link :: _ =>
        match link.subtree with
        | none => some false
        | some subtree =>
          if (view subtree).totalBytes > 0 then some true
          else if node.nodeCount > head.nodeCountAtLastError ∧ (view subtree).errorCost = 0 then
            advancedSinceError self head fuel link.node
          else some false

/-- `ts_stack_has_advanced_since_error`. -/
def Stack.hasAdvancedSinceError (self : Stack τ) (fuel version : Nat) : Option Bool := do
  let head ← self.heads[version]?
  let node ← self.nodes[head.node]?
  if node.errorCost = 0 then some true else advancedSinceError view self head fuel head.node

/-- What lexing reads of the stack, and the state that it is for. -/
structure LexPlace where
  startPosition : Length
  externalScannerState : List Nat
  hasAdvancedSinceError : Bool
  parseState : Nat

/-- Where the next token of a version is. -/
def Stack.lexPlace (self : Stack τ) (fuel version parseState : Nat) : Option LexPlace := do
  let head ← self.heads[version]?
  let node ← self.nodes[head.node]?
  let hasAdvancedSinceError ← self.hasAdvancedSinceError view fuel version
  some { startPosition := node.position, hasAdvancedSinceError, parseState
         externalScannerState := externalScannerState view head.lastExternalToken }

end Stack

/-! ### Attempts -/

/-- The variables of `ts_parser__lex` in its loop, with the lexer and the scanner's payload. -/
structure LexLoop (π : Type) where
  lexer : Lexer
  payload : π
  lexMode : TSLexerMode
  errorMode : Bool
  skippedError : Bool
  firstErrorCharacter : Int
  errorStartPosition : Length
  errorEndPosition : Length
  lookaheadEndByte : Nat

/-- The variables behind the loop. -/
structure LexEnd (π : Type) where
  loop : LexLoop π
  foundExternalToken : Bool
  calledGetColumn : Bool
  externalScannerState : List Nat
  externalScannerStateChanged : Bool

/-- What an external scanner leads to. -/
inductive ExternalResult (π : Type) where
  | error (loop : LexLoop π)
  | found (result : LexEnd π)
  | notFound (loop : LexLoop π)

/-- What a round of the loop leads to. -/
inductive LexStep (π : Type) where
  | error (loop : LexLoop π)
  | done (result : LexEnd π)
  | again (loop : LexLoop π)

section Attempts

variable {π : Type} (columns : Columns) (language : LexLanguage π) (place : LexPlace)

/-- An empty token of the external scanner that could keep the parser from going on. -/
def ignoresEmptyToken (loop : LexLoop π) (currentPosition : Length)
    (externalScannerStateChanged : Bool) : Bool :=
  if loop.lexer.tokenEndPosition.bytes ≤ currentPosition.bytes ∧ !externalScannerStateChanged then
    let symbol := language.scanner.symbolMap loop.lexer.resultSymbol
    let nextParseState := languageNextState language.tables place.parseState symbol
    let tokenIsExtra : Bool := nextParseState = place.parseState
    loop.errorMode || !place.hasAdvancedSinceError || tokenIsExtra
  else false

/-- The external scanner found nothing: back to where it was called. -/
def LexLoop.resume (loop : LexLoop π) (currentPosition : Length) (columnData : ColumnData) :
    Option (LexLoop π) :=
  (loop.lexer.reset currentPosition).map fun lexer =>
    { loop with lexer := { lexer with columnData } }

/-- What follows from what the external scanner has done. -/
def externalResult (loop : LexLoop π) (lexer : Lexer) (payload : π) (found : Bool) :
    Option (ExternalResult π) := do
  let currentPosition := loop.lexer.currentPosition
  let columnData := loop.lexer.columnData
  if language.scanner.hasError payload then some (.error { loop with lexer, payload })
  else
    let (lexer, lookaheadEndByte) ← lexer.finish loop.lookaheadEndByte
    let loop := { loop with lexer, payload, lookaheadEndByte }
    if found then
      let (externalScannerState, payload) := language.scanner.serialize payload
      let loop := { loop with payload }
      let externalScannerStateChanged := place.externalScannerState ≠ externalScannerState
      if ignoresEmptyToken language place loop currentPosition externalScannerStateChanged then
        (loop.resume currentPosition columnData).map .notFound
      else
        some (.found { loop, foundExternalToken := true, calledGetColumn := lexer.didGetColumn
                       externalScannerState, externalScannerStateChanged })
    else (loop.resume currentPosition columnData).map .notFound

/-- The attempt with the external scanner. -/
def lexExternal (loop : LexLoop π) : Option (ExternalResult π) := do
  let lexer ← loop.lexer.start
  let payload := language.scanner.deserialize loop.payload place.externalScannerState
  let (lexer, payload, found) ←
    (language.scanner.scan loop.lexMode.externalLexState payload).run columns lexer
  externalResult language place loop lexer payload found

/-- The attempt with the external scanner, if the mode has one. -/
def externalStep (loop : LexLoop π) : Option (ExternalResult π) :=
  if loop.lexMode.externalLexState ≠ 0 then lexExternal columns language place loop
  else some (.notFound loop)

/-- The attempt with the generated lex function, and whether it found a token. -/
def lexInternal (loop : LexLoop π) : Option (LexLoop π × Bool) := do
  let lexer ← loop.lexer.start
  let (lexer, found) ← (language.lexFn loop.lexMode.lexState).run columns lexer
  let (lexer, lookaheadEndByte) ← lexer.finish loop.lookaheadEndByte
  some ({ loop with lexer, lookaheadEndByte }, found)

/-- The end of the loop without an external token. -/
def LexLoop.internalEnd (loop : LexLoop π) : LexEnd π where
  loop := loop
  foundExternalToken := false
  calledGetColumn := false
  externalScannerState := []
  externalScannerStateChanged := false

/-- The first character that is skipped. -/
def LexLoop.skipError (loop : LexLoop π) : LexLoop π :=
  if !loop.skippedError then
    { loop with
      skippedError := true, errorStartPosition := loop.lexer.tokenStartPosition
      errorEndPosition := loop.lexer.tokenStartPosition
      firstErrorCharacter := loop.lexer.lookahead }
  else loop

/-- In error mode, no token was found: a character is skipped. -/
def LexLoop.skipCharacter (loop : LexLoop π) : Option (LexStep π) := do
  let loop := loop.skipError
  if loop.lexer.currentPosition.bytes = loop.errorEndPosition.bytes then
    if loop.lexer.eof then
      some (.done { loop with lexer.resultSymbol := builtinSymError }.internalEnd)
    else
      let lexer ← loop.lexer.advance false
      some (.again { loop with lexer, errorEndPosition := lexer.currentPosition })
  else some (.again { loop with errorEndPosition := loop.lexer.currentPosition })

/-- A round of the loop behind the external scanner. -/
def lexInternalStep (loop : LexLoop π) : Option (LexStep π) := do
  let (loop, found) ← lexInternal columns language loop
  if found then some (.done loop.internalEnd)
  else if !loop.errorMode then
    let lexer ← loop.lexer.reset place.startPosition
    some (.again
      { loop with lexer, errorMode := true, lexMode := language.lexModes errorState })
  else loop.skipCharacter

def lexStep (loop : LexLoop π) : Option (LexStep π) := do
  match ← externalStep columns language place loop with
  | .error loop => some (.error loop)
  | .found result => some (.done result)
  | .notFound loop => lexInternalStep columns language place loop

/-- The loop of `ts_parser__lex`, and where it ends unless the scanner has an error. -/
def lexLoop : Nat → LexLoop π → Option (Option (LexEnd π))
  | 0, _ => none
  | fuel + 1, loop => do
      match ← lexStep columns language place loop with
      | .error _ => some none
      | .done result => some (some result)
      | .again loop => lexLoop fuel loop

end Attempts

/-! ### The token -/

section Token

variable {π : Type} (columns : Columns) (language : LexLanguage π) (place : LexPlace)

/-- The keyword lexer on the token, with the symbol that the token gets and whether it is a
keyword. -/
def lexKeyword (lexer : Lexer) (symbol : Nat) : Option (Lexer × Nat × Bool) := do
  let endByte := lexer.tokenEndPosition.bytes
  let lexer ← lexer.reset lexer.tokenStartPosition
  let lexer ← lexer.start
  let (lexer, isKeyword) ← language.keywordLexFn.run columns lexer
  if isKeyword ∧ lexer.tokenEndPosition.bytes = endByte ∧
      (language.hasActions place.parseState lexer.resultSymbol ∨
        language.isReservedWord place.parseState lexer.resultSymbol) then
    some (lexer, lexer.resultSymbol, isKeyword)
  else some (lexer, symbol, isKeyword)

/-- The symbol of a token, and whether it is a keyword. -/
def lexSymbol (result : LexEnd π) : Option (Lexer × Nat × Bool) :=
  let lexer := result.loop.lexer
  let symbol := lexer.resultSymbol
  if result.foundExternalToken then some (lexer, language.scanner.symbolMap symbol, false)
  else if symbol = language.keywordCaptureToken ∧ symbol ≠ 0 then
    lexKeyword columns language place lexer symbol
  else some (lexer, symbol, false)

def lexResult (result : LexEnd π) : Option (LeafData × Lexer) := do
  let loop := result.loop
  if loop.skippedError then
    let padding := loop.errorStartPosition.sub place.startPosition
    let size := loop.errorEndPosition.sub loop.errorStartPosition
    let lookaheadBytes := subU32 loop.lookaheadEndByte loop.errorEndPosition.bytes
    some (LeafData.newError language loop.firstErrorCharacter padding size lookaheadBytes
      place.parseState, loop.lexer)
  else
    let padding := loop.lexer.tokenStartPosition.sub place.startPosition
    let size := loop.lexer.tokenEndPosition.sub loop.lexer.tokenStartPosition
    let lookaheadBytes := subU32 loop.lookaheadEndByte loop.lexer.tokenEndPosition.bytes
    let (lexer, symbol, isKeyword) ← lexSymbol columns language place result
    let leaf := LeafData.new language symbol padding size lookaheadBytes place.parseState
      result.foundExternalToken result.calledGetColumn isKeyword
    if result.foundExternalToken then
      some ({ leaf with
        externalScannerState := result.externalScannerState
        hasExternalScannerStateChange := result.externalScannerStateChanged }, lexer)
    else some (leaf, lexer)

/-- The loop's variables at first, in a mode. -/
def LexLoop.first (lexMode : TSLexerMode) (lexer : Lexer) (payload : π) : LexLoop π where
  lexer := lexer
  payload := payload
  lexMode := lexMode
  errorMode := place.parseState = errorState
  skippedError := false
  firstErrorCharacter := 0
  errorStartPosition := .zero
  errorEndPosition := .zero
  lookaheadEndByte := 0

/-- `ts_parser__lex` at a place: the token, unless there is none, with the lexer and the scanner's
payload if there is one. -/
def lexAt (fuel : Nat) (lexer : Lexer) (payload : π) : Option (Option (LeafData × Lexer × π)) :=
  let lexMode := language.lexModes place.parseState
  if lexMode.lexState = 2 ^ 16 - 1 then some none
  else do
    let lexer ← lexer.reset place.startPosition
    match ← lexLoop columns language place fuel (.first place lexMode lexer payload) with
    | none => some none
    | some result => do
        let (leaf, lexer) ← lexResult columns language place result
        some (some (leaf, lexer, result.loop.payload))

/-- `ts_parser__lex`. -/
def parserLex {τ : Type} (view : τ → SubtreeView) (stack : Stack τ) (version parseState fuel : Nat)
    (lexer : Lexer) (payload : π) : Option (Option (LeafData × Lexer × π)) := do
  let place ← stack.lexPlace view fuel version parseState
  lexAt columns language place fuel lexer payload

end Token

end TreeSitter.Lib
