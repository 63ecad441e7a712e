import TreeSitter.Lib.Length
import TreeSitter.Lib.LossyUtf8
import TreeSitter.Library.SortedQueue

/-!
# TreeSitter.Tags.TagsIter

The **tag extractor** of `tags.rs`. `TagsIter` turns the matches of a query into tags. A tag waits
in a **queue**, sorted by the range of its name, until the queue has a name that begins behind it,
or until there are no more matches; a better match for the same name takes its place. A name that is
captured as `@ignore` is queued as a **placeholder**.

One `turn` is one turn of the loop of `next`. A turn that yields a tag is the last one of its call,
and the next call goes on from there.
-/

namespace TreeSitter.Tags

open Library Lib

/-! ### What is matched -/

/-- `usize::MAX`. -/
def usizeMax : Nat := 2 ^ 64 - 1

/-- A node, as far as it is read here. Its bytes are counted in 32 bits. -/
structure Node where
  startByte : Nat
  endByte : Nat
  startPosition : Point
  endPosition : Point
  hasError : Bool
  startByte_lt : startByte < 2 ^ 32

/-- `QueryCapture`. -/
structure QueryCapture where
  node : Node
  index : Nat

/-- `QueryMatch`. -/
structure QueryMatch where
  patternIndex : Nat
  captures : List QueryCapture

/-- `NamedCapture`. -/
structure NamedCapture where
  syntaxTypeId : Nat
  isDefinition : Bool

/-- `PatternInfo`; a regex is what replacing its matches makes of a text. -/
structure PatternInfo where
  docsAdjacentCapture : Option Nat := none
  localScopeInherits : Bool := false
  nameMustBeNonLocal : Bool := false
  docStripRegex : Option (List UInt8 → List UInt8) := none

/-- `TagsConfiguration`, of what the iterator reads. The source panics at a pattern without info. -/
structure TagsConfiguration where
  captureMap : Nat → Option NamedCapture
  docCaptureIndex : Option Nat
  nameCaptureIndex : Option Nat
  ignoreCaptureIndex : Option Nat
  localScopeCaptureIndex : Option Nat
  localDefinitionCaptureIndex : Option Nat
  tagsPatternIndex : Nat
  patternInfo : List PatternInfo

def TagsConfiguration.info (config : TagsConfiguration) (mat : QueryMatch) : PatternInfo :=
  config.patternInfo.getD mat.patternIndex {}

/-! ### Tags -/

/-- `Range<usize>`. -/
structure ByteRange where
  start : Nat
  stop : Nat

/-- `Tag`; a text is the list of its bytes. -/
structure Tag where
  range : ByteRange
  nameRange : ByteRange
  lineRange : ByteRange
  span : Point × Point
  utf16ColumnRange : ByteRange
  docs : Option (List UInt8)
  isDefinition : Bool
  syntaxTypeId : Nat

namespace Tag

/-- `Tag::ignored`. -/
def ignored (nameRange : ByteRange) : Tag where
  range := ⟨usizeMax, usizeMax⟩
  nameRange := nameRange
  lineRange := ⟨0, 0⟩
  span := (⟨0, 0⟩, ⟨0, 0⟩)
  utf16ColumnRange := ⟨0, 0⟩
  docs := none
  isDefinition := false
  syntaxTypeId := 0

/-- `Tag::is_ignored`. -/
def isIgnored (tag : Tag) : Bool := tag.range.start == usizeMax

end Tag

/-- `byte_range`. -/
def Node.byteRange (node : Node) : ByteRange := ⟨node.startByte, node.endByte⟩

/-- `LocalScope`, with the names of its definitions. -/
structure LocalScope where
  inherits : Bool
  range : ByteRange
  localDefs : List (List UInt8)

def LocalScope.covers (scope : LocalScope) (range : ByteRange) : Bool :=
  scope.range.start ≤ range.start && scope.range.stop ≥ range.stop

/-- `LineInfo`. -/
structure LineInfo where
  utf8Position : Point
  utf8Byte : Nat
  utf16Column : Nat
  lineRange : ByteRange

/-- `TagsIter`, with the matches that are left. The scopes stand here with the last one first. -/
structure TagsIter where
  queryMatches : List QueryMatch
  prevLineInfo : Option LineInfo
  iterCount : Nat
  tagQueue : List (Tag × Nat)
  scopes : List LocalScope

/-! ### Lines and columns -/

def sliceOf (source : List UInt8) (range : ByteRange) : List UInt8 :=
  (source.drop range.start).take (range.stop - range.start)

/-- `is_ascii_whitespace`. -/
def isAsciiWhitespace (byte : UInt8) : Bool :=
  byte = 0x20 || byte = 0x09 || byte = 0x0A || byte = 0x0C || byte = 0x0D

/-- `line_range`. -/
def lineRange (text : List UInt8) (startByte : Nat) (startPoint : Point) (maxLineLen : Nat) :
    ByteRange :=
  let lineBegin := startByte - startPoint.column
  let lineStart := lineBegin + ((text.drop lineBegin).takeWhile isAsciiWhitespace).length
  let maxLineLen := min maxLineLen (text.length - lineStart)
  let textAfterLineStart := (text.drop lineStart).take maxLineLen
  let lineLen :=
    match textAfterLineStart.findIdx? (· = 0x0A) with
    | some len => len
    | none =>
      match utf8Error textAfterLineStart with
      | some e => e.validUpTo
      | none => maxLineLen
  let trimmed := (textAfterLineStart.take lineLen).reverse.dropWhile isAsciiWhitespace
  ⟨lineStart, lineStart + trimmed.length⟩

/-- `char::len_utf16`, by the bytes of a character: it counts where the character begins. -/
def lenUtf16 (byte : UInt8) : Nat := if isContinuation byte then 0 else if byte ≥ 0xF0 then 2 else 1

/-- `utf16_len`. -/
def utf16Len (bytes : List UInt8) : Nat := ((LossyUtf8.lossyBytes bytes).map lenUtf16).sum

/-- `MAX_LINE_LEN`. -/
def maxLineLen : Nat := 180

/-! ### Local scopes -/

/-- Add a definition to the last scope around it. -/
def addLocalDef (name : List UInt8) (range : ByteRange) : List LocalScope → List LocalScope
  | [] => []
  | scope :: scopes =>
    if scope.covers range then { scope with localDefs := scope.localDefs ++ [name] } :: scopes
    else scope :: addLocalDef name range scopes

/-- What a capture of a local pattern does to the scopes. -/
def addLocal (config : TagsConfiguration) (source : List UInt8) (inherits : Bool)
    (scopes : List LocalScope) (capture : QueryCapture) : List LocalScope :=
  let range := capture.node.byteRange
  if some capture.index = config.localScopeCaptureIndex then ⟨inherits, range, []⟩ :: scopes
  else if some capture.index = config.localDefinitionCaptureIndex then
    addLocalDef (sliceOf source range) range scopes
  else scopes

/-- Whether a name is defined in a scope around it, or in one that this inherits from. -/
def isLocal (name : List UInt8) (nameRange : ByteRange) : List LocalScope → Bool
  | [] => false
  | scope :: scopes =>
    if scope.covers nameRange then
      if scope.localDefs.contains name then true
      else if !scope.inherits then false
      else isLocal name nameRange scopes
    else isLocal name nameRange scopes

/-! ### The parts of a match -/

/-- What the loop over the captures of a match collects. -/
structure MatchParts where
  nameNode : Option Node := none
  docNodes : List Node := []
  tagNode : Option Node := none
  syntaxTypeId : Nat := 0
  isDefinition : Bool := false
  docsAdjacentNode : Option Node := none
  isIgnored : Bool := false

/-- The body of the loop over the captures. -/
def addCapture (config : TagsConfiguration) (info : PatternInfo) (parts : MatchParts)
    (capture : QueryCapture) : MatchParts :=
  let index := some capture.index
  let parts :=
    if index = config.ignoreCaptureIndex then
      { parts with isIgnored := true, nameNode := some capture.node }
    else parts
  let parts :=
    if index = info.docsAdjacentCapture then
      { parts with docsAdjacentNode := some capture.node }
    else parts
  let parts :=
    if index = config.nameCaptureIndex then { parts with nameNode := some capture.node }
    else if index = config.docCaptureIndex then
      { parts with docNodes := parts.docNodes ++ [capture.node] }
    else parts
  match config.captureMap capture.index with
  | some namedCapture =>
    { parts with
      tagNode := some capture.node
      syntaxTypeId := namedCapture.syntaxTypeId
      isDefinition := namedCapture.isDefinition }
  | none => parts

def matchParts (config : TagsConfiguration) (mat : QueryMatch) : MatchParts :=
  mat.captures.foldl (addCapture config (config.info mat)) {}

/-! ### Docs -/

/-- The doc nodes, the last one first, as far as each of them is adjacent to what is behind it. -/
def adjacentDocs : Nat → List Node → List Node
  | _, [] => []
  | startRow, docNode :: docNodes =>
    if docNode.endPosition.row + 1 ≥ startRow then
      docNode :: adjacentDocs docNode.startPosition.row docNodes
    else []

def MatchParts.tagDocs (parts : MatchParts) : List Node :=
  match parts.docsAdjacentNode with
  | some node => (adjacentDocs node.startPosition.row parts.docNodes.reverse).reverse
  | none => parts.docNodes

/-- Add the text of a doc node, if it is UTF-8. -/
def addDoc (info : PatternInfo) (source : List UInt8) (docs : Option (List UInt8)) (node : Node) :
    Option (List UInt8) :=
  let content := sliceOf source node.byteRange
  if (utf8Error content).isSome then docs
  else
    let content := info.docStripRegex.elim content fun replaceAll => replaceAll content
    match docs with
    | none => some content
    | some docs => some (docs ++ 0x0A :: content)

/-! ### The tag of a match -/

def makeTag (info : PatternInfo) (source : List UInt8) (prevLineInfo : Option LineInfo)
    (parts : MatchParts) (nameNode tagNode : Node) : Tag × LineInfo :=
  let nameRange := nameNode.byteRange
  let range := tagNode.byteRange
  let start := nameNode.startPosition
  let sameLine := prevLineInfo.filter fun info => info.utf8Position.row = start.row
  let (prevUtf8Byte, prevUtf16Column) :=
    match sameLine with
    | some lineInfo =>
      if lineInfo.utf8Position.column ≤ start.column then (lineInfo.utf8Byte, lineInfo.utf16Column)
      else (nameRange.start - start.column, 0)
    | none => (nameRange.start - start.column, 0)
  let lineRange :=
    match sameLine with
    | some lineInfo => lineInfo.lineRange
    | none => lineRange source nameRange.start start maxLineLen
  let utf16Start := prevUtf16Column + utf16Len (sliceOf source ⟨prevUtf8Byte, nameRange.start⟩)
  let utf16End := utf16Start + utf16Len (sliceOf source nameRange)
  ({ range := ⟨min range.start nameRange.start, max range.stop nameRange.stop⟩
     nameRange := nameRange
     lineRange := lineRange
     span := (start, nameNode.endPosition)
     utf16ColumnRange := ⟨utf16Start, utf16End⟩
     docs := parts.tagDocs.foldl (addDoc info source) none
     isDefinition := parts.isDefinition
     syntaxTypeId := parts.syntaxTypeId },
   { utf8Position := nameNode.endPosition
     utf8Byte := nameRange.stop
     utf16Column := utf16End
     lineRange := lineRange })

/-- The tag or the placeholder of a match, with the new info about the line; `none` if there is
nothing to queue. -/
def matchTag (config : TagsConfiguration) (source : List UInt8) (it : TagsIter)
    (mat : QueryMatch) : Option (Tag × Option LineInfo) :=
  let info := config.info mat
  let parts := matchParts config mat
  match parts.nameNode, parts.tagNode with
  | some nameNode, some tagNode =>
    if nameNode.hasError then none
    else if info.nameMustBeNonLocal &&
        isLocal (sliceOf source nameNode.byteRange) nameNode.byteRange it.scopes then none
    else
      let (tag, lineInfo) := makeTag info source it.prevLineInfo parts nameNode tagNode
      some (tag, some lineInfo)
  | some nameNode, none =>
    if parts.isIgnored then some (Tag.ignored nameNode.byteRange, it.prevLineInfo) else none
  | none, _ => none

/-! ### The queue -/

/-- What the queue is sorted by: where the name ends, and then where it starts. -/
def queueKey (entry : Tag × Nat) : Nat ×ₗ Nat :=
  toLex (entry.1.nameRange.stop, entry.1.nameRange.start)

/-- A match with a lower pattern index takes the place of another one for the same name. -/
def isBetter (entry existing : Tag × Nat) : Bool := existing.2 > entry.2

def queueTag (entry : Tag × Nat) (queue : List (Tag × Nat)) : List (Tag × Nat) :=
  upsert queueKey isBetter entry queue

/-- Whether the first name in the queue ends before the last one starts. -/
def hasEarlierTag (queue : List (Tag × Nat)) : Bool :=
  match queue, queue.getLast? with
  | first :: _, some last => queue.length > 1 && first.1.nameRange.stop < last.1.nameRange.start
  | _, _ => false

/-! ### The loop -/

/-- `CANCELLATION_CHECK_INTERVAL`. -/
def cancellationCheckInterval : Nat := 100

/-- A turn of the loop. -/
inductive Turn where
  /-- `Some(Err(Error::Cancelled))`. -/
  | cancelled (it : TagsIter)
  /-- A placeholder leaves the queue. -/
  | skipped (entry : Tag × Nat) (it : TagsIter)
  /-- A tag leaves the queue: `Some(Ok(tag))`. -/
  | yielded (entry : Tag × Nat) (it : TagsIter)
  /-- A match is handled. -/
  | matched (mat : QueryMatch) (it : TagsIter)
  /-- `None`. -/
  | finished (it : TagsIter)

/-- Handle a match: a local pattern changes the scopes, another one may give a tag. -/
def takeMatch (config : TagsConfiguration) (source : List UInt8) (it : TagsIter)
    (mat : QueryMatch) : TagsIter :=
  if mat.patternIndex < config.tagsPatternIndex then
    { it with
      scopes := mat.captures.foldl
        (addLocal config source (config.info mat).localScopeInherits) it.scopes }
  else
    match matchTag config source it mat with
    | some (tag, lineInfo) =>
      { it with
        prevLineInfo := lineInfo
        tagQueue := queueTag (tag, mat.patternIndex) it.tagQueue }
    | none => it

/-- The turn behind the check for cancellation. -/
def turnTags (config : TagsConfiguration) (source : List UInt8) (it : TagsIter) : Turn :=
  if hasEarlierTag it.tagQueue then
    match it.tagQueue with
    | entry :: queue =>
      if entry.1.isIgnored then .skipped entry { it with tagQueue := queue }
      else .yielded entry { it with tagQueue := queue }
    | [] => .finished it
  else
    match it.queryMatches with
    | mat :: queryMatches =>
      .matched mat (takeMatch config source { it with queryMatches := queryMatches } mat)
    | [] =>
      -- The queue is drained without a look at what leaves it.
      match it.tagQueue with
      | entry :: queue => .yielded entry { it with tagQueue := queue }
      | [] => .finished it

/-- One turn, with the value of the cancellation flag if there is one. -/
def turn (config : TagsConfiguration) (source : List UInt8) (flag : Option Nat) (it : TagsIter) :
    Turn :=
  match flag with
  | none => turnTags config source it
  | some value =>
    if it.iterCount + 1 ≥ cancellationCheckInterval then
      if value ≠ 0 then .cancelled { it with iterCount := 0 }
      else turnTags config source { it with iterCount := 0 }
    else turnTags config source { it with iterCount := it.iterCount + 1 }

/-- The iterator of `generate_tags`. -/
def TagsIter.new (source : List UInt8) (queryMatches : List QueryMatch) : TagsIter where
  queryMatches := queryMatches
  prevLineInfo := none
  iterCount := 0
  tagQueue := []
  scopes := [⟨false, ⟨0, source.length⟩, []⟩]

end TreeSitter.Tags
