import TreeSitter.Lib.Length
import TreeSitter.Library.MergeQueue

/-!
# TreeSitter.Highlight.Layer

The **layers** of a syntax-highlighted document (`crates/highlight/src/highlight.rs`): one for the
document itself and one for each injection, with the ranges of the source that it parses.

A layer reads the captures of its query one after another. The query cursor is code of the C
library: here it is a state of an arbitrary type `σ`, with the two operations that the highlighter
uses, taking the next capture and removing a match. `captures.peek()` looks at the capture that
the next call returns; the highlighter never removes a match while one is buffered, so that
looking is the same as taking it and putting it back.

Parsing, the injection callback and the cancellation flag read a **world** `ω`, so that their
answers may change from call to call.
-/

namespace TreeSitter.Highlighter

open TreeSitter.Lib

/-- The largest `usize`. -/
def usizeMax : Nat := 2 ^ 64 - 1

/-- A range of the source, in bytes and in rows and columns. -/
structure Range where
  startByte : Nat
  endByte : Nat
  startPoint : Point
  endPoint : Point
deriving DecidableEq

/-- A node of a syntax tree, with the ranges of its children. Nodes are the same when their ids
are. -/
structure Node where
  id : Nat
  range : Range
  children : List Range

structure QueryCapture where
  node : Node
  index : Nat

structure QueryMatch where
  id : Nat
  patternIndex : Nat
  captures : List QueryCapture

/-- What a query's capture iterator yields: a match and the place of one of its captures. -/
structure CapturedMatch where
  queryMatch : QueryMatch
  captureIndex : Fin queryMatch.captures.length

namespace CapturedMatch

def capture (captured : CapturedMatch) : QueryCapture :=
  captured.queryMatch.captures.get captured.captureIndex

def startByte (captured : CapturedMatch) : Nat := captured.capture.node.range.startByte

def endByte (captured : CapturedMatch) : Nat := captured.capture.node.range.endByte

end CapturedMatch

/-- The number of a recognized highlight name. -/
structure Highlight where
  index : Nat
deriving DecidableEq

/-- `Error`. The text of a language error is left out. -/
inductive Error where
  | cancelled
  | invalidLanguage
  | unknown
deriving DecidableEq

/-- The properties that `#set!` gives a pattern: keys, and the values they may have. -/
abbrev Properties := List (String × Option String)

/-- The separate query for the combined injections. -/
structure InjectionsQuery where
  patternCount : Nat
  propertySettings : Nat → Properties

structure HighlightConfiguration where
  languageName : String
  propertySettings : Nat → Properties
  combinedInjectionsQuery : Option InjectionsQuery
  localsPatternIndex : Nat
  highlightsPatternIndex : Nat
  highlightIndices : List (Option Highlight)
  nonLocalVariablePatterns : List Bool
  injectionContentCaptureIndex : Option Nat
  injectionLanguageCaptureIndex : Option Nat
  localScopeCaptureIndex : Option Nat
  localDefCaptureIndex : Option Nat
  localDefValueCaptureIndex : Option Nat
  localRefCaptureIndex : Option Nat

structure LocalDef where
  name : String
  valueRange : Nat × Nat
  highlight : Option Highlight

/-- A local scope; the definition made last stands first. -/
structure LocalScope where
  inherits : Bool
  range : Nat × Nat
  localDefs : List LocalDef

/-- One layer of the document. Both stacks have their top first.

`addedAt` is not a field of the source: it is the byte offset that the iteration had reached when
the layer was made. -/
structure HighlightIterLayer (σ : Type) where
  captures : σ
  config : HighlightConfiguration
  highlightEndStack : List Nat
  scopeStack : List LocalScope
  ranges : List Range
  depth : Nat
  addedAt : Nat

/-- What the parser says about a document: it does not take the included ranges, or it fails, or
there is a tree, with the matches of the combined injections and the captures of the query. -/
inductive Parsed (σ : Type) where
  | rangesRefused
  | failed (error : Error)
  | tree (injections : List QueryMatch) (captures : σ)

/-- What the highlighter is run on. -/
structure Env (σ ω : Type) where
  source : ByteArray
  languageName : String
  nextCapture : σ → Option (CapturedMatch × σ)
  removeMatch : σ → Nat → σ
  parse : HighlightConfiguration → List Range → ω → Parsed σ × ω
  injectionCallback : String → ω → Option HighlightConfiguration × ω
  cancellationFlag : Option (ω → Bool × ω)

/-- `str::from_utf8(&source[start..stop])`, where slicing may panic. -/
def utf8Text (source : ByteArray) (start stop : Nat) : Option (Option String) :=
  if start ≤ stop ∧ stop ≤ source.size then
    some (String.fromUTF8? (source.extract start stop))
  else none

/-! ### Injections -/

/-- The captures of a match that say what is injected: the language's name and the content. -/
def injectionCaptures (config : HighlightConfiguration) (source : ByteArray) :
    List QueryCapture → Option String → Option Node → Option (Option String × Option Node)
  | [], languageName, contentNode => some (languageName, contentNode)
  | capture :: captures, languageName, contentNode =>
    if some capture.index = config.injectionLanguageCaptureIndex then do
      let text ← utf8Text source capture.node.range.startByte capture.node.range.endByte
      injectionCaptures config source captures text contentNode
    else if some capture.index = config.injectionContentCaptureIndex then
      injectionCaptures config source captures languageName (some capture.node)
    else injectionCaptures config source captures languageName contentNode

/-- The properties of a pattern that say what is injected, where the captures do not. -/
def injectionProperties (config : HighlightConfiguration) (parentName : Option String) :
    Properties → Option String → Bool → Option String × Bool
  | [], languageName, includeChildren => (languageName, includeChildren)
  | (key, value) :: properties, languageName, includeChildren =>
    if key = "injection.language" ∧ languageName = none then
      injectionProperties config parentName properties value includeChildren
    else if key = "injection.self" ∧ languageName = none then
      injectionProperties config parentName properties (some config.languageName) includeChildren
    else if key = "injection.parent" ∧ languageName = none then
      injectionProperties config parentName properties parentName includeChildren
    else if key = "injection.include-children" then
      injectionProperties config parentName properties languageName true
    else injectionProperties config parentName properties languageName includeChildren

/-- `injection_for_match`: the language, the content and whether its children are included. -/
def injectionForMatch (config : HighlightConfiguration) (parentName : Option String)
    (propertySettings : Nat → Properties) (queryMatch : QueryMatch) (source : ByteArray) :
    Option (Option String × Option Node × Bool) := do
  let (languageName, contentNode) ←
    injectionCaptures config source queryMatch.captures none none
  let (languageName, includeChildren) :=
    injectionProperties config parentName (propertySettings queryMatch.patternIndex)
      languageName false
  some (languageName, contentNode, includeChildren)

/-- The `while` loop of `intersect_ranges`: the parts of `range` that are in the parent ranges,
and where in them the loop stops (nowhere, when they have all been passed). -/
def intersectRange (range parent : Range) (parents : List Range) :
    List Range × Option (Range × List Range) :=
  if parent.startByte ≤ range.endByte then
    if parent.endByte > range.startByte then
      let range :=
        if range.startByte < parent.startByte then
          { range with startByte := parent.startByte, startPoint := parent.startPoint }
        else range
      if parent.endByte < range.endByte then
        let part :=
          if range.startByte < parent.endByte then
            [{ range with endByte := parent.endByte, endPoint := parent.endPoint }]
          else []
        match parents with
        | [] => (part, none)
        | next :: parents =>
          let (parts, rest) :=
            intersectRange
              { range with startByte := parent.endByte, startPoint := parent.endPoint }
              next parents
          (part ++ parts, rest)
      else (if range.startByte < range.endByte then [range] else [], some (parent, parents))
    else
      match parents with
      | [] => ([], none)
      | next :: parents => intersectRange range next parents
  else ([], some (parent, parents))

/-- The ranges of a node between the excluded ones. -/
def intersectBetween (preceding parent : Range) (parents : List Range) :
    List Range → List Range × Option (Range × List Range)
  | [] => ([], some (parent, parents))
  | excluded :: excludedRanges =>
    let range : Range :=
      { startByte := preceding.endByte, startPoint := preceding.endPoint,
        endByte := excluded.startByte, endPoint := excluded.startPoint }
    if range.endByte < parent.startByte then
      intersectBetween excluded parent parents excludedRanges
    else
      match intersectRange range parent parents with
      | (parts, none) => (parts, none)
      | (parts, some (parent, parents)) =>
        let (more, rest) := intersectBetween excluded parent parents excludedRanges
        (parts ++ more, rest)

/-- The ranges of all nodes, one node after the other. -/
def intersectNodes (includesChildren : Bool) (parent : Range) (parents : List Range) :
    List Node → List Range
  | [] => []
  | node :: nodes =>
    let preceding : Range :=
      { startByte := 0, startPoint := ⟨0, 0⟩,
        endByte := node.range.startByte, endPoint := node.range.startPoint }
    let following : Range :=
      { startByte := node.range.endByte, startPoint := node.range.endPoint,
        endByte := usizeMax, endPoint := ⟨usizeMax, usizeMax⟩ }
    let excluded := (if includesChildren then [] else node.children) ++ [following]
    match intersectBetween preceding parent parents excluded with
    | (parts, none) => parts
    | (parts, some (parent, parents)) =>
      parts ++ intersectNodes includesChildren parent parents nodes

/-- `intersect_ranges`: the ranges in which an injection is parsed. `none` stands for the panics
without a node or without a range. -/
def intersectRanges (parentRanges : List Range) (nodes : List Node) (includesChildren : Bool) :
    Option (List Range) :=
  match nodes, parentRanges with
  | [], _ | _ :: _, [] => none
  | node :: nodes, parent :: parents =>
    some (intersectNodes includesChildren parent parents (node :: nodes))

/-! ### New layers -/

/-- What the matches of one pattern of the combined injections add up to. -/
structure CombinedInjection where
  languageName : Option String
  contentNodes : List Node
  includesChildren : Bool

/-- A further match of a combined injection. -/
def addMatch {σ ω : Type} (env : Env σ ω) (config : HighlightConfiguration)
    (parentName : Option String) (query : InjectionsQuery) (injections : List CombinedInjection)
    (queryMatch : QueryMatch) : Option (List CombinedInjection) := do
  let entry ← injections[queryMatch.patternIndex]?
  let (languageName, contentNode, includeChildren) ←
    injectionForMatch config parentName query.propertySettings queryMatch env.source
  some (injections.set queryMatch.patternIndex
    { languageName := languageName.or entry.languageName
      contentNodes := entry.contentNodes ++ contentNode.toList
      includesChildren := includeChildren })

/-- A document that waits to be parsed: its configuration, depth and ranges. -/
abbrev Pending := HighlightConfiguration × Nat × List Range

/-- Asks for the configuration of each combined injection, and queues those that have one and
are not empty. -/
def queueInjections {σ ω : Type} (env : Env σ ω) (depth : Nat) (ranges : List Range) :
    List CombinedInjection → List Pending → ω → Option (List Pending × ω)
  | [], queue, world => some (queue, world)
  | injection :: injections, queue, world =>
    match injection.languageName, injection.contentNodes with
    | some languageName, node :: nodes =>
      match env.injectionCallback languageName world with
      | (some nextConfig, world) => do
        let nextRanges ← intersectRanges ranges (node :: nodes) injection.includesChildren
        queueInjections env depth ranges injections
          (if nextRanges.isEmpty then queue else queue ++ [(nextConfig, depth + 1, nextRanges)])
          world
      | (none, world) => queueInjections env depth ranges injections queue world
    | _, _ => queueInjections env depth ranges injections queue world

def combinedInjections {σ ω : Type} (env : Env σ ω) (config : HighlightConfiguration)
    (parentName : Option String) (depth : Nat) (ranges : List Range)
    (queryMatches : List QueryMatch) (queue : List Pending) (world : ω) :
    Option (List Pending × ω) :=
  match config.combinedInjectionsQuery with
  | none => some (queue, world)
  | some query => do
    let injections ← queryMatches.foldlM (addMatch env config parentName query)
      (List.replicate query.patternCount ⟨none, [], false⟩)
    queueInjections env depth ranges injections queue world

/-- The outermost scope of a layer, which no position is behind. -/
def globalScope : LocalScope := ⟨false, (0, usizeMax), []⟩

/-- `HighlightIterLayer::new`: the layer of one document and, after it, those of the combined
injections in it. `none` when the loop takes more than `fuel` turns, or panics. -/
def newLayers {σ ω : Type} (env : Env σ ω) (parentName : Option String) (addedAt : Nat) :
    Nat → Pending → List Pending → List (HighlightIterLayer σ) → ω →
      Option (Except Error (List (HighlightIterLayer σ)) × ω)
  | 0, _, _, _, _ => none
  | fuel + 1, (config, depth, ranges), queue, result, world =>
    match env.parse config ranges world with
    | (.failed error, world) => some (.error error, world)
    | (.rangesRefused, world) =>
      match queue with
      | [] => some (.ok result, world)
      | next :: queue => newLayers env parentName addedAt fuel next queue result world
    | (.tree injections captures, world) => do
      let layer : HighlightIterLayer σ :=
        { captures, config, highlightEndStack := [], scopeStack := [globalScope], ranges, depth,
          addedAt }
      let (queue, world) ←
        combinedInjections env config parentName depth ranges injections queue world
      match queue with
      | [] => some (.ok (result ++ [layer]), world)
      | next :: queue =>
        newLayers env parentName addedAt fuel next queue (result ++ [layer]) world

/-! ### Sort keys -/

/-- The key that layers are sorted by: first the position, then ends before starts, then deeper
layers first. -/
abbrev SortKey := Nat ×ₗ Bool ×ₗ Int

instance : DecidableEq SortKey := inferInstanceAs (DecidableEq (Nat × Bool × Int))

def SortKey.mk (offset : Nat) (start : Bool) (depth : Nat) : SortKey :=
  toLex (offset, toLex (start, -(depth : Int)))

/-- The position of the boundary. -/
def SortKey.offset (key : SortKey) : Nat := (ofLex key).1

/-- `sort_key`: the next boundary of a layer, if it has one. -/
def HighlightIterLayer.sortKey {σ ω : Type} (env : Env σ ω) (layer : HighlightIterLayer σ) :
    Option SortKey :=
  match env.nextCapture layer.captures, layer.highlightEndStack with
  | some (captured, _), endByte :: _ =>
    if captured.startByte < endByte then some (.mk captured.startByte true layer.depth)
    else some (.mk endByte false layer.depth)
  | some (captured, _), [] => some (.mk captured.startByte true layer.depth)
  | none, endByte :: _ => some (.mk endByte false layer.depth)
  | none, [] => none

end TreeSitter.Highlighter
