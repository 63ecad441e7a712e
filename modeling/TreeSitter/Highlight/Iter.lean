import TreeSitter.Highlight.Layer

/-!
# TreeSitter.Highlight.Iter

The **highlight iterator** (`HighlightIter` of `crates/highlight/src/highlight.rs`): it merges the
boundaries of all layers into one stream of events.

`turn` is one pass of the loop in `next`: it returns an item or goes on with the loop. A turn that
returns nothing (`none`) has panicked, or one of the inner loops takes more than `fuel` passes.
-/

namespace TreeSitter.Highlighter

open Library

variable {σ ω : Type}

/-- Where a start or an end belongs: its position, and the byte offset at which its layer was
added. -/
structure Mark where
  position : Nat
  addedAt : Nat
deriving DecidableEq

/-- `HighlightEvent`. The marks are not in the source: nothing reads them. -/
inductive HighlightEvent where
  | source (start stop : Nat)
  | highlightStart (highlight : Highlight) (mark : Mark)
  | highlightEnd (mark : Mark)
deriving DecidableEq

structure HighlightIter (σ ω : Type) where
  byteOffset : Nat
  layers : List (HighlightIterLayer σ)
  iterCount : Nat
  nextEvent : Option HighlightEvent
  lastHighlightRange : Option (Nat × Nat × Nat)
  world : ω

/-- What `next` returns: nothing more, an error or an event. -/
abbrev Item := Option (Except Error HighlightEvent)

inductive Turn (σ ω : Type) where
  | returns (item : Item) (iter : HighlightIter σ ω)
  | continues (iter : HighlightIter σ ω)

namespace HighlightIter

/-- `sort_layers`. -/
def sortLayers (env : Env σ ω) (iter : HighlightIter σ ω) : HighlightIter σ ω :=
  { iter with layers := MergeQueue.settle (HighlightIterLayer.sortKey env) iter.layers }

/-- `insert_layer`: the first layer stays the first one. -/
def insertLayer (env : Env σ ω) (iter : HighlightIter σ ω) (layer : HighlightIterLayer σ) :
    HighlightIter σ ω :=
  match layer.sortKey env with
  | none => iter
  | some key =>
    match iter.layers with
    | [] => { iter with layers := [layer] }
    | first :: rest =>
      { iter with
        layers := first :: MergeQueue.place (HighlightIterLayer.sortKey env) key layer rest }

/-- `emit_event`: the source up to `offset` comes first, and the event waits behind it. -/
def emitEvent (env : Env σ ω) (iter : HighlightIter σ ω) (offset : Nat)
    (event : Option HighlightEvent) : Turn σ ω :=
  if iter.byteOffset < offset then
    .returns (some (.ok (.source iter.byteOffset offset)))
      (sortLayers env { iter with byteOffset := offset, nextEvent := event })
  else .returns (event.map .ok) (sortLayers env iter)

/-- `CANCELLATION_CHECK_INTERVAL`. -/
def cancellationCheckInterval : Nat := 100

/-- Whether the iteration has been cancelled; the flag is read on every hundredth turn. -/
def checkCancellation (env : Env σ ω) (iter : HighlightIter σ ω) : Bool × HighlightIter σ ω :=
  match env.cancellationFlag with
  | none => (false, iter)
  | some load =>
    if iter.iterCount + 1 ≥ cancellationCheckInterval then
      ((load iter.world).1, { iter with iterCount := 0, world := (load iter.world).2 })
    else (false, { iter with iterCount := iter.iterCount + 1 })

/-- No layer has a boundary left: the rest of the source, or the end. -/
def finish (env : Env σ ω) (iter : HighlightIter σ ω) : Turn σ ω :=
  if iter.byteOffset < env.source.size then
    .returns (some (.ok (.source iter.byteOffset env.source.size)))
      { iter with byteOffset := env.source.size }
  else .returns none iter

def endHighlight (env : Env σ ω) (iter : HighlightIter σ ω) (layer : HighlightIterLayer σ)
    (rest : List (HighlightIterLayer σ)) (endByte : Nat) (ends : List Nat) : Turn σ ω :=
  emitEvent env { iter with layers := { layer with highlightEndStack := ends } :: rest } endByte
    (some (.highlightEnd ⟨endByte, layer.addedAt⟩))

/-! ### Injections -/

/-- The capture is part of an injection, which adds layers to the document. -/
def processInjection (env : Env σ ω) (fuel : Nat) (iter : HighlightIter σ ω)
    (layer : HighlightIterLayer σ) (rest : List (HighlightIterLayer σ))
    (captured : CapturedMatch) : Option (Turn σ ω) := do
  let (languageName, contentNode, includeChildren) ←
    injectionForMatch layer.config (some env.languageName) layer.config.propertySettings
      captured.queryMatch env.source
  let layer :=
    { layer with captures := env.removeMatch layer.captures captured.queryMatch.id }
  let iter := { iter with layers := layer :: rest }
  match languageName, contentNode with
  | some languageName, some contentNode =>
    match env.injectionCallback languageName iter.world with
    | (none, world) => some (.continues (sortLayers env { iter with world }))
    | (some config, world) =>
      let ranges ← intersectRanges layer.ranges [contentNode] includeChildren
      if ranges.isEmpty then some (.continues (sortLayers env { iter with world }))
      else
        match ← newLayers env (some env.languageName) iter.byteOffset fuel
          (config, layer.depth + 1, ranges) [] [] world with
        | (.error error, world) => some (.returns (some (.error error)) { iter with world })
        | (.ok layers, world) =>
          some (.continues (sortLayers env (layers.foldl (insertLayer env) { iter with world })))
  | _, _ => some (.continues (sortLayers env iter))

/-! ### Local variables -/

/-- Removes the scopes that have ended before `start`. -/
def popScopes (start : Nat) : List LocalScope → Option (List LocalScope)
  | [] => none
  | scope :: scopes => if start > scope.range.2 then popScopes start scopes else some (scope :: scopes)

/-- Whether a scope inherits the definitions around it: the last such setting decides. -/
def scopeInherits (properties : Properties) : Bool :=
  properties.foldl (fun inherits (key, value) =>
    if key = "local.scope-inherits" then value.all (· = "true") else inherits) true

/-- The value of a definition: the last capture for it decides. -/
def valueRange (config : HighlightConfiguration) (captures : List QueryCapture) : Nat × Nat :=
  captures.foldl (fun range capture =>
    if some capture.index = config.localDefValueCaptureIndex then
      (capture.node.range.startByte, capture.node.range.endByte)
    else range) (0, 0)

/-- The highlight of the definition that a reference is to, in the innermost scope that has one. -/
def findDefinition (name : String) (start : Nat) : List LocalScope → Option (Option Highlight)
  | [] => none
  | scope :: scopes =>
    match scope.localDefs.find? fun definition =>
        definition.name = name ∧ start ≥ definition.valueRange.2 with
    | some definition => some definition.highlight
    | none => if scope.inherits then findDefinition name start scopes else none

/-- What has been found out about the node of a capture: the highlight of the definition that it
refers to, and whether it is itself the definition made last in the innermost scope. -/
structure LocalInfo where
  referenceHighlight : Option Highlight
  isDefinition : Bool

/-- One capture of a scope, a definition or a reference. -/
def processLocal (env : Env σ ω) (range : Nat × Nat) (layer : HighlightIterLayer σ)
    (captured : CapturedMatch) (info : LocalInfo) :
    Option (HighlightIterLayer σ × LocalInfo) :=
  let index := some captured.capture.index
  if index = layer.config.localScopeCaptureIndex then
    let scope : LocalScope :=
      { inherits := scopeInherits (layer.config.propertySettings captured.queryMatch.patternIndex)
        range, localDefs := [] }
    some ({ layer with scopeStack := scope :: layer.scopeStack },
      { info with isDefinition := false })
  else if index = layer.config.localDefCaptureIndex then
    match layer.scopeStack with
    | [] => none
    | scope :: scopes => do
      match ← utf8Text env.source range.1 range.2 with
      | none => some (layer, ⟨none, false⟩)
      | some name =>
        let definition : LocalDef :=
          ⟨name, valueRange layer.config captured.queryMatch.captures, none⟩
        some ({ layer with
          scopeStack := { scope with localDefs := definition :: scope.localDefs } :: scopes },
          ⟨none, true⟩)
  else if index = layer.config.localRefCaptureIndex ∧ info.isDefinition = false then do
    match ← utf8Text env.source range.1 range.2 with
    | none => some (layer, info)
    | some name =>
      match findDefinition name range.1 layer.scopeStack with
      | some highlight => some (layer, { info with referenceHighlight := highlight })
      | none => some (layer, info)
  else some (layer, info)

/-- The captures of one node that track local variables. They are followed by a highlight of the
same node, or by nothing (`none`). -/
def processLocals (env : Env σ ω) (range : Nat × Nat) :
    Nat → HighlightIterLayer σ → CapturedMatch → LocalInfo →
      Option (HighlightIterLayer σ × Option (CapturedMatch × LocalInfo))
  | 0, _, _, _ => none
  | fuel + 1, layer, captured, info =>
    if captured.queryMatch.patternIndex < layer.config.highlightsPatternIndex then do
      let (layer, info) ← processLocal env range layer captured info
      match env.nextCapture layer.captures with
      | none => some (layer, none)
      | some (next, captures) =>
        if next.capture.node.id = captured.capture.node.id then
          processLocals env range fuel { layer with captures } next info
        else some (layer, none)
    else some (layer, some (captured, info))

/-! ### Highlights -/

/-- The last highlighting pattern that matches the node. Patterns that are disabled for local
variables are passed over, and each pattern that another one replaces is removed. -/
def lastPattern (env : Env σ ω) (isLocal : Bool) :
    Nat → HighlightIterLayer σ → CapturedMatch → Option (HighlightIterLayer σ × CapturedMatch)
  | 0, _, _ => none
  | fuel + 1, layer, captured =>
    match env.nextCapture layer.captures with
    | none => some (layer, captured)
    | some (next, captures) =>
      if next.capture.node.id = captured.capture.node.id then do
        let disabled ← (if isLocal then
            layer.config.nonLocalVariablePatterns[next.queryMatch.patternIndex]?
          else some false)
        if disabled then lastPattern env isLocal fuel { layer with captures } captured
        else
          lastPattern env isLocal fuel
            { layer with captures := env.removeMatch captures captured.queryMatch.id } next
      else some (layer, captured)

/-- Stores the highlight of the definition made last in the innermost scope. -/
def storeHighlight (highlight : Option Highlight) : List LocalScope → List LocalScope
  | ⟨inherits, range, definition :: definitions⟩ :: scopes =>
    ⟨inherits, range, { definition with highlight } :: definitions⟩ :: scopes
  | scopes => scopes

/-- The capture is a highlight, unless a deeper layer has highlighted this range already. -/
def processHighlight (env : Env σ ω) (fuel : Nat) (iter : HighlightIter σ ω) (range : Nat × Nat)
    (layer : HighlightIterLayer σ) (rest : List (HighlightIterLayer σ))
    (captured : CapturedMatch) (info : LocalInfo) : Option (Turn σ ω) :=
  if iter.lastHighlightRange.any fun (lastStart, lastEnd, lastDepth) =>
      range.1 = lastStart ∧ range.2 = lastEnd ∧ layer.depth < lastDepth then
    some (.continues (sortLayers env { iter with layers := layer :: rest }))
  else do
    let (layer, captured) ←
      lastPattern env (info.isDefinition || info.referenceHighlight.isSome) fuel layer captured
    let currentHighlight ← layer.config.highlightIndices[captured.capture.index]?
    let layer :=
      if info.isDefinition then
        { layer with scopeStack := storeHighlight currentHighlight layer.scopeStack }
      else layer
    match info.referenceHighlight.or currentHighlight with
    | some highlight =>
      some (emitEvent env { iter with
          lastHighlightRange := some (range.1, range.2, layer.depth)
          layers :=
            { layer with highlightEndStack := range.2 :: layer.highlightEndStack } :: rest }
        range.1 (some (.highlightStart highlight ⟨range.1, layer.addedAt⟩)))
    | none => some (.continues (sortLayers env { iter with layers := layer :: rest }))

/-! ### The loop -/

/-- The next capture of the first layer, which has been taken from its stream. -/
def processCapture (env : Env σ ω) (fuel : Nat) (iter : HighlightIter σ ω)
    (layer : HighlightIterLayer σ) (rest : List (HighlightIterLayer σ))
    (captured : CapturedMatch) : Option (Turn σ ω) :=
  if captured.queryMatch.patternIndex < layer.config.localsPatternIndex then
    processInjection env fuel iter layer rest captured
  else do
    let range := (captured.startByte, captured.endByte)
    let scopeStack ← popScopes range.1 layer.scopeStack
    match ← processLocals env range fuel { layer with scopeStack } captured ⟨none, false⟩ with
    | (layer, none) => some (.continues (sortLayers env { iter with layers := layer :: rest }))
    | (layer, some (captured, info)) =>
      processHighlight env fuel iter range layer rest captured info

/-- What the first layer does next: a pending highlight ends at or before the next capture, or
the capture is processed. -/
def processLayer (env : Env σ ω) (fuel : Nat) (iter : HighlightIter σ ω)
    (layer : HighlightIterLayer σ) (rest : List (HighlightIterLayer σ)) : Option (Turn σ ω) :=
  match env.nextCapture layer.captures, layer.highlightEndStack with
  | some (captured, captures), endByte :: ends =>
    if endByte ≤ captured.startByte then some (endHighlight env iter layer rest endByte ends)
    else processCapture env fuel iter { layer with captures } rest captured
  | some (captured, captures), [] =>
    processCapture env fuel iter { layer with captures } rest captured
  | none, endByte :: ends => some (endHighlight env iter layer rest endByte ends)
  | none, [] => some (emitEvent env iter env.source.size none)

/-- One pass of the loop in `next`. -/
def turn (env : Env σ ω) (fuel : Nat) (iter : HighlightIter σ ω) : Option (Turn σ ω) :=
  match iter.nextEvent with
  | some event => some (.returns (some (.ok event)) { iter with nextEvent := none })
  | none =>
    match checkCancellation env iter with
    | (true, iter) => some (.returns (some (.error .cancelled)) iter)
    | (false, iter) =>
      match iter.layers with
      | [] => some (finish env iter)
      | layer :: rest => processLayer env fuel iter layer rest

/-- `next`: turns until one of them returns. -/
def next (env : Env σ ω) : Nat → HighlightIter σ ω → Option (Item × HighlightIter σ ω)
  | 0, _ => none
  | fuel + 1, iter =>
    match turn env fuel iter with
    | none => none
    | some (.returns item iter) => some (item, iter)
    | some (.continues iter) => next env fuel iter

end HighlightIter

/-- The iterator over a document whose layers have been made. -/
def HighlightIter.start (layers : List (HighlightIterLayer σ)) (world : ω) : HighlightIter σ ω :=
  { byteOffset := 0, layers, iterCount := 0, nextEvent := none, lastHighlightRange := none, world }

def wholeRange : Range := ⟨0, usizeMax, ⟨0, 0⟩, ⟨usizeMax, usizeMax⟩⟩

/-- `Highlighter::highlight`. That there are no layers at all is asserted not to happen. -/
def highlight (env : Env σ ω) (fuel : Nat) (config : HighlightConfiguration) (world : ω) :
    Option (Except Error (HighlightIter σ ω)) := do
  match ← newLayers env none 0 fuel (config, 0, [wholeRange]) [] [] world with
  | (.error error, _) => some (.error error)
  | (.ok layers, world) =>
    if layers.isEmpty then none
    else some (.ok ((HighlightIter.start layers world).sortLayers env))

end TreeSitter.Highlighter
