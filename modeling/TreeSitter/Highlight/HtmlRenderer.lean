import TreeSitter.Highlight.Iter
import TreeSitter.Lib.LossyUtf8

/-!
# TreeSitter.Highlight.HtmlRenderer

The **HTML renderer** of `highlight.rs`: it turns the events of a highlighter into lines of HTML.

A carriage return at the end of a piece of the source may or may not be followed by a line feed in
the next one. The renderer remembers where it was, until the next character or the end tell. What
an earlier call remembered, `reset` does not forget.
-/

namespace TreeSitter.Highlighter

open TreeSitter.Lib

/-- What the caller writes into a tag. -/
abbrev AttributeCallback := Highlight → List UInt8 → List UInt8

/-- `HtmlRenderer`. -/
structure HtmlRenderer where
  html : List UInt8
  lineOffsets : List Nat
  carriageReturnHighlight : Option Highlight
  /-- The offset in `html` of the last carriage return. -/
  lastCarriageReturn : Option Nat
deriving DecidableEq

namespace HtmlRenderer

def carriageReturn : UInt8 := 13
def lineFeed : UInt8 := 10

/-- `b"<span "`. -/
def spanOpen : List UInt8 := [60, 115, 112, 97, 110, 32]

/-- `b"</span>"`. -/
def spanClose : List UInt8 := [60, 47, 115, 112, 97, 110, 62]

/-- `HtmlRenderer::new`. -/
def new : HtmlRenderer := ⟨[], [0], none, none⟩

/-- `set_carriage_return_highlight`. -/
def setCarriageReturnHighlight (renderer : HtmlRenderer) (highlight : Option Highlight) :
    HtmlRenderer :=
  { renderer with carriageReturnHighlight := highlight }

/-- `reset`. -/
def reset (renderer : HtmlRenderer) : HtmlRenderer :=
  { renderer with html := [], lineOffsets := [0] }

variable (callback : AttributeCallback)

/-- `add_carriage_return`; `none` is a panic, of `split_off`. -/
def addCarriageReturn (renderer : HtmlRenderer) (offset : Nat) : Option HtmlRenderer :=
  match renderer.carriageReturnHighlight with
  | none => some renderer
  | some highlight =>
    if offset ≤ renderer.html.length then
      let html := callback highlight (renderer.html.take offset ++ spanOpen)
      -- `></span>`
      some { renderer with html := html ++ 62 :: spanClose ++ renderer.html.drop offset }
    else none

/-- `start_highlight`. -/
def startHighlight (renderer : HtmlRenderer) (highlight : Highlight) : HtmlRenderer :=
  { renderer with html := callback highlight (renderer.html ++ spanOpen) ++ [62] }

/-- `end_highlight`. -/
def endHighlight (renderer : HtmlRenderer) : HtmlRenderer :=
  { renderer with html := renderer.html ++ spanClose }

/-- `html_escape`. -/
def htmlEscape (byte : UInt8) : Option (List UInt8) :=
  if byte = 62 then some [38, 103, 116, 59]
  else if byte = 60 then some [38, 108, 116, 59]
  else if byte = 38 then some [38, 97, 109, 112, 59]
  else if byte = 39 then some [38, 35, 51, 57, 59]
  else if byte = 34 then some [38, 113, 117, 111, 116, 59]
  else none

/-- A line feed, and the offset of the line behind it. -/
def pushLineFeed (renderer : HtmlRenderer) : HtmlRenderer :=
  let html := renderer.html ++ [lineFeed]
  { renderer with html, lineOffsets := renderer.lineOffsets ++ [html.length % 2 ^ 32] }

/-- At line boundaries, close and re-open all of the open tags. -/
def addLineFeed (highlights : List Highlight) (renderer : HtmlRenderer) : HtmlRenderer :=
  highlights.foldl (startHighlight callback)
    (highlights.foldl (fun renderer _ => renderer.endHighlight) renderer).pushLineFeed

def markCarriageReturn (renderer : HtmlRenderer) : Option HtmlRenderer :=
  match renderer.lastCarriageReturn with
  | some offset => { renderer with lastCarriageReturn := none }.addCarriageReturn callback offset
  | none => some renderer

/-- The body of the loop in `add_text`. A carriage return in front of a line feed is forgotten. -/
def addByte (highlights : List Highlight) (renderer : HtmlRenderer) (byte : UInt8) :
    Option HtmlRenderer :=
  if byte = carriageReturn then
    some { renderer with lastCarriageReturn := some renderer.html.length }
  else if byte = lineFeed then
    some ({ renderer with lastCarriageReturn := none }.addLineFeed callback highlights)
  else
    (renderer.markCarriageReturn callback).map fun renderer =>
      { renderer with html := renderer.html ++ (htmlEscape byte).getD [byte] }

/-- `add_text`. -/
def addText (highlights : List Highlight) (renderer : HtmlRenderer) (source : List UInt8) :
    Option HtmlRenderer :=
  (LossyUtf8.lossyBytes source).foldlM (addByte callback highlights) renderer

/-- The loop of `render`; the stack of highlights has its bottom first. -/
def renderEvents (source : List UInt8) :
    List (Except Error HighlightEvent) → List Highlight → HtmlRenderer →
      Option (Except Error Unit × HtmlRenderer)
  | [], _, renderer => some (.ok (), renderer)
  | event :: events, highlights, renderer =>
    match event with
    | .ok (.highlightStart highlight _) =>
      renderEvents source events (highlights ++ [highlight])
        (renderer.startHighlight callback highlight)
    | .ok (.highlightEnd _) =>
      renderEvents source events highlights.dropLast renderer.endHighlight
    | .ok (.source start stop) =>
      if start ≤ stop ∧ stop ≤ source.length then
        match renderer.addText callback highlights ((source.take stop).drop start) with
        | some renderer => renderEvents source events highlights renderer
        | none => none
      else none
    | .error error => some (.error error, renderer)

/-- The last line ends with a line feed, and no line begins behind it. -/
def closeLastLine (renderer : HtmlRenderer) : HtmlRenderer :=
  let html :=
    if renderer.html.getLast? ≠ some lineFeed then renderer.html ++ [lineFeed] else renderer.html
  let lineOffsets :=
    if renderer.lineOffsets.getLast? = some (html.length % 2 ^ 32) then
      renderer.lineOffsets.dropLast
    else renderer.lineOffsets
  { renderer with html, lineOffsets }

/-- What `render` does behind the loop. -/
def finish (renderer : HtmlRenderer) : Option HtmlRenderer :=
  (renderer.markCarriageReturn callback).map closeLastLine

/-- `render`; `none` is a panic. -/
def render (renderer : HtmlRenderer) (events : List (Except Error HighlightEvent))
    (source : List UInt8) : Option (Except Error Unit × HtmlRenderer) := do
  let (result, renderer) ← renderEvents callback source events [] renderer
  match result with
  | .error error => some (.error error, renderer)
  | .ok () => (renderer.finish callback).map fun renderer => (.ok (), renderer)

/-- One of the `lines`; `none` is a panic, of the slice or because it is not text. -/
def line (renderer : HtmlRenderer) (lineStart lineEnd : Nat) : Option (List UInt8) :=
  let bytes := (renderer.html.take lineEnd).drop lineStart
  if lineStart ≤ lineEnd ∧ lineEnd ≤ renderer.html.length ∧ utf8Error bytes = none then some bytes
  else none

/-- The lines that begin at some offsets; the last one ends with the HTML. -/
def linesFrom (renderer : HtmlRenderer) : List Nat → Option (List (List UInt8))
  | [] => some []
  | lineStart :: lineOffsets => do
    let line ← renderer.line lineStart (lineOffsets.head?.getD renderer.html.length)
    let lines ← renderer.linesFrom lineOffsets
    return line :: lines

/-- `lines`; `none` if one of them panics. -/
def lines (renderer : HtmlRenderer) : Option (List (List UInt8)) :=
  renderer.linesFrom renderer.lineOffsets

end HtmlRenderer

end TreeSitter.Highlighter
