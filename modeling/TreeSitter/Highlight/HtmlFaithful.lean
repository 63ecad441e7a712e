import TreeSitter.Highlight.HtmlRendererReuse
import TreeSitter.Lib.Utf8Valid

/-!
# TreeSitter.Highlight.HtmlFaithful

The HTML of a renderer that marks no carriage returns **shows the text**: without the tags and the
escapes it is the decoded source without carriage returns, and each line closes the tags that it
opens.

The HTML is read as a list of **tokens**: tags and bytes of text. A `Page` has the tokens of the
lines that have ended and those of the line that is being written; `Draws` says that a renderer
holds the HTML of a page, and each operation of the renderer keeps that up. What is said of the
offsets and of the lines then follows from the page.
-/

namespace TreeSitter.Highlighter

open List TreeSitter.Lib

namespace HtmlRenderer

/-! ### Reading HTML -/

/-- HTML without what stands between angle brackets; the flag says that it begins there. -/
def stripTags : Bool → List UInt8 → List UInt8
  | _, [] => []
  | false, byte :: html => if byte = 60 then stripTags true html else byte :: stripTags false html
  | true, byte :: html => stripTags (byte != 62) html

def escapedBytes : List UInt8 := [62, 60, 38, 39, 34]

/-- How a byte is escaped, if it is. -/
def escapeOf (byte : UInt8) : List UInt8 := (htmlEscape byte).getD []

/-- HTML with escapes undone, behind some bytes of an escape that has been undone. -/
def unescape : Nat → List UInt8 → List UInt8
  | _, [] => []
  | skip + 1, _ :: html => unescape skip html
  | 0, byte :: html =>
    match escapedBytes.find? fun escaped => (escapeOf escaped).isPrefixOf (byte :: html) with
    | some escaped => escaped :: unescape ((escapeOf escaped).length - 1) html
    | none => byte :: unescape 0 html

/-- What a reader sees of HTML. -/
def shownText (html : List UInt8) : List UInt8 := unescape 0 (stripTags false html)

/-- What stands in the tags, if each bracket has its partner; inside of a tag it begins with what
the tag has so far. -/
def readTags : Option (List UInt8) → List UInt8 → Option (List (List UInt8))
  | none, [] => some []
  | some _, [] => none
  | none, byte :: html =>
    if byte = 60 then readTags (some []) html else if byte = 62 then none else readTags none html
  | some tag, byte :: html =>
    if byte = 62 then (readTags none html).map (tag :: ·)
    else if byte = 60 then none
    else readTags (some (tag ++ [byte])) html

/-- `span `, in front of the attributes. -/
def spanName : List UInt8 := [115, 112, 97, 110, 32]

/-- `/span`. -/
def spanEnd : List UInt8 := [47, 115, 112, 97, 110]

/-- The number of open spans behind a tag. -/
def tagStep (depth : Nat) (tag : List UInt8) : Option Nat :=
  if tag = spanEnd then if depth = 0 then none else some (depth - 1)
  else if spanName.isPrefixOf tag then some (depth + 1)
  else none

/-- The spans that are opened are closed, and no others. -/
def BalancedTags (html : List UInt8) : Prop :=
  ((readTags none html).bind fun tags => tags.foldlM tagStep 0) = some 0

/-- There is one line feed, at the end. -/
def IsOneLine (html : List UInt8) : Prop :=
  ∃ body, html = body ++ [lineFeed] ∧ lineFeed ∉ body

/-! ### Events that fit the source -/

/-- The highlights that are open end, and those that start, end. -/
def wellNested : Nat → List HighlightEvent → Bool
  | depth, [] => depth == 0
  | depth, .highlightStart _ _ :: events => wellNested (depth + 1) events
  | depth, .highlightEnd _ :: events => depth != 0 && wellNested (depth - 1) events
  | depth, .source _ _ :: events => wellNested depth events

/-- From a byte on, each source event begins where the one before it stops, up to the end. -/
def Partitions (source : List UInt8) : Nat → List HighlightEvent → Prop
  | position, [] => position = source.length
  | position, .source start stop :: events =>
    (start = position ∧ start ≤ stop ∧ stop ≤ source.length) ∧ Partitions source stop events
  | position, _ :: events => Partitions source position events

theorem Partitions.withinSource {source : List UInt8} {position : Nat}
    {events : List HighlightEvent} (h : Partitions source position events) :
    WithinSource source (events.map .ok) := by
  induction events generalizing position with
  | nil => trivial
  | cons event events ih =>
    match event with
    | .highlightStart highlight mark | .highlightEnd mark =>
      have hevents : Partitions source position events := h
      exact ih hevents
    | .source start stop => exact ⟨h.1.2, ih h.2⟩

/-! ### Tokens -/

/-- A part of the HTML. -/
inductive Token where
  | spanOpen (attributes : List UInt8)
  | spanClose
  | text (byte : UInt8)

namespace Token

def bytes : Token → List UInt8
  | spanOpen attributes => HtmlRenderer.spanOpen ++ attributes ++ [62]
  | spanClose => HtmlRenderer.spanClose
  | text byte => (htmlEscape byte).getD [byte]

def text? : Token → Option UInt8
  | text byte => some byte
  | _ => none

/-- What stands between the angle brackets. -/
def tag? : Token → Option (List UInt8)
  | spanOpen attributes => some (spanName ++ attributes)
  | spanClose => some spanEnd
  | text _ => none

def From (attributes : Highlight → List UInt8) : Token → Prop
  | spanOpen written => ∃ highlight, written = attributes highlight
  | _ => True

/-- The attributes are text. -/
def Valid : Token → Prop
  | spanOpen attributes => utf8Error attributes = none
  | _ => True

end Token

def htmlOf (tokens : List Token) : List UInt8 := tokens.flatMap Token.bytes

def textOf (tokens : List Token) : List UInt8 := tokens.filterMap Token.text?

/-- The number of open spans behind some tokens. -/
def depthOf (tokens : List Token) : Option Nat := (tokens.filterMap Token.tag?).foldlM tagStep 0

theorem htmlOf_append (tokens tokens' : List Token) :
    htmlOf (tokens ++ tokens') = htmlOf tokens ++ htmlOf tokens' := flatMap_append

theorem htmlOf_singleton (token : Token) : htmlOf [token] = token.bytes := flatMap_singleton ..

theorem textOf_append (tokens tokens' : List Token) :
    textOf (tokens ++ tokens') = textOf tokens ++ textOf tokens' := filterMap_append

theorem depthOf_append (tokens tokens' : List Token) :
    depthOf (tokens ++ tokens') =
      (depthOf tokens).bind fun depth => (tokens'.filterMap Token.tag?).foldlM tagStep depth := by
  rw [depthOf, filterMap_append, foldlM_append]
  rfl

/-! ### What a reader sees of tokens -/

/-- The attributes of all highlights are without angle brackets and line feeds. -/
def PlainAttributes (attributes : Highlight → List UInt8) : Prop :=
  ∀ highlight, ∀ byte ∈ attributes highlight, byte ≠ 60 ∧ byte ≠ 62 ∧ byte ≠ lineFeed

theorem text_bytes_cases (byte : UInt8) :
    (byte ∉ escapedBytes ∧ (Token.text byte).bytes = [byte]) ∨
      (byte ∈ escapedBytes ∧ (Token.text byte).bytes = escapeOf byte) := by
  simp only [Token.bytes, escapeOf, htmlEscape, escapedBytes, mem_cons, not_mem_nil, or_false]
  split_ifs <;> simp_all

theorem escapeOf_plain : ∀ byte ∈ escapedBytes, byte < 0x80 ∧ ∀ written ∈ escapeOf byte,
    written ≠ 62 ∧ written ≠ 60 ∧ written ≠ lineFeed ∧ written < 0x80 := by
  intro byte hbyte
  simp only [escapedBytes, mem_cons, not_mem_nil, or_false] at hbyte
  rcases hbyte with rfl | rfl | rfl | rfl | rfl <;> simp [escapeOf, htmlEscape, lineFeed]

/-- Text is written without angle brackets, and without a line feed of its own. -/
theorem text_bytes_plain {byte written : UInt8} (h : written ∈ (Token.text byte).bytes) :
    written ≠ 62 ∧ written ≠ 60 ∧ (written = lineFeed → byte = lineFeed) := by
  rcases text_bytes_cases byte with ⟨hbyte, hbytes⟩ | ⟨hbyte, hbytes⟩ <;> rw [hbytes] at h
  · obtain rfl := mem_singleton.mp h
    refine ⟨?_, ?_, id⟩ <;> rintro rfl <;> exact hbyte (by decide)
  · obtain ⟨hgreater, hless, hline, -⟩ := (escapeOf_plain byte hbyte).2 written h
    exact ⟨hgreater, hless, fun heq => absurd heq hline⟩

variable {content : List UInt8}

theorem stripTags_inside (h : 62 ∉ content) (html : List UInt8) :
    stripTags true (content ++ 62 :: html) = stripTags false html := by
  induction content with
  | nil => rfl
  | cons byte content ih =>
    obtain ⟨hbyte, hcontent⟩ := not_or.mp (mt mem_cons.mpr h)
    rw [cons_append, stripTags, bne_iff_ne.mpr (Ne.symm hbyte)]
    exact ih hcontent

theorem readTags_inside (h : 62 ∉ content) (h' : 60 ∉ content) (tag html : List UInt8) :
    readTags (some tag) (content ++ 62 :: html) =
      (readTags none html).map ((tag ++ content) :: ·) := by
  induction content generalizing tag with
  | nil => simp [readTags]
  | cons byte content ih =>
    obtain ⟨hbyte, hcontent⟩ := not_or.mp (mt mem_cons.mpr h)
    obtain ⟨hbyte', hcontent'⟩ := not_or.mp (mt mem_cons.mpr h')
    rw [cons_append, readTags, if_neg (Ne.symm hbyte), if_neg (Ne.symm hbyte'),
      ih hcontent hcontent', append_assoc, singleton_append]

theorem stripTags_outside (h : 60 ∉ content) (html : List UInt8) :
    stripTags false (content ++ html) = content ++ stripTags false html := by
  induction content with
  | nil => rfl
  | cons byte content ih =>
    obtain ⟨hbyte, hcontent⟩ := not_or.mp (mt mem_cons.mpr h)
    rw [cons_append, stripTags, if_neg (Ne.symm hbyte), ih hcontent, cons_append]

theorem readTags_outside (h : 62 ∉ content) (h' : 60 ∉ content) (html : List UInt8) :
    readTags none (content ++ html) = readTags none html := by
  induction content with
  | nil => rfl
  | cons byte content ih =>
    obtain ⟨hbyte, hcontent⟩ := not_or.mp (mt mem_cons.mpr h)
    obtain ⟨hbyte', hcontent'⟩ := not_or.mp (mt mem_cons.mpr h')
    rw [cons_append, readTags, if_neg (Ne.symm hbyte'), if_neg (Ne.symm hbyte),
      ih hcontent hcontent']

theorem unescape_escapeOf {byte : UInt8} (h : byte ∈ escapedBytes) (html : List UInt8) :
    unescape 0 (escapeOf byte ++ html) = byte :: unescape 0 html := by
  simp only [escapedBytes, mem_cons, not_mem_nil, or_false] at h
  rcases h with rfl | rfl | rfl | rfl | rfl <;> rfl

theorem unescape_text (byte : UInt8) (html : List UInt8) :
    unescape 0 ((Token.text byte).bytes ++ html) = byte :: unescape 0 html := by
  rcases text_bytes_cases byte with ⟨hbyte, hbytes⟩ | ⟨hbyte, hbytes⟩
  · have hamp : byte ≠ 38 := by
      rintro rfl
      exact hbyte (by decide)
    have hfind : (escapedBytes.find? fun escaped =>
        (escapeOf escaped).isPrefixOf (byte :: html)) = none := by
      rw [find?_eq_none]
      intro escaped hescaped
      simp only [escapedBytes, mem_cons, not_mem_nil, or_false] at hescaped
      rcases hescaped with rfl | rfl | rfl | rfl | rfl <;>
        simp [escapeOf, htmlEscape, Ne.symm hamp]
    rw [hbytes, singleton_append, unescape, hfind]
  · rw [hbytes, unescape_escapeOf hbyte]

section Reading

variable {attributes : Highlight → List UInt8}

theorem bytes_of_tag (hplain : PlainAttributes attributes) {token : Token}
    (hfrom : token.From attributes) {tag : List UInt8} (h : token.tag? = some tag) :
    token.text? = none ∧ token.bytes = 60 :: (tag ++ [62]) ∧
      62 ∉ tag ∧ 60 ∉ tag ∧ lineFeed ∉ tag := by
  cases token with
  | spanOpen written =>
    obtain ⟨highlight, rfl⟩ := hfrom
    cases h
    refine ⟨rfl, ?_, ?_, ?_, ?_⟩
    · simp [Token.bytes, spanOpen, spanName]
    all_goals
      intro hmem
      rcases mem_append.mp hmem with hmem | hmem
      · exact absurd hmem (by decide)
    · exact (hplain highlight _ hmem).2.1 rfl
    · exact (hplain highlight _ hmem).1 rfl
    · exact (hplain highlight _ hmem).2.2 rfl
  | spanClose =>
    cases h
    exact ⟨rfl, rfl, by decide, by decide, by decide⟩
  | text byte => cases h

theorem Token.exists_tag_or_text (token : Token) :
    (∃ tag, token.tag? = some tag) ∨ ∃ byte, token = text byte := by
  cases token with
  | spanOpen written | spanClose => exact .inl ⟨_, rfl⟩
  | text byte => exact .inr ⟨byte, rfl⟩

/-- The tokens are written with the attributes of highlights. -/
def AllFrom (attributes : Highlight → List UInt8) (tokens : List Token) : Prop :=
  ∀ token ∈ tokens, token.From attributes

variable {tokens : List Token}

section

variable (hplain : PlainAttributes attributes)

include hplain

theorem shownText_htmlOf (h : AllFrom attributes tokens) :
    shownText (htmlOf tokens) = textOf tokens := by
  induction tokens with
  | nil => rfl
  | cons token tokens ih =>
    have hrest := ih fun other hother => h other (mem_cons_of_mem _ hother)
    have hcons : htmlOf (token :: tokens) = token.bytes ++ htmlOf tokens := flatMap_cons
    rw [shownText] at hrest
    rw [shownText, hcons]
    rcases token.exists_tag_or_text with ⟨tag, htag⟩ | ⟨byte, rfl⟩
    · obtain ⟨htext, hbytes, hgreater, -⟩ := bytes_of_tag hplain (h token mem_cons_self) htag
      rw [hbytes, cons_append, stripTags, if_pos rfl, append_assoc,
        singleton_append, stripTags_inside hgreater, hrest, textOf, textOf,
        filterMap_cons_none htext]
    · rw [stripTags_outside fun hmem => (text_bytes_plain hmem).2.1 rfl, unescape_text, hrest]
      rfl

theorem readTags_htmlOf (h : AllFrom attributes tokens) :
    readTags none (htmlOf tokens) = some (tokens.filterMap Token.tag?) := by
  induction tokens with
  | nil => rfl
  | cons token tokens ih =>
    have hrest := ih fun other hother => h other (mem_cons_of_mem _ hother)
    have hcons : htmlOf (token :: tokens) = token.bytes ++ htmlOf tokens := flatMap_cons
    rw [hcons]
    rcases token.exists_tag_or_text with ⟨tag, htag⟩ | ⟨byte, rfl⟩
    · obtain ⟨-, hbytes, hgreater, hless, -⟩ :=
        bytes_of_tag hplain (h token mem_cons_self) htag
      rw [hbytes, cons_append, readTags, if_pos rfl, append_assoc,
        singleton_append, readTags_inside hgreater hless, hrest, filterMap_cons_some htag]
      rfl
    · rw [readTags_outside (fun hmem => (text_bytes_plain hmem).1 rfl)
        (fun hmem => (text_bytes_plain hmem).2.1 rfl), hrest]
      rfl

/-- The spans of some tokens are balanced if none is open behind them. -/
theorem balancedTags_htmlOf (h : AllFrom attributes tokens) (hdepth : depthOf tokens = some 0) :
    BalancedTags (htmlOf tokens) := by
  rw [BalancedTags, readTags_htmlOf hplain h]
  exact hdepth

theorem lineFeed_mem_bytes {token : Token}
    (hfrom : token.From attributes) (h : lineFeed ∈ token.bytes) : token = .text lineFeed := by
  rcases token.exists_tag_or_text with ⟨tag, htag⟩ | ⟨byte, rfl⟩
  · obtain ⟨-, hbytes, -, -, hline⟩ := bytes_of_tag hplain hfrom htag
    rw [hbytes] at h
    rcases mem_cons.mp h with h | h
    · exact absurd h (by decide)
    · rcases mem_append.mp h with h | h
      · exact absurd h hline
      · exact absurd h (by decide)
  · rw [(text_bytes_plain h).2.2 rfl]

theorem lineFeed_not_mem_htmlOf
    (h : AllFrom attributes tokens) (hline : Token.text lineFeed ∉ tokens) :
    lineFeed ∉ htmlOf tokens := by
  intro hmem
  obtain ⟨token, htoken, hmem⟩ := mem_flatMap.mp hmem
  exact hline (lineFeed_mem_bytes hplain (h token htoken) hmem ▸ htoken)

end

end Reading

/-! ### Lines of tokens -/

/-- A line that is being written, with some open spans, inside of a character or between two. -/
structure IsOpenLine (attributes : Highlight → List UInt8) (tokens : List Token) (depth : Nat)
    (state : Utf8State) : Prop where
  allFrom : AllFrom attributes tokens
  noLineFeed : Token.text lineFeed ∉ tokens
  depth : depthOf tokens = some depth
  valid : (∀ token ∈ tokens, token.Valid) → utf8Run [] (htmlOf tokens) = some state

/-- A line that has ended closes its spans. -/
def IsLine (attributes : Highlight → List UInt8) (tokens : List Token) : Prop :=
  ∃ body, tokens = body ++ [.text lineFeed] ∧ IsOpenLine attributes body 0 []

section Lines

variable {attributes : Highlight → List UInt8} {tokens : List Token} {depth : Nat}
  {state : Utf8State}

theorem isOpenLine_nil : IsOpenLine attributes [] 0 [] where
  allFrom := fun _ h => absurd h not_mem_nil
  noLineFeed := not_mem_nil
  depth := rfl
  valid := fun _ => rfl

theorem IsOpenLine.snoc (h : IsOpenLine attributes tokens depth state) {token : Token}
    {depth' : Nat} {state' : Utf8State} (hfrom : token.From attributes)
    (hline : token ≠ .text lineFeed)
    (hdepth : (token.tag?.toList).foldlM tagStep depth = some depth')
    (hvalid : token.Valid → utf8Run state token.bytes = some state') :
    IsOpenLine attributes (tokens ++ [token]) depth' state' where
  allFrom := by
    intro other hother
    rcases mem_append.mp hother with hother | hother
    · exact h.allFrom other hother
    · exact mem_singleton.mp hother ▸ hfrom
  noLineFeed := by
    intro hmem
    rcases mem_append.mp hmem with hmem | hmem
    · exact h.noLineFeed hmem
    · exact hline (mem_singleton.mp hmem).symm
  depth := by
    rw [depthOf_append, h.depth]
    have htags : [token].filterMap Token.tag? = token.tag?.toList := by
      cases token <;> rfl
    rw [htags]
    exact hdepth
  valid := by
    intro hall
    rw [htmlOf_append, htmlOf_singleton, utf8Run_append,
      h.valid fun other hother => hall other (mem_append_left _ hother)]
    exact hvalid (hall token (mem_append_right _ mem_cons_self))

theorem spanName_ne_spanEnd (written : List UInt8) : spanName ++ written ≠ spanEnd := by
  intro heq
  have hhead : (some 115 : Option UInt8) = some 47 := congrArg List.head? heq
  exact absurd hhead (by decide)

theorem IsOpenLine.snoc_spanOpen (h : IsOpenLine attributes tokens depth [])
    (highlight : Highlight) :
    IsOpenLine attributes (tokens ++ [.spanOpen (attributes highlight)]) (depth + 1) [] := by
  refine h.snoc ⟨highlight, rfl⟩ Token.noConfusion ?_ fun hvalid => ?_
  · have hstep : tagStep depth (spanName ++ attributes highlight) = some (depth + 1) := by
      rw [tagStep, if_neg (spanName_ne_spanEnd _), if_pos (by simp)]
    simp [Token.tag?, hstep]
  · rw [Token.bytes, utf8Run_append, utf8Run_append, utf8Run_ascii (by simp [spanOpen]),
      Option.bind_some, (utf8Error_eq_none_iff _).mp hvalid]
    exact utf8Run_ascii (by simp)

theorem IsOpenLine.snoc_spanClose (h : IsOpenLine attributes tokens (depth + 1) []) :
    IsOpenLine attributes (tokens ++ [.spanClose]) depth [] :=
  h.snoc trivial Token.noConfusion rfl fun _ =>
    utf8Run_ascii (by simp [Token.bytes, HtmlRenderer.spanClose])

theorem IsOpenLine.snoc_text (h : IsOpenLine attributes tokens depth state) {byte : UInt8}
    {state' : Utf8State} (hstate : state.Inside) (hline : byte ≠ lineFeed)
    (hstep : utf8Step state byte = some state') :
    IsOpenLine attributes (tokens ++ [.text byte]) depth state' := by
  refine h.snoc trivial (fun heq => hline (Token.text.inj heq)) rfl fun _ => ?_
  rcases text_bytes_cases byte with ⟨-, hbytes⟩ | ⟨hbyte, hbytes⟩
  · rw [hbytes, utf8Run_cons, hstep]
    rfl
  · -- an escape is between characters, as the byte was
    obtain ⟨hascii, hwritten⟩ := escapeOf_plain byte hbyte
    obtain ⟨rfl, rfl⟩ := utf8Step_ascii hstate hascii hstep
    rw [hbytes]
    exact utf8Run_ascii fun written hmem => (hwritten written hmem).2.2.2

theorem IsLine.allFrom (h : IsLine attributes tokens) : AllFrom attributes tokens := by
  obtain ⟨body, rfl, hbody⟩ := h
  intro token htoken
  rcases mem_append.mp htoken with htoken | htoken
  · exact hbody.allFrom token htoken
  · rw [mem_singleton.mp htoken]
    trivial

theorem IsLine.balancedTags (hplain : PlainAttributes attributes) (h : IsLine attributes tokens) :
    BalancedTags (htmlOf tokens) := by
  refine balancedTags_htmlOf hplain h.allFrom ?_
  obtain ⟨body, rfl, hbody⟩ := h
  rw [depthOf_append, hbody.depth]
  rfl

theorem IsLine.isOneLine (hplain : PlainAttributes attributes) (h : IsLine attributes tokens) :
    IsOneLine (htmlOf tokens) := by
  obtain ⟨body, rfl, hbody⟩ := h
  refine ⟨htmlOf body, ?_, lineFeed_not_mem_htmlOf hplain hbody.allFrom hbody.noLineFeed⟩
  rw [htmlOf_append]
  rfl

theorem valid_of_from (hutf8 : ∀ highlight, utf8Error (attributes highlight) = none)
    {token : Token} (h : token.From attributes) : token.Valid := by
  cases token with
  | spanOpen written =>
    obtain ⟨highlight, rfl⟩ := h
    exact hutf8 highlight
  | spanClose | text byte => trivial

theorem IsLine.utf8Error_eq_none (hutf8 : ∀ highlight, utf8Error (attributes highlight) = none)
    (h : IsLine attributes tokens) : utf8Error (htmlOf tokens) = none := by
  obtain ⟨body, rfl, hbody⟩ := h
  rw [utf8Error_eq_none_iff, htmlOf_append, utf8Run_append,
    hbody.valid fun token htoken => valid_of_from hutf8 (hbody.allFrom token htoken)]
  rfl

end Lines

/-! ### Pages -/

/-- Lines that have ended, and the one that is being written. -/
structure Page where
  lines : List (List Token)
  current : List Token

namespace Page

def tokens (page : Page) : List Token := page.lines.flatten ++ page.current

/-- The page with one more token on the line that is being written. -/
def add (page : Page) (token : Token) : Page := { page with current := page.current ++ [token] }

def breakLine (page : Page) : Page := ⟨page.lines ++ [page.current ++ [.text lineFeed]], []⟩

theorem tokens_add (page : Page) (token : Token) :
    (page.add token).tokens = page.tokens ++ [token] :=
  (append_assoc ..).symm

theorem tokens_breakLine (page : Page) :
    page.breakLine.tokens = page.tokens ++ [.text lineFeed] := by
  simp [breakLine, tokens]

end Page

/-- The 32-bit offsets of lines, the first of which begins at some offset. -/
def lineStarts : Nat → List (List Token) → List Nat
  | _, [] => []
  | start, line :: lines =>
    start % 2 ^ 32 :: lineStarts (start + (htmlOf line).length) lines

theorem lineStarts_append (start : Nat) (lines lines' : List (List Token)) :
    lineStarts start (lines ++ lines') =
      lineStarts start lines ++ lineStarts (start + (htmlOf lines.flatten).length) lines' := by
  induction lines generalizing start with
  | nil => rfl
  | cons line lines ih =>
    rw [cons_append, lineStarts, lineStarts, ih, cons_append, flatten_cons,
      htmlOf_append, length_append, Nat.add_assoc]

/-- The renderer marks no carriage returns and holds the HTML of the page. -/
structure Draws (attributes : Highlight → List UInt8) (renderer : HtmlRenderer) (page : Page)
    (depth : Nat) (state : Utf8State) : Prop where
  unmarked : renderer.carriageReturnHighlight = none
  html : renderer.html = htmlOf page.tokens
  lineOffsets : renderer.lineOffsets = lineStarts 0 (page.lines ++ [page.current])
  lines : ∀ line ∈ page.lines, IsLine attributes line
  current : IsOpenLine attributes page.current depth state

section Drawing

variable {callback : AttributeCallback} {attributes : Highlight → List UInt8}
  {renderer : HtmlRenderer} {page : Page} {depth : Nat} {state : Utf8State}

theorem lineStarts_snoc (lines : List (List Token)) (line : List Token) :
    lineStarts 0 (lines ++ [line]) =
      lineStarts 0 lines ++ [(htmlOf lines.flatten).length % 2 ^ 32] := by
  rw [lineStarts_append, Nat.zero_add]
  rfl

variable {state' : Utf8State}

theorem Draws.add (h : Draws attributes renderer page depth state) {token : Token}
    {renderer' : HtmlRenderer} {depth' : Nat}
    (hhighlight : renderer'.carriageReturnHighlight = renderer.carriageReturnHighlight)
    (hhtml : renderer'.html = renderer.html ++ token.bytes)
    (hoffsets : renderer'.lineOffsets = renderer.lineOffsets)
    (hcurrent : IsOpenLine attributes (page.current ++ [token]) depth' state') :
    Draws attributes renderer' (page.add token) depth' state' where
  unmarked := hhighlight.trans h.unmarked
  html := by rw [hhtml, h.html, Page.tokens_add, htmlOf_append, htmlOf_singleton]
  lineOffsets := by
    rw [hoffsets, h.lineOffsets, lineStarts_snoc, lineStarts_snoc]
    rfl
  lines := h.lines
  current := hcurrent

theorem Draws.start (happends : AppendsBy callback attributes)
    (h : Draws attributes renderer page depth []) (highlight : Highlight) :
    Draws attributes (renderer.startHighlight callback highlight)
      (page.add (.spanOpen (attributes highlight))) (depth + 1) [] := by
  refine h.add rfl ?_ rfl (h.current.snoc_spanOpen highlight)
  simp [startHighlight, happends highlight, Token.bytes]

theorem Draws.close (h : Draws attributes renderer page (depth + 1) []) :
    Draws attributes renderer.endHighlight (page.add .spanClose) depth [] :=
  h.add rfl rfl rfl h.current.snoc_spanClose

def Page.SameText (page page' : Page) : Prop := textOf page'.tokens = textOf page.tokens

theorem Page.sameText_add (page : Page) {token : Token} (h : token.text? = none) :
    page.SameText (page.add token) := by
  rw [SameText, tokens_add, textOf_append]
  simp [textOf, h]

theorem Draws.starts (happends : AppendsBy callback attributes) (highlights : List Highlight)
    (h : Draws attributes renderer page depth []) : ∃ page', page.SameText page' ∧
      Draws attributes (highlights.foldl (startHighlight callback) renderer) page'
        (depth + highlights.length) [] := by
  induction highlights generalizing renderer page depth with
  | nil => exact ⟨page, rfl, h⟩
  | cons highlight highlights ih =>
    obtain ⟨page', htext, h'⟩ := ih (h.start happends highlight)
    refine ⟨page', htext.trans (page.sameText_add rfl), ?_⟩
    rwa [length_cons, Nat.add_comm highlights.length, ← Nat.add_assoc]

theorem Draws.closes (highlights : List Highlight)
    (h : Draws attributes renderer page (depth + highlights.length) []) :
    ∃ page', page.SameText page' ∧
      Draws attributes (highlights.foldl (fun renderer _ => renderer.endHighlight) renderer) page'
        depth [] := by
  induction highlights generalizing renderer page with
  | nil => exact ⟨page, rfl, h⟩
  | cons highlight highlights ih =>
    obtain ⟨page', htext, h'⟩ := ih (Draws.close h)
    exact ⟨page', htext.trans (page.sameText_add rfl), h'⟩

theorem Draws.pushLineFeed (h : Draws attributes renderer page 0 []) :
    Draws attributes renderer.pushLineFeed page.breakLine 0 [] where
  unmarked := h.unmarked
  html := by
    rw [Page.tokens_breakLine, htmlOf_append, ← h.html]
    rfl
  lineOffsets := by
    have hhtml : htmlOf (page.lines ++ [page.current ++ [Token.text lineFeed]]).flatten =
        renderer.html ++ [lineFeed] := by
      have htokens : (page.lines ++ [page.current ++ [Token.text lineFeed]]).flatten =
          page.tokens ++ [Token.text lineFeed] := by simp [Page.tokens]
      rw [htokens, htmlOf_append, ← h.html]
      rfl
    rw [Page.breakLine, lineStarts_snoc, hhtml, lineStarts_snoc, ← lineStarts_snoc _ page.current,
      ← h.lineOffsets]
    rfl
  lines := by
    intro line hline
    rcases mem_append.mp hline with hline | hline
    · exact h.lines line hline
    · exact ⟨page.current, mem_singleton.mp hline, h.current⟩
  current := isOpenLine_nil

variable {highlights : List Highlight}

section

variable (happends : AppendsBy callback attributes)

include happends

theorem Draws.addLineFeed (h : Draws attributes renderer page highlights.length []) :
    ∃ page', textOf page'.tokens = textOf page.tokens ++ [lineFeed] ∧
      Draws attributes (renderer.addLineFeed callback highlights) page' highlights.length [] := by
  rw [← Nat.zero_add highlights.length] at h
  obtain ⟨closed, hclosed, h⟩ := h.closes
  obtain ⟨page', htext, h⟩ := h.pushLineFeed.starts happends highlights
  rw [Nat.zero_add] at h
  refine ⟨page', ?_, h⟩
  rw [htext, Page.tokens_breakLine, textOf_append, hclosed]
  rfl

omit happends in
theorem markCarriageReturn_of_unmarked (h : renderer.carriageReturnHighlight = none) :
    renderer.markCarriageReturn callback = some { renderer with lastCarriageReturn := none } := by
  rw [markCarriageReturn]
  split
  next => rw [addCarriageReturn, h]
  next hnone => rw [← hnone]

theorem Draws.addByte
    (h : Draws attributes renderer page highlights.length state) (hstate : state.Inside)
    {byte : UInt8} (hstep : utf8Step state byte = some state') :
    ∃ renderer' page', renderer.addByte callback highlights byte = some renderer' ∧
      textOf page'.tokens = textOf page.tokens ++ [byte].filter (· != carriageReturn) ∧
      Draws attributes renderer' page' highlights.length state' := by
  rw [HtmlRenderer.addByte]
  by_cases hreturn : byte = carriageReturn
  · obtain ⟨rfl, rfl⟩ := utf8Step_ascii hstate (by rw [hreturn]; decide) hstep
    subst hreturn
    refine ⟨_, page, if_pos rfl, ?_, h.unmarked, h.html, h.lineOffsets, h.lines, h.current⟩
    exact (append_nil _).symm
  · have hkept : [byte].filter (· != carriageReturn) = [byte] := by simp [hreturn]
    rw [if_neg hreturn, hkept]
    by_cases hline : byte = lineFeed
    · obtain ⟨rfl, rfl⟩ := utf8Step_ascii hstate (by rw [hline]; decide) hstep
      subst hline
      have hforgets : Draws attributes { renderer with lastCarriageReturn := none } page
          highlights.length [] := ⟨h.unmarked, h.html, h.lineOffsets, h.lines, h.current⟩
      obtain ⟨page', htext, h'⟩ := hforgets.addLineFeed happends
      exact ⟨_, page', if_pos rfl, htext, h'⟩
    · rw [if_neg hline, markCarriageReturn_of_unmarked h.unmarked]
      refine ⟨_, page.add (.text byte), rfl, ?_,
        h.add rfl rfl rfl (h.current.snoc_text hstate hline hstep)⟩
      rw [Page.tokens_add, textOf_append]
      rfl

theorem Draws.bytes (bytes : List UInt8)
    (h : Draws attributes renderer page highlights.length state) (hstate : state.Inside)
    (hrun : utf8Run state bytes = some state') :
    ∃ renderer' page',
      bytes.foldlM (HtmlRenderer.addByte callback highlights) renderer = some renderer' ∧
      textOf page'.tokens = textOf page.tokens ++ bytes.filter (· != carriageReturn) ∧
      Draws attributes renderer' page' highlights.length state' := by
  induction bytes generalizing renderer page state with
  | nil =>
    cases hrun
    exact ⟨renderer, page, rfl, (append_nil _).symm, h⟩
  | cons byte bytes ih =>
    obtain ⟨next, hstep, hrest⟩ := Option.bind_eq_some_iff.mp hrun
    obtain ⟨renderer₁, page₁, hrenderer₁, htext₁, h₁⟩ := h.addByte happends hstate hstep
    obtain ⟨renderer₂, page₂, hrenderer₂, htext₂, h₂⟩ :=
      ih h₁ (utf8Step_inside hstate hstep) hrest
    refine ⟨renderer₂, page₂, ?_, ?_, h₂⟩
    · rw [foldlM_cons, hrenderer₁]
      exact hrenderer₂
    · rw [htext₂, htext₁, append_assoc, ← filter_append, singleton_append]

theorem Draws.events {source : List UInt8}
    (events : List HighlightEvent) (h : Draws attributes renderer page highlights.length [])
    (hnested : wellNested highlights.length events = true)
    (hwithin : WithinSource source (events.map .ok)) :
    ∃ renderer' page',
      renderEvents callback source (events.map .ok) highlights renderer =
        some (.ok (), renderer') ∧
      textOf page'.tokens = textOf page.tokens ++
        (eventsText source (events.map .ok)).filter (· != carriageReturn) ∧
      Draws attributes renderer' page' 0 [] := by
  induction events generalizing highlights renderer page with
  | nil =>
    have hnil : highlights = [] := length_eq_zero_iff.mp (beq_iff_eq.mp hnested)
    subst hnil
    exact ⟨renderer, page, rfl, (append_nil _).symm, h⟩
  | cons event events ih =>
    rw [map_cons]
    match event with
    | .highlightStart highlight mark =>
      rw [renderEvents]
      have hstart := h.start happends highlight
      have hlength : highlights.length + 1 = (highlights ++ [highlight]).length := by simp
      rw [wellNested, hlength] at hnested
      rw [hlength] at hstart
      obtain ⟨renderer', page', hrenderer', htext, h'⟩ := ih hstart hnested hwithin
      refine ⟨renderer', page', hrenderer', ?_, h'⟩
      rw [htext, page.sameText_add rfl]
      rfl
    | .highlightEnd mark =>
      rw [renderEvents]
      rw [wellNested, Bool.and_eq_true, bne_iff_ne] at hnested
      obtain ⟨hne, hnested⟩ := hnested
      have hlength : highlights.length = highlights.dropLast.length + 1 := by
        rw [length_dropLast]
        omega
      rw [hlength] at h
      rw [← length_dropLast] at hnested
      obtain ⟨renderer', page', hrenderer', htext, h'⟩ := ih h.close hnested hwithin
      refine ⟨renderer', page', hrenderer', ?_, h'⟩
      rw [htext, page.sameText_add rfl]
      rfl
    | .source start stop =>
      rw [renderEvents, if_pos hwithin.1]
      have hvalid := LossyUtf8.lossyBytes_valid (slice source start stop)
      have hinside : Utf8State.Inside [] := fun _ hok => absurd hok not_mem_nil
      obtain ⟨renderer₁, page₁, hrenderer₁, htext₁, h₁⟩ :=
        h.bytes happends _ hinside hvalid
      obtain ⟨renderer₂, page₂, hrenderer₂, htext₂, h₂⟩ := ih h₁ hnested hwithin.2
      refine ⟨renderer₂, page₂, ?_, ?_, h₂⟩
      · have htextAdded : renderer.addText callback highlights
            ((source.take stop).drop start) = some renderer₁ := hrenderer₁
        rw [htextAdded]
        exact hrenderer₂
      · rw [htext₂, htext₁, append_assoc, ← filter_append]
        rfl

end

/-! ### The end -/

/-- What the renderer holds when it is done. -/
structure Finished (attributes : Highlight → List UInt8) (renderer : HtmlRenderer)
    (lines : List (List Token)) : Prop where
  ended : ∀ line ∈ lines, IsLine attributes line
  html : renderer.html = htmlOf lines.flatten
  lineFeed : renderer.html.getLast? = some lineFeed
  lineOffsets : renderer.html.length < 2 ^ 32 → renderer.lineOffsets = lineStarts 0 lines

theorem IsLine.getLast? {line : List Token} (h : IsLine attributes line) :
    (htmlOf line).getLast? = some lineFeed := by
  obtain ⟨body, rfl, -⟩ := h
  rw [htmlOf_append]
  exact getLast?_concat

theorem IsOpenLine.getLast?_ne (hplain : PlainAttributes attributes) {tokens : List Token}
    (h : IsOpenLine attributes tokens depth state) :
    (htmlOf tokens).getLast? ≠ some HtmlRenderer.lineFeed := fun hlast =>
  lineFeed_not_mem_htmlOf hplain h.allFrom h.noLineFeed (mem_of_getLast? hlast)

theorem htmlOf_ne_nil {tokens : List Token} (h : tokens ≠ []) : htmlOf tokens ≠ [] := by
  cases tokens with
  | nil => exact absurd rfl h
  | cons token tokens =>
    have hcons : htmlOf (token :: tokens) = token.bytes ++ htmlOf tokens := flatMap_cons
    rw [hcons]
    intro hnil
    have hbytes := (append_eq_nil_iff.mp hnil).1
    cases token with
    | spanOpen written => simp [Token.bytes] at hbytes
    | spanClose => cases hbytes
    | text byte =>
      rcases text_bytes_cases byte with ⟨-, heq⟩ | ⟨hbyte, heq⟩ <;> rw [heq] at hbytes
      · cases hbytes
      · simp only [escapedBytes, mem_cons, not_mem_nil, or_false] at hbyte
        rcases hbyte with rfl | rfl | rfl | rfl | rfl <;> cases hbytes

/-- Behind the end of a line, the offset of the line that has not begun is taken back. -/
theorem Draws.finished_of_current_nil (h : Draws attributes renderer page 0 [])
    (hcurrent : page.current = []) (hlines : page.lines ≠ []) :
    Finished attributes renderer.closeLastLine page.lines := by
  obtain ⟨front, last, hsplit⟩ := (eq_nil_or_concat page.lines).resolve_left hlines
  have hhtml : renderer.html = htmlOf page.lines.flatten := by
    rw [h.html, Page.tokens, hcurrent, append_nil]
  have hlast : renderer.html.getLast? = some lineFeed := by
    have hline : IsLine attributes last := h.lines last (by simp [hsplit])
    rw [hhtml, hsplit, concat_eq_append, flatten_append, htmlOf_append,
      flatten_singleton, getLast?_append, hline.getLast?]
    rfl
  have hkept : renderer.closeLastLine.html = renderer.html := if_neg (not_not.mpr hlast)
  have hoffsets : renderer.closeLastLine.lineOffsets = lineStarts 0 page.lines := by
    rw [HtmlRenderer.closeLastLine]
    simp only [hlast, ne_eq, not_true_eq_false, if_false]
    rw [h.lineOffsets, hcurrent, lineStarts_snoc, ← hhtml, getLast?_concat, if_pos rfl,
      dropLast_concat]
  exact ⟨h.lines, hkept.trans hhtml, hkept ▸ hlast, fun _ => hoffsets⟩

theorem Draws.finished_of_getLast?_ne (h : Draws attributes renderer page 0 [])
    (hlast : renderer.html.getLast? ≠ some lineFeed) :
    Finished attributes renderer.closeLastLine page.breakLine.lines := by
  have htokens : page.breakLine.lines.flatten = page.tokens ++ [.text HtmlRenderer.lineFeed] := by
    rw [← Page.tokens_breakLine, Page.tokens]
    exact (append_nil _).symm
  have hhtml : renderer.closeLastLine.html = renderer.html ++ [lineFeed] := if_pos hlast
  have hlength : (htmlOf page.lines.flatten).length ≤ renderer.html.length := by
    rw [h.html, Page.tokens, htmlOf_append, length_append]
    exact Nat.le_add_right _ _
  have hbreak := h.pushLineFeed.lines
  refine ⟨hbreak, ?_, ?_, fun hshort => ?_⟩
  · rw [hhtml, htokens, htmlOf_append, ← h.html]
    rfl
  · rw [hhtml]
    exact getLast?_concat
  · rw [hhtml, length_append, length_singleton] at hshort
    have hne : ¬ renderer.lineOffsets.getLast? =
        some ((renderer.html ++ [lineFeed]).length % 2 ^ 32) := by
      rw [h.lineOffsets, lineStarts_snoc, getLast?_concat, Option.some.injEq,
        length_append, length_singleton]
      omega
    rw [HtmlRenderer.closeLastLine]
    simp only [if_pos hlast, if_neg hne]
    have hlines : page.breakLine.lines =
        page.lines ++ [page.current ++ [.text HtmlRenderer.lineFeed]] := rfl
    rw [h.lineOffsets, hlines, lineStarts_snoc, lineStarts_snoc]

theorem Draws.closeLastLine (hplain : PlainAttributes attributes)
    (h : Draws attributes renderer page 0 []) :
    ∃ lines added, (added = [] ∨ added = [lineFeed]) ∧
      textOf lines.flatten = textOf page.tokens ++ added ∧
      Finished attributes renderer.closeLastLine lines := by
  by_cases hended : page.current = [] ∧ page.lines ≠ []
  · refine ⟨page.lines, [], .inl rfl, ?_, h.finished_of_current_nil hended.1 hended.2⟩
    rw [Page.tokens, hended.1, append_nil, append_nil]
  · have hlast : renderer.html.getLast? ≠ some lineFeed := by
      rw [h.html, Page.tokens, htmlOf_append]
      by_cases hcurrent : page.current = []
      · have hlines : page.lines = [] := not_not.mp fun hne => hended ⟨hcurrent, hne⟩
        rw [hcurrent, hlines]
        exact fun hnone => nomatch hnone
      · rw [getLast?_append_of_ne_nil _ (htmlOf_ne_nil hcurrent)]
        exact h.current.getLast?_ne hplain
    refine ⟨page.breakLine.lines, [lineFeed], .inr rfl, ?_, h.finished_of_getLast?_ne hlast⟩
    have htokens : page.breakLine.lines.flatten = page.breakLine.tokens :=
      (append_nil _).symm
    rw [htokens, Page.tokens_breakLine, textOf_append]
    rfl

theorem linesFrom_lineStarts (hutf8 : ∀ highlight, utf8Error (attributes highlight) = none)
    (lines : List (List Token)) (front : List UInt8)
    (hlines : ∀ line ∈ lines, IsLine attributes line)
    (hhtml : renderer.html = front ++ htmlOf lines.flatten)
    (hshort : renderer.html.length < 2 ^ 32) :
    renderer.linesFrom (lineStarts front.length lines) = some (lines.map htmlOf) := by
  induction lines generalizing front with
  | nil => rfl
  | cons line lines ih =>
    have hcons : renderer.html = (front ++ htmlOf line) ++ htmlOf lines.flatten := by
      rw [hhtml, flatten_cons, htmlOf_append, append_assoc]
    have hlength := congrArg List.length hcons
    rw [length_append, length_append] at hlength
    have hrest := ih (front ++ htmlOf line)
      (fun other hother => hlines other (mem_cons_of_mem _ hother)) hcons
    rw [length_append] at hrest
    have hend : ((lineStarts (front.length + (htmlOf line).length) lines).head?).getD
        renderer.html.length = front.length + (htmlOf line).length := by
      cases lines with
      | nil => exact hlength
      | cons next lines => exact Nat.mod_eq_of_lt (by omega)
    have hslice : (renderer.html.take (front.length + (htmlOf line).length)).drop
        front.length = htmlOf line := by
      rw [hcons, ← length_append, take_left, drop_left]
    have hline : renderer.line front.length (front.length + (htmlOf line).length) =
        some (htmlOf line) := by
      rw [HtmlRenderer.line, hslice]
      exact if_pos ⟨by omega, by omega,
        (hlines line mem_cons_self).utf8Error_eq_none hutf8⟩
    rw [lineStarts, linesFrom, Nat.mod_eq_of_lt (by omega), hend, hline, hrest]
    rfl

end Drawing

/-! ### The whole call -/

/-- A new renderer draws an empty page; so does one that has been reset, whatever it remembers. -/
theorem reset_draws {attributes : Highlight → List UInt8} {renderer : HtmlRenderer}
    (h : renderer.carriageReturnHighlight = none) :
    Draws attributes renderer.reset ⟨[], []⟩ 0 [] where
  unmarked := h
  html := rfl
  lineOffsets := rfl
  lines := fun _ hline => absurd hline not_mem_nil
  current := isOpenLine_nil

/-- Without tags and escapes, the HTML is the text without carriage returns and with at most one
more line feed, and it ends with a line feed. -/
def ShowsText (renderer : HtmlRenderer) (text : List UInt8) : Prop :=
  (∃ added, (added = [] ∨ added = [lineFeed]) ∧
    shownText renderer.html = text.filter (· != carriageReturn) ++ added) ∧
  renderer.html.getLast? = some lineFeed

/-- The lines are the HTML, and each closes its spans and ends with its one line feed. -/
def LinesStandAlone (renderer : HtmlRenderer) : Prop :=
  ∃ lines, renderer.lines = some lines ∧ lines.flatten = renderer.html ∧
    ∀ line ∈ lines, BalancedTags line ∧ IsOneLine line

theorem flatten_map_htmlOf (lines : List (List Token)) :
    (lines.map htmlOf).flatten = htmlOf lines.flatten := by
  induction lines with
  | nil => rfl
  | cons line lines ih =>
    rw [map_cons, flatten_cons, ih, flatten_cons, htmlOf_append]

/-- With attributes without angle brackets and line feeds, the HTML of well-nested events that
partition the source shows the text of the events. Its lines stand alone if the attributes are text
and the HTML has less than `2 ^ 32` bytes. -/
theorem render_faithful {callback : AttributeCallback} {attributes : Highlight → List UInt8}
    (happends : AppendsBy callback attributes) (hplain : PlainAttributes attributes)
    {source : List UInt8} {events : List HighlightEvent} (hnested : wellNested 0 events = true)
    (hparts : Partitions source 0 events) {renderer : HtmlRenderer}
    (hunmarked : renderer.carriageReturnHighlight = none) :
    ∃ renderer', renderer.reset.render callback (events.map .ok) source =
        some (.ok (), renderer') ∧
      ShowsText renderer' (eventsText source (events.map .ok)) ∧
      ((∀ highlight, utf8Error (attributes highlight) = none) → renderer'.html.length < 2 ^ 32 →
        LinesStandAlone renderer') := by
  have hempty : Draws attributes renderer.reset ⟨[], []⟩ ([] : List Highlight).length [] :=
    reset_draws hunmarked
  obtain ⟨drawn, page, hevents, htext, hdraws⟩ :=
    hempty.events happends events hnested hparts.withinSource
  have hdraws' : Draws attributes { drawn with lastCarriageReturn := none } page 0 [] :=
    ⟨hdraws.unmarked, hdraws.html, hdraws.lineOffsets, hdraws.lines, hdraws.current⟩
  obtain ⟨lines, added, hadded, hlines, hfinished⟩ := hdraws'.closeLastLine hplain
  refine ⟨_, ?_, ⟨⟨added, hadded, ?_⟩, hfinished.lineFeed⟩, fun hutf8 hshort => ?_⟩
  · rw [render_eq, hevents]
    simp only [finish, markCarriageReturn_of_unmarked hdraws.unmarked]
    rfl
  · have hfrom : AllFrom attributes lines.flatten := by
      intro token htoken
      obtain ⟨line, hline, htoken⟩ := mem_flatten.mp htoken
      exact (hfinished.ended line hline).allFrom token htoken
    rw [hfinished.html, shownText_htmlOf hplain hfrom, hlines, htext]
    rfl
  · refine ⟨lines.map htmlOf, ?_, ?_, fun line hline => ?_⟩
    · rw [HtmlRenderer.lines, hfinished.lineOffsets hshort]
      exact linesFrom_lineStarts hutf8 lines [] hfinished.ended hfinished.html hshort
    · rw [hfinished.html, flatten_map_htmlOf]
    · obtain ⟨tokens, htokens, rfl⟩ := mem_map.mp hline
      exact ⟨(hfinished.ended tokens htokens).balancedTags hplain,
        (hfinished.ended tokens htokens).isOneLine hplain⟩

def twoBytes : List HighlightEvent :=
  [.highlightStart ⟨0⟩ ⟨0, 0⟩, .source 0 2, .highlightEnd ⟨0, 2⟩]

theorem render_faithful_twoBytes :
    ∃ renderer', new.reset.render (fun _ html => html ++ [97]) (twoBytes.map .ok) [lineFeed, 60] =
        some (.ok (), renderer') ∧
      ShowsText renderer' (eventsText [lineFeed, 60] (twoBytes.map .ok)) ∧
      LinesStandAlone renderer' := by
  have hplain : PlainAttributes fun _ => [97] := by
    intro _ byte hbyte
    rw [mem_singleton.mp hbyte]
    decide
  have happends : AppendsBy (fun _ html => html ++ [97]) fun _ => [97] := fun _ _ => rfl
  have hparts : Partitions [lineFeed, 60] 0 twoBytes := by
    simp [twoBytes, Partitions]
  have hunmarked : new.carriageReturnHighlight = none := rfl
  obtain ⟨renderer', hrender, htext, hlines⟩ :=
    render_faithful happends hplain (by decide) hparts hunmarked
  have hlength : (new.reset.render (fun _ html => html ++ [97]) (twoBytes.map .ok)
      [lineFeed, 60]).map (fun rendered => rendered.2.html.length) = some 36 := by decide
  rw [hrender, Option.map_some, Option.some.injEq] at hlength
  exact ⟨renderer', hrender, htext, hlines (fun _ => by decide) (by rw [hlength]; decide)⟩

/-- Whether the HTML is faithful, whatever the attributes are that have a property. -/
def FaithfulFor (P : List UInt8 → Prop) : Prop :=
  ∀ (callback : AttributeCallback) (attributes : Highlight → List UInt8),
    AppendsBy callback attributes → PlainAttributes attributes →
    (∀ highlight, P (attributes highlight)) →
    ∀ (source : List UInt8) (events : List HighlightEvent) (renderer : HtmlRenderer),
      wellNested 0 events = true → Partitions source 0 events →
      renderer.carriageReturnHighlight = none →
      ∃ renderer', renderer.reset.render callback (events.map .ok) source =
          some (.ok (), renderer') ∧
        ShowsText renderer' (eventsText source (events.map .ok)) ∧ LinesStandAlone renderer'

/-- Two lines with long attributes, in front of the end: what the second offset keeps of the
position of its line is modulo `2 ^ 32`. -/
def longAttributes (n : Nat) : HtmlRenderer where
  html := spanOpen ++ (List.replicate n 97 ++ 62 :: (spanClose ++ lineFeed ::
    (spanOpen ++ (List.replicate n 97 ++ 62 :: 98 :: spanClose))))
  lineOffsets := [0, (n + 15) % 2 ^ 32]
  carriageReturnHighlight := none
  lastCarriageReturn := none

theorem renderEvents_longAttributes (n : Nat) :
    renderEvents (fun _ html => html ++ List.replicate n 97) [lineFeed, 98] (twoBytes.map .ok) []
      new.reset = some (.ok (), longAttributes n) := by
  have hlossy : LossyUtf8.lossyBytes [10, 98] = [10, 98] := by decide
  simp [renderEvents, twoBytes, addText, hlossy, addByte, new, reset, addLineFeed, pushLineFeed,
    startHighlight, endHighlight, markCarriageReturn, htmlEscape, carriageReturn, lineFeed,
    longAttributes, spanOpen, spanClose]

variable {n : Nat}

theorem closeLastLine_longAttributes (hn : n % 2 ^ 32 = 0) :
    (longAttributes n).closeLastLine =
      { longAttributes n with html := (longAttributes n).html ++ [lineFeed] } := by
  have hlast : (longAttributes n).html.getLast? ≠ some lineFeed := by
    have hsplit : (longAttributes n).html =
        (spanOpen ++ (List.replicate n 97 ++ 62 :: (spanClose ++ lineFeed ::
          (spanOpen ++ (List.replicate n 97 ++ [62, 98]))))) ++ spanClose := by
      simp [longAttributes]
    rw [hsplit, getLast?_append]
    exact fun hlast : some 62 = some lineFeed => absurd hlast (by decide)
  have hlength : (longAttributes n).html.length = 2 * n + 30 := by
    simp [longAttributes, spanOpen, spanClose]
    omega
  have hne : ¬ (longAttributes n).lineOffsets.getLast? =
      some (((longAttributes n).html ++ [lineFeed]).length % 2 ^ 32) := by
    rw [length_append, hlength]
    simp [longAttributes]
    omega
  rw [closeLastLine]
  simp only [if_pos hlast, if_neg hne]

theorem not_linesStandAlone_longAttributes (hn : 9 ≤ n) (hmod : n % 2 ^ 32 = 0) :
    ¬ LinesStandAlone (longAttributes n).closeLastLine := by
  rintro ⟨lines, hlines, -, hall⟩
  have hoffset : (n + 15) % 2 ^ 32 = 15 := by omega
  rw [closeLastLine_longAttributes hmod, HtmlRenderer.lines] at hlines
  simp only [longAttributes, hoffset] at hlines
  obtain ⟨first, hfirst, hrest⟩ := Option.bind_eq_some_iff.mp hlines
  obtain ⟨rest, -, hcons⟩ := Option.bind_eq_some_iff.mp hrest
  cases hcons
  obtain ⟨body, hbody, -⟩ := (hall first mem_cons_self).2
  obtain ⟨m, rfl⟩ := Nat.exists_eq_add_of_le hn
  rw [HtmlRenderer.line, Option.ite_none_right_eq_some] at hfirst
  have hcut : first = spanOpen ++ (List.replicate 9 97) := by
    rw [← Option.some.inj hfirst.2, replicate_add]
    simp [spanOpen]
  have hlast := congrArg List.getLast? (hcut.symm.trans hbody)
  rw [getLast?_concat] at hlast
  exact absurd hlast (by decide)

theorem not_faithfulFor_longAttributes (hn : 9 ≤ n) (hmod : n % 2 ^ 32 = 0) :
    ¬ FaithfulFor fun attributes => utf8Error attributes = none := by
  intro h
  have hplain : PlainAttributes fun _ => List.replicate n 97 := by
    intro _ byte hbyte
    rw [eq_of_mem_replicate hbyte]
    decide
  have hutf8 : utf8Error (List.replicate n 97) = none := by
    refine (utf8Error_eq_none_iff _).mpr (utf8Run_ascii fun byte hbyte => ?_)
    rw [eq_of_mem_replicate hbyte]
    decide
  obtain ⟨renderer', hrender, -, hlines⟩ := h (fun _ html => html ++ List.replicate n 97)
    (fun _ => List.replicate n 97) (fun _ _ => rfl) hplain (fun _ => hutf8)
    [lineFeed, 98] twoBytes new (by decide) (by simp [twoBytes, Partitions]) rfl
  rw [render_eq, renderEvents_longAttributes] at hrender
  cases hrender
  exact not_linesStandAlone_longAttributes hn hmod hlines

/-- Attributes that are not text make `lines` panic. With long attributes that are text, the offset
of the second line does not fit into 32 bits. -/
theorem not_faithfulFor :
    ¬ FaithfulFor (fun _ => True) ∧
      ¬ FaithfulFor fun attributes => utf8Error attributes = none := by
  refine ⟨fun h => ?_, not_faithfulFor_longAttributes (n := 2 ^ 32) (by decide) (by decide)⟩
  have hplain : PlainAttributes fun _ => [255] := by
    intro _ byte hbyte
    rw [mem_singleton.mp hbyte]
    decide
  obtain ⟨renderer', hrender, -, lines, hlines, -⟩ := h (fun _ html => html ++ [255])
    (fun _ => [255]) (fun _ _ => rfl) hplain (fun _ => trivial) [lineFeed, 98] twoBytes new
    (by decide) (by simp [twoBytes, Partitions]) rfl
  have hnone : (new.reset.render (fun _ html => html ++ [255]) (twoBytes.map .ok)
      [lineFeed, 98]).bind (fun rendered => rendered.2.lines) = none := by decide
  rw [hrender, Option.bind_some, hlines] at hnone
  cases hnone

end HtmlRenderer

end TreeSitter.Highlighter
