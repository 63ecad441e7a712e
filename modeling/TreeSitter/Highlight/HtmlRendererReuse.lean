import TreeSitter.Highlight.HtmlRenderer

/-!
# TreeSitter.Highlight.HtmlRendererReuse

Whether a renderer that has been **reset** behaves like a new one. The one thing that it keeps is
the offset of a carriage return that an earlier call read last before it stopped with an error.
The next call then inserts a tag there, or panics, unless its text begins with a carriage return or
a line feed (`HtmlRenderer.reset_render_iff`).
-/

namespace TreeSitter.Highlighter

open Option TreeSitter.Lib

namespace HtmlRenderer

/-! ### Calls -/

/-- A call of the renderer. -/
inductive Call where
  | setCarriageReturnHighlight (highlight : Option Highlight)
  | reset
  | render (events : List (Except Error HighlightEvent)) (source : List UInt8)

variable (callback : AttributeCallback)

/-- The renderer after a call, if it does not panic. A call that stops with an error leaves the
renderer as it is then. -/
def call (renderer : HtmlRenderer) : Call → Option HtmlRenderer
  | .setCarriageReturnHighlight highlight => some (renderer.setCarriageReturnHighlight highlight)
  | .reset => some renderer.reset
  | .render events source => (renderer.render callback events source).map Prod.snd

def afterCalls (calls : List Call) : Option HtmlRenderer := calls.foldlM (call callback) new

/-- What the caller sees of a call of `render`: its result, the HTML and the line offsets. -/
def output (rendered : Option (Except Error Unit × HtmlRenderer)) :
    Option (Except Error Unit × List UInt8 × List Nat) :=
  rendered.map fun (result, renderer) => (result, renderer.html, renderer.lineOffsets)

/-- After `reset`, the next call does what it does on a new renderer. -/
def ResetLikeNew (renderer : HtmlRenderer) (events : List (Except Error HighlightEvent))
    (source : List UInt8) : Prop :=
  output (renderer.reset.render callback events source) =
    output ((new.setCarriageReturnHighlight renderer.carriageReturnHighlight).render callback
      events source)

/-! ### The text of the events -/

/-- The source between two bytes. -/
def slice (source : List UInt8) (start stop : Nat) : List UInt8 := (source.take stop).drop start

def eventsText (source : List UInt8) : List (Except Error HighlightEvent) → List UInt8
  | [] | .error _ :: _ => []
  | .ok (.source start stop) :: events =>
    LossyUtf8.lossyBytes (slice source start stop) ++ eventsText source events
  | .ok _ :: events => eventsText source events

/-- The events in front of the first error are about parts of the source. -/
def WithinSource (source : List UInt8) : List (Except Error HighlightEvent) → Prop
  | [] | .error _ :: _ => True
  | .ok (.source start stop) :: events =>
    (start ≤ stop ∧ stop ≤ source.length) ∧ WithinSource source events
  | .ok _ :: events => WithinSource source events

/-- There is no error. -/
def completes : List (Except Error HighlightEvent) → Bool
  | [] => true
  | .error _ :: _ => false
  | .ok _ :: events => completes events

/-- Whether calls leave a carriage return behind: since the last call of `render` without an error,
there has been text, and it ends with one. -/
def leavesCarriageReturn : Bool → List Call → Bool
  | left, [] => left
  | left, .render events source :: calls =>
    leavesCarriageReturn
      (if completes events then false
      else ((eventsText source events).getLast?.map (· == carriageReturn)).getD left) calls
  | left, _ :: calls => leavesCarriageReturn left calls

/-- A carriage return left behind does not matter: nothing marks carriage returns, or the call
panics in any case, or its text begins with a carriage return or a line feed, or it has no text and
stops with an error. -/
def Harmless (carriageReturnHighlight : Option Highlight)
    (events : List (Except Error HighlightEvent)) (source : List UInt8) : Prop :=
  carriageReturnHighlight = none ∨ ¬ WithinSource source events ∨
    match (eventsText source events).head? with
    | some byte => byte = carriageReturn ∨ byte = lineFeed
    | none => completes events = false

variable {callback}

/-! ### Renderers that differ in what they remember -/

/-- The renderer with another carriage return to remember. -/
def remember (renderer : HtmlRenderer) (offset : Option Nat) : HtmlRenderer :=
  { renderer with lastCarriageReturn := offset }

theorem reset_eq (renderer : HtmlRenderer) :
    renderer.reset =
      (new.setCarriageReturnHighlight renderer.carriageReturnHighlight).remember
        renderer.lastCarriageReturn := rfl

theorem startHighlight_remember (renderer : HtmlRenderer) (offset : Option Nat)
    (highlight : Highlight) :
    (renderer.remember offset).startHighlight callback highlight =
      (renderer.startHighlight callback highlight).remember offset := rfl

theorem endHighlight_remember (renderer : HtmlRenderer) (offset : Option Nat) :
    (renderer.remember offset).endHighlight = renderer.endHighlight.remember offset := rfl

theorem foldl_startHighlight_remember (highlights : List Highlight) (renderer : HtmlRenderer)
    (offset : Option Nat) :
    highlights.foldl (startHighlight callback) (renderer.remember offset) =
      (highlights.foldl (startHighlight callback) renderer).remember offset := by
  induction highlights generalizing renderer with
  | nil => rfl
  | cons highlight highlights ih => exact ih (renderer.startHighlight callback highlight)

theorem foldl_endHighlight_remember (highlights : List Highlight) (renderer : HtmlRenderer)
    (offset : Option Nat) :
    highlights.foldl (fun renderer _ => renderer.endHighlight) (renderer.remember offset) =
      (highlights.foldl (fun renderer _ => renderer.endHighlight) renderer).remember offset := by
  induction highlights generalizing renderer with
  | nil => rfl
  | cons highlight highlights ih => exact ih renderer.endHighlight

theorem addLineFeed_remember (highlights : List Highlight) (renderer : HtmlRenderer)
    (offset : Option Nat) :
    (renderer.remember offset).addLineFeed callback highlights =
      (renderer.addLineFeed callback highlights).remember offset := by
  rw [addLineFeed, foldl_endHighlight_remember]
  exact foldl_startHighlight_remember highlights
    (highlights.foldl (fun renderer _ => renderer.endHighlight) renderer).pushLineFeed offset

/-! ### What an operation adds -/

/-- The operation adds some bytes, and nothing else changes that decides where a tag is inserted. -/
structure Grows (renderer renderer' : HtmlRenderer) (count : Nat) : Prop where
  length : renderer'.html.length = renderer.html.length + count
  highlight : renderer'.carriageReturnHighlight = renderer.carriageReturnHighlight
  remembered : renderer'.lastCarriageReturn = renderer.lastCarriageReturn

variable {count : Nat}

theorem Grows.trans {renderer₁ renderer₂ renderer₃ : HtmlRenderer} {count' : Nat}
    (h : Grows renderer₁ renderer₂ count) (h' : Grows renderer₂ renderer₃ count') :
    Grows renderer₁ renderer₃ (count + count') where
  length := by rw [h'.length, h.length, Nat.add_assoc]
  highlight := h'.highlight.trans h.highlight
  remembered := h'.remembered.trans h.remembered

def AppendsBy (callback : AttributeCallback) (attributes : Highlight → List UInt8) : Prop :=
  ∀ highlight html, callback highlight html = html ++ attributes highlight

section Appends

variable {attributes : Highlight → List UInt8}

theorem startHighlight_grows (h : AppendsBy callback attributes) (renderer : HtmlRenderer)
    (highlight : Highlight) :
    Grows renderer (renderer.startHighlight callback highlight)
      (7 + (attributes highlight).length) where
  length := by
    simp [startHighlight, h highlight, spanOpen]
    omega
  highlight := rfl
  remembered := rfl

theorem endHighlight_grows (renderer : HtmlRenderer) : Grows renderer renderer.endHighlight 7 :=
  ⟨by simp [endHighlight, spanClose], rfl, rfl⟩

theorem foldl_startHighlight_grows (h : AppendsBy callback attributes)
    (highlights : List Highlight) : ∃ count, ∀ renderer,
      Grows renderer (highlights.foldl (startHighlight callback) renderer) count := by
  induction highlights with
  | nil => exact ⟨0, fun _ => ⟨rfl, rfl, rfl⟩⟩
  | cons highlight highlights ih =>
    obtain ⟨count, hcount⟩ := ih
    exact ⟨_, fun renderer => (startHighlight_grows h renderer highlight).trans (hcount _)⟩

theorem foldl_endHighlight_grows (highlights : List Highlight) : ∃ count, ∀ renderer,
    Grows renderer (highlights.foldl (fun renderer _ => renderer.endHighlight) renderer) count := by
  induction highlights with
  | nil => exact ⟨0, fun _ => ⟨rfl, rfl, rfl⟩⟩
  | cons highlight highlights ih =>
    obtain ⟨count, hcount⟩ := ih
    exact ⟨_, fun renderer => (endHighlight_grows renderer).trans (hcount _)⟩

theorem addLineFeed_grows (h : AppendsBy callback attributes) (highlights : List Highlight) :
    ∃ count, ∀ renderer, Grows renderer (renderer.addLineFeed callback highlights) count := by
  obtain ⟨count, hcount⟩ := foldl_endHighlight_grows highlights
  obtain ⟨count', hcount'⟩ := foldl_startHighlight_grows h highlights
  have hpush (renderer : HtmlRenderer) : Grows renderer renderer.pushLineFeed 1 :=
    ⟨by simp [pushLineFeed], rfl, rfl⟩
  exact ⟨_, fun renderer => ((hcount renderer).trans (hpush _)).trans (hcount' _)⟩

def carriageReturnLength (attributes : Highlight → List UInt8) : Option Highlight → Nat
  | none => 0
  | some highlight => 14 + (attributes highlight).length

variable {renderer : HtmlRenderer}

theorem addCarriageReturn_eq_some (h : AppendsBy callback attributes)
    {offset : Nat} (hoffset : offset ≤ renderer.html.length) :
    ∃ renderer', renderer.addCarriageReturn callback offset = some renderer' ∧
      Grows renderer renderer'
        (carriageReturnLength attributes renderer.carriageReturnHighlight) := by
  rw [addCarriageReturn]
  cases hhighlight : renderer.carriageReturnHighlight with
  | none => exact ⟨renderer, rfl, rfl, rfl, rfl⟩
  | some highlight =>
    dsimp only
    rw [if_pos hoffset]
    refine ⟨_, rfl, ?_, hhighlight.symm, rfl⟩
    simp [h highlight, spanOpen, spanClose, carriageReturnLength]
    omega

theorem addCarriageReturn_eq_none {offset : Nat} {highlight : Highlight}
    (hhighlight : renderer.carriageReturnHighlight = some highlight)
    (hoffset : ¬ offset ≤ renderer.html.length) :
    renderer.addCarriageReturn callback offset = none := by
  rw [addCarriageReturn, hhighlight]
  exact if_neg hoffset

end Appends

/-! ### Two renderers side by side -/

/-- A relation between renderers that `render` keeps up. -/
structure Kept (callback : AttributeCallback) (R : HtmlRenderer → HtmlRenderer → Prop) : Prop where
  start : ∀ {renderer renderer' : HtmlRenderer} (highlight : Highlight), R renderer renderer' →
    R (renderer.startHighlight callback highlight) (renderer'.startHighlight callback highlight)
  close : ∀ {renderer renderer' : HtmlRenderer}, R renderer renderer' →
    R renderer.endHighlight renderer'.endHighlight
  byte : ∀ {renderer renderer' : HtmlRenderer} (highlights : List Highlight) (byte : UInt8),
    R renderer renderer' → ∃ next next', renderer.addByte callback highlights byte = some next ∧
      renderer'.addByte callback highlights byte = some next' ∧ R next next'

variable {renderer renderer' : HtmlRenderer} {R : HtmlRenderer → HtmlRenderer → Prop}

theorem Kept.bytes (h : Kept callback R) (highlights : List Highlight) (bytes : List UInt8)
    (hR : R renderer renderer') :
    ∃ next next', bytes.foldlM (addByte callback highlights) renderer = some next ∧
      bytes.foldlM (addByte callback highlights) renderer' = some next' ∧ R next next' := by
  induction bytes generalizing renderer renderer' with
  | nil => exact ⟨_, _, rfl, rfl, hR⟩
  | cons byte bytes ih =>
    obtain ⟨next, next', hnext, hnext', hR⟩ := h.byte highlights byte hR
    obtain ⟨last, last', hlast, hlast', hR⟩ := ih hR
    refine ⟨last, last', ?_, ?_, hR⟩
    · rw [List.foldlM_cons, hnext]
      exact hlast
    · rw [List.foldlM_cons, hnext']
      exact hlast'

/-- What the loop of `render` leaves of two renderers side by side. -/
inductive BothRendered (R : HtmlRenderer → HtmlRenderer → Prop) (source : List UInt8)
    (events : List (Except Error HighlightEvent)) :
    Option (Except Error Unit × HtmlRenderer) → Option (Except Error Unit × HtmlRenderer) →
      Prop where
  | panic (h : ¬ WithinSource source events) : BothRendered R source events none none
  | stop {error : Error} {next next' : HtmlRenderer} (hwithin : WithinSource source events)
      (h : completes events = false) (hR : R next next') :
      BothRendered R source events (some (.error error, next)) (some (.error error, next'))
  | finish {next next' : HtmlRenderer} (hwithin : WithinSource source events)
      (h : completes events = true) (hR : R next next') :
      BothRendered R source events (some (.ok (), next)) (some (.ok (), next'))

theorem BothRendered.cons {source : List UInt8} {event : Except Error HighlightEvent}
    {events : List (Except Error HighlightEvent)}
    {rendered rendered' : Option (Except Error Unit × HtmlRenderer)}
    (h : BothRendered R source events rendered rendered')
    (hwithin : WithinSource source (event :: events) ↔ WithinSource source events)
    (hcompletes : completes (event :: events) = completes events) :
    BothRendered R source (event :: events) rendered rendered' := by
  cases h with
  | panic hout => exact .panic fun hin => hout (hwithin.mp hin)
  | stop hin herror hR => exact .stop (hwithin.mpr hin) (hcompletes.trans herror) hR
  | finish hin hok hR => exact .finish (hwithin.mpr hin) (hcompletes.trans hok) hR

theorem Kept.events (h : Kept callback R) (source : List UInt8)
    (events : List (Except Error HighlightEvent)) (highlights : List Highlight)
    (hR : R renderer renderer') :
    BothRendered R source events (renderEvents callback source events highlights renderer)
      (renderEvents callback source events highlights renderer') := by
  induction events generalizing highlights renderer renderer' with
  | nil => exact .finish trivial rfl hR
  | cons event events ih =>
    match event with
    | .error error => exact .stop trivial rfl hR
    | .ok (.highlightStart highlight mark) =>
      rw [renderEvents, renderEvents]
      exact (ih (highlights ++ [highlight]) (h.start highlight hR)).cons Iff.rfl rfl
    | .ok (.highlightEnd mark) =>
      rw [renderEvents, renderEvents]
      exact (ih highlights.dropLast (h.close hR)).cons Iff.rfl rfl
    | .ok (.source start stop) =>
      rw [renderEvents, renderEvents]
      by_cases hslice : start ≤ stop ∧ stop ≤ source.length
      · obtain ⟨next, next', hnext, hnext', hR⟩ := h.bytes highlights
          (LossyUtf8.lossyBytes ((source.take stop).drop start)) hR
        rw [if_pos hslice, if_pos hslice, addText, addText, hnext, hnext']
        exact (ih highlights hR).cons (and_iff_right hslice) rfl
      · rw [if_neg hslice, if_neg hslice]
        exact .panic fun hwithin => hslice hwithin.1

/-! ### Nothing marks carriage returns -/

theorem addLineFeed_unmarked (highlights : List Highlight)
    (h : renderer.carriageReturnHighlight = none) :
    (renderer.addLineFeed callback highlights).carriageReturnHighlight = none := by
  have hfold : ∀ (highlights : List Highlight) (renderer : HtmlRenderer),
      (highlights.foldl (startHighlight callback) renderer).carriageReturnHighlight =
        renderer.carriageReturnHighlight := by
    intro highlights
    induction highlights with
    | nil => exact fun _ => rfl
    | cons highlight highlights ih => exact fun renderer => ih _
  have hfold' : ∀ (highlights : List Highlight) (renderer : HtmlRenderer),
      (highlights.foldl (fun renderer _ => renderer.endHighlight)
        renderer).carriageReturnHighlight = renderer.carriageReturnHighlight := by
    intro highlights
    induction highlights with
    | nil => exact fun _ => rfl
    | cons highlight highlights ih => exact fun renderer => ih _
  rw [addLineFeed, hfold]
  exact (hfold' highlights renderer).trans h

theorem markCarriageReturn_unmarked (h : renderer.carriageReturnHighlight = none) :
    renderer.markCarriageReturn callback = some (renderer.remember none) := by
  rw [markCarriageReturn]
  split
  · simp [addCarriageReturn, h, remember]
  next hnone => rw [remember, ← hnone]

/-- The renderers differ in what they remember, and nothing marks carriage returns. -/
def SameButRemembered (renderer renderer' : HtmlRenderer) : Prop :=
  renderer.carriageReturnHighlight = none ∧ ∃ offset, renderer' = renderer.remember offset

theorem kept_sameButRemembered : Kept callback SameButRemembered where
  start highlight h := by
    obtain ⟨hnone, offset, rfl⟩ := h
    exact ⟨hnone, offset, rfl⟩
  close h := by
    obtain ⟨hnone, offset, rfl⟩ := h
    exact ⟨hnone, offset, rfl⟩
  byte {renderer renderer'} highlights byte h := by
    obtain ⟨hnone, offset, rfl⟩ := h
    rw [addByte, addByte]
    split
    · exact ⟨_, _, rfl, rfl, hnone, some renderer.html.length, rfl⟩
    · split
      · exact ⟨_, _, rfl, rfl, addLineFeed_unmarked highlights hnone, none,
          addLineFeed_remember highlights (renderer.remember none) none⟩
      · have hnone' : (renderer.remember offset).carriageReturnHighlight = none := hnone
        rw [markCarriageReturn_unmarked hnone, markCarriageReturn_unmarked hnone']
        exact ⟨_, _, rfl, rfl, hnone, none, rfl⟩

theorem render_unmarked (events : List (Except Error HighlightEvent)) (source : List UInt8)
    (h : SameButRemembered renderer renderer') :
    output (renderer'.render callback events source) =
      output (renderer.render callback events source) := by
  have hevents := (@kept_sameButRemembered callback).events source events [] h
  rw [render, render]
  generalize renderEvents callback source events [] renderer = rendered at hevents ⊢
  generalize renderEvents callback source events [] renderer' = rendered' at hevents ⊢
  cases hevents with
  | panic => rfl
  | stop _ _ hsame =>
    obtain ⟨-, offset, rfl⟩ := hsame
    rfl
  | @finish next next' _ _ hsame =>
    obtain ⟨hnone, offset, rfl⟩ := hsame
    have hnone' : (next.remember offset).carriageReturnHighlight = none := hnone
    simp only [bind_eq_bind, bind_some, finish,
      markCarriageReturn_unmarked hnone, markCarriageReturn_unmarked hnone']
    rfl

/-! ### One renderer is ahead of the other -/

/-- The second renderer has written some more bytes, and what it remembers is as far behind. The
first one remembers a part of what it has written. -/
structure Shifted (count : Nat) (renderer renderer' : HtmlRenderer) : Prop where
  length : renderer'.html.length = renderer.html.length + count
  highlight : renderer'.carriageReturnHighlight = renderer.carriageReturnHighlight
  remembered : renderer'.lastCarriageReturn = renderer.lastCarriageReturn.map (· + count)
  within : ∀ offset ∈ renderer.lastCarriageReturn, offset ≤ renderer.html.length

theorem Shifted.grow {added : Nat} {next next' : HtmlRenderer}
    (h : Shifted count renderer renderer') (hgrows : Grows renderer next added)
    (hgrows' : Grows renderer' next' added) : Shifted count next next' where
  length := by
    rw [hgrows'.length, hgrows.length, h.length]
    omega
  highlight := by rw [hgrows'.highlight, hgrows.highlight, h.highlight]
  remembered := by rw [hgrows'.remembered, hgrows.remembered, h.remembered]
  within offset hoffset := by
    rw [hgrows.remembered] at hoffset
    rw [hgrows.length]
    exact Nat.le_add_right_of_le (h.within offset hoffset)

theorem Shifted.forget (h : Shifted count renderer renderer') :
    Shifted count (renderer.remember none) (renderer'.remember none) :=
  ⟨h.length, h.highlight, rfl, fun _ hoffset => nomatch hoffset⟩

section Appends

variable {attributes : Highlight → List UInt8}
variable {renderer renderer' : HtmlRenderer}

theorem Shifted.mark (happends : AppendsBy callback attributes) {count : Nat}
    (h : Shifted count renderer renderer') :
    ∃ next next' added, renderer.markCarriageReturn callback = some next ∧
      renderer'.markCarriageReturn callback = some next' ∧
        Grows (renderer.remember none) next added ∧
          Grows (renderer'.remember none) next' added := by
  have hremembered := h.remembered
  cases hlast : renderer.lastCarriageReturn with
  | none =>
    rw [hlast] at hremembered
    refine ⟨renderer, renderer', 0, ?_, ?_, ⟨rfl, rfl, hlast⟩, ⟨rfl, rfl, hremembered⟩⟩
    · rw [markCarriageReturn, hlast]
    · rw [markCarriageReturn, hremembered]
      rfl
  | some offset =>
    rw [hlast] at hremembered
    have hoffset : offset ≤ (renderer.remember none).html.length := h.within offset hlast
    have hoffset' : offset + count ≤ (renderer'.remember none).html.length := by
      have hlength := h.length
      simp only [remember] at hoffset ⊢
      omega
    obtain ⟨next, hnext, hgrows⟩ := addCarriageReturn_eq_some happends hoffset
    obtain ⟨next', hnext', hgrows'⟩ := addCarriageReturn_eq_some happends hoffset'
    have hhighlight : (renderer'.remember none).carriageReturnHighlight =
        (renderer.remember none).carriageReturnHighlight := h.highlight
    rw [hhighlight] at hgrows'
    refine ⟨next, next', _, ?_, ?_, hgrows, hgrows'⟩
    · rw [markCarriageReturn, hlast]
      exact hnext
    · rw [markCarriageReturn, hremembered]
      exact hnext'

theorem append_grows (renderer : HtmlRenderer) (bytes : List UInt8) :
    Grows renderer { renderer with html := renderer.html ++ bytes } bytes.length :=
  ⟨List.length_append, rfl, rfl⟩

theorem kept_shifted (happends : AppendsBy callback attributes) (count : Nat) :
    Kept callback (Shifted count) where
  start highlight h :=
    h.grow (startHighlight_grows happends _ highlight) (startHighlight_grows happends _ highlight)
  close h := h.grow (endHighlight_grows _) (endHighlight_grows _)
  byte {renderer renderer'} highlights byte h := by
    rw [addByte, addByte]
    split
    · refine ⟨_, _, rfl, rfl, h.length, h.highlight, ?_, ?_⟩
      · exact congrArg some h.length
      · rintro offset ⟨⟩
        exact Nat.le_refl _
    · split
      · obtain ⟨added, hadded⟩ := addLineFeed_grows happends highlights
        exact ⟨_, _, rfl, rfl, h.forget.grow (hadded _) (hadded _)⟩
      · obtain ⟨next, next', added, hnext, hnext', hgrows, hgrows'⟩ := h.mark happends
        rw [hnext, hnext']
        exact ⟨_, _, rfl, rfl, (h.forget.grow hgrows hgrows').grow (append_grows next _)
          (append_grows next' _)⟩

theorem closeLastLine_length (renderer : HtmlRenderer) :
    renderer.html.length ≤ renderer.closeLastLine.html.length ∧
      renderer.closeLastLine.html.length ≤ renderer.html.length + 1 := by
  rw [closeLastLine]
  dsimp only
  split
  · simp
  · exact ⟨Nat.le_refl _, Nat.le_succ _⟩

/-- A renderer that is more than one byte ahead ends with other HTML. -/
theorem Shifted.finish_ne (happends : AppendsBy callback attributes) {count : Nat}
    (hcount : 1 < count)
    (h : Shifted count renderer renderer') :
    ∃ last last', renderer.finish callback = some last ∧ renderer'.finish callback = some last' ∧
      last'.html ≠ last.html := by
  obtain ⟨next, next', added, hnext, hnext', hgrows, hgrows'⟩ := h.mark happends
  refine ⟨next.closeLastLine, next'.closeLastLine, ?_, ?_, ?_⟩
  · rw [finish, hnext]
    rfl
  · rw [finish, hnext']
    rfl
  · intro heq
    have hlength : next'.closeLastLine.html.length = next.closeLastLine.html.length :=
      congrArg List.length heq
    have hahead := (h.forget.grow hgrows hgrows').length
    have hclose := closeLastLine_length next
    have hclose' := closeLastLine_length next'
    omega

/-! ### A carriage return of an earlier call -/

/-- What the loop of `render` leaves of a renderer that remembers nothing, and of the same one that
remembers a carriage return of an earlier call. -/
inductive StaleRendered (source : List UInt8) (events : List (Except Error HighlightEvent)) :
    Option (Except Error Unit × HtmlRenderer) → Option (Except Error Unit × HtmlRenderer) →
      Prop where
  /-- Both panic. -/
  | outside (h : ¬ WithinSource source events) : StaleRendered source events none none
  /-- The text begins with a carriage return or a line feed, and what is remembered is forgotten. -/
  | forgotten {byte : UInt8} {rendered : Option (Except Error Unit × HtmlRenderer)}
      (hbyte : byte = carriageReturn ∨ byte = lineFeed)
      (hhead : (eventsText source events).head? = some byte) :
      StaleRendered source events rendered rendered
  /-- The text begins with another character, and a tag is inserted in front of it. -/
  | marked {byte : UInt8} {count : Nat}
      {rendered rendered' : Option (Except Error Unit × HtmlRenderer)}
      (hbyte : ¬ (byte = carriageReturn ∨ byte = lineFeed))
      (hhead : (eventsText source events).head? = some byte) (hcount : 1 < count)
      (hrendered : BothRendered (Shifted count) source events rendered rendered') :
      StaleRendered source events rendered rendered'
  /-- The text begins with another character, and there is no place for a tag. -/
  | panicked {byte : UInt8} {rendered : Option (Except Error Unit × HtmlRenderer)}
      (hbyte : ¬ (byte = carriageReturn ∨ byte = lineFeed))
      (hhead : (eventsText source events).head? = some byte)
      (hrendered : BothRendered (Shifted 0) source events rendered rendered) :
      StaleRendered source events rendered none
  /-- There is no text. -/
  | kept {offset : Nat} {rendered rendered' : Option (Except Error Unit × HtmlRenderer)}
      (hhead : (eventsText source events).head? = none)
      (hrendered : BothRendered (fun renderer renderer' => renderer.lastCarriageReturn = none ∧
          renderer.carriageReturnHighlight.isSome ∧ renderer' = renderer.remember (some offset))
        source events rendered rendered') :
      StaleRendered source events rendered rendered'

variable {events : List (Except Error HighlightEvent)} {source : List UInt8}

theorem StaleRendered.cons {event : Except Error HighlightEvent}
    {rendered rendered' : Option (Except Error Unit × HtmlRenderer)}
    (h : StaleRendered source events rendered rendered')
    (htext : eventsText source (event :: events) = eventsText source events)
    (hwithin : WithinSource source (event :: events) ↔ WithinSource source events)
    (hcompletes : completes (event :: events) = completes events) :
    StaleRendered source (event :: events) rendered rendered' := by
  have hheads := congrArg List.head? htext
  cases h with
  | outside hout => exact .outside fun hin => hout (hwithin.mp hin)
  | forgotten hbyte hhead => exact .forgotten hbyte (hheads.trans hhead)
  | marked hbyte hhead hcount hrendered =>
    exact .marked hbyte (hheads.trans hhead) hcount (hrendered.cons hwithin hcompletes)
  | panicked hbyte hhead hrendered =>
    exact .panicked hbyte (hheads.trans hhead) (hrendered.cons hwithin hcompletes)
  | kept hhead hrendered => exact .kept (hheads.trans hhead) (hrendered.cons hwithin hcompletes)

variable {highlight : Highlight}

theorem markCarriageReturn_none (h : renderer.lastCarriageReturn = none) :
    renderer.markCarriageReturn callback = some renderer := by
  rw [markCarriageReturn, h]

theorem markCarriageReturn_remember (offset : Nat) (h : renderer.lastCarriageReturn = none) :
    (renderer.remember (some offset)).markCarriageReturn callback =
      renderer.addCarriageReturn callback offset := by
  rw [markCarriageReturn]
  simp only [remember]
  rw [← h]

section

variable (happends : AppendsBy callback attributes)

include happends

/-- The first character of the text, when a carriage return of an earlier call is remembered. -/
theorem addByte_stale (highlights : List Highlight)
    {renderer : HtmlRenderer} (offset : Nat) (byte : UInt8)
    (hnone : renderer.lastCarriageReturn = none)
    (hhighlight : renderer.carriageReturnHighlight = some highlight) :
    if byte = carriageReturn ∨ byte = lineFeed then
      (renderer.remember (some offset)).addByte callback highlights byte =
        renderer.addByte callback highlights byte
    else
      ∃ next, renderer.addByte callback highlights byte = some next ∧ Shifted 0 next next ∧
        ((renderer.remember (some offset)).addByte callback highlights byte = none ∨
          ∃ next' count, 1 < count ∧ Shifted count next next' ∧
            (renderer.remember (some offset)).addByte callback highlights byte = some next') := by
  split
  next hbyte =>
    rw [addByte, addByte]
    split
    next => rfl
    next hreturn =>
      rw [if_pos (hbyte.resolve_left hreturn), if_pos (hbyte.resolve_left hreturn)]
      rfl
  next hbyte =>
    obtain ⟨hreturn, hfeed⟩ := not_or.mp hbyte
    have hself : Shifted 0 renderer renderer :=
      ⟨rfl, rfl, by rw [hnone]; rfl, by simp [hnone]⟩
    rw [addByte, addByte, if_neg hreturn, if_neg hfeed, if_neg hreturn, if_neg hfeed,
      markCarriageReturn_none hnone]
    refine ⟨_, rfl, hself.grow (append_grows renderer _) (append_grows renderer _), ?_⟩
    rw [markCarriageReturn_remember offset hnone]
    by_cases hoffset : offset ≤ renderer.html.length
    · obtain ⟨next, hnext, hgrows⟩ := addCarriageReturn_eq_some happends hoffset
      rw [hnext]
      rw [hhighlight] at hgrows
      refine .inr ⟨_, carriageReturnLength attributes (some highlight), ?_, ?_, rfl⟩
      · rw [carriageReturnLength]
        omega
      · have hshifted : Shifted (carriageReturnLength attributes (some highlight)) renderer next :=
          ⟨hgrows.length, hgrows.highlight, by rw [hgrows.remembered, hnone]; rfl, by simp [hnone]⟩
        exact hshifted.grow (append_grows renderer _) (append_grows next _)
    · rw [addCarriageReturn_eq_none hhighlight hoffset]
      exact .inl rfl

theorem renderEvents_stale (source : List UInt8)
    (events : List (Except Error HighlightEvent)) (highlights : List Highlight)
    {renderer : HtmlRenderer} (offset : Nat) (hnone : renderer.lastCarriageReturn = none)
    (hhighlight : renderer.carriageReturnHighlight = some highlight) :
    StaleRendered source events (renderEvents callback source events highlights renderer)
      (renderEvents callback source events highlights (renderer.remember (some offset))) := by
  have hsome : renderer.carriageReturnHighlight.isSome := by rw [hhighlight]; rfl
  induction events generalizing highlights renderer with
  | nil => exact .kept rfl (.finish trivial rfl ⟨hnone, hsome, rfl⟩)
  | cons event events ih =>
    match event with
    | .error error => exact .kept rfl (.stop trivial rfl ⟨hnone, hsome, rfl⟩)
    | .ok (.highlightStart started mark) =>
      rw [renderEvents, renderEvents, startHighlight_remember]
      have hgrows := startHighlight_grows happends renderer started
      exact (ih (highlights ++ [started]) (hgrows.remembered.trans hnone)
        (hgrows.highlight.trans hhighlight) hsome).cons rfl Iff.rfl rfl
    | .ok (.highlightEnd mark) =>
      rw [renderEvents, renderEvents, endHighlight_remember]
      have hrest := @ih highlights.dropLast renderer.endHighlight hnone hhighlight hsome
      exact hrest.cons rfl Iff.rfl rfl
    | .ok (.source start stop) =>
      rw [renderEvents, renderEvents]
      by_cases hslice : start ≤ stop ∧ stop ≤ source.length
      · rw [if_pos hslice, if_pos hslice, addText, addText]
        have htext : eventsText source (.ok (.source start stop) :: events) =
            LossyUtf8.lossyBytes ((source.take stop).drop start) ++ eventsText source events :=
          rfl
        have hwithin : WithinSource source (.ok (.source start stop) :: events) ↔
            WithinSource source events := and_iff_right hslice
        cases hbytes : LossyUtf8.lossyBytes ((source.take stop).drop start) with
        | nil =>
          rw [hbytes] at htext
          exact (ih highlights hnone hhighlight hsome).cons htext hwithin rfl
        | cons byte bytes =>
          rw [hbytes] at htext
          have hhead : (eventsText source (.ok (.source start stop) :: events)).head? =
              some byte := congrArg List.head? htext
          have hstale := addByte_stale happends highlights offset byte hnone hhighlight
          rw [List.foldlM_cons, List.foldlM_cons]
          split at hstale
          next hbyte =>
            rw [hstale]
            exact .forgotten hbyte hhead
          next hbyte =>
            obtain ⟨next, hnext, hself, hnext' | ⟨next', count, hcount, hahead, hnext'⟩⟩ :=
              hstale
            · obtain ⟨last, _, hlast, hlast', hself⟩ :=
                (kept_shifted happends 0).bytes highlights bytes hself
              cases hlast.symm.trans hlast'
              simp only [hnext, hnext', bind_eq_bind, bind_some, bind_none, hlast]
              exact .panicked hbyte hhead
                (((kept_shifted happends 0).events source events highlights hself).cons hwithin rfl)
            · obtain ⟨last, last', hlast, hlast', hahead⟩ :=
                (kept_shifted happends count).bytes highlights bytes hahead
              simp only [hnext, hnext', bind_eq_bind, bind_some, hlast, hlast']
              exact .marked hbyte hhead hcount
                (((kept_shifted happends count).events source events highlights hahead).cons
                  hwithin rfl)
      · rw [if_neg hslice, if_neg hslice]
        exact .outside fun hwithin => hslice hwithin.1

omit happends in
theorem render_eq (renderer : HtmlRenderer) (events : List (Except Error HighlightEvent))
    (source : List UInt8) :
    renderer.render callback events source =
      match renderEvents callback source events [] renderer with
      | none => none
      | some (.error error, renderer) => some (.error error, renderer)
      | some (.ok (), renderer) =>
        (renderer.finish callback).map fun renderer => (.ok (), renderer) := by
  rw [render]
  rcases renderEvents callback source events [] renderer with - | ⟨- | -, last⟩ <;> rfl

/-- A renderer that is more than one byte ahead does not do the same, if there is no panic. -/
theorem BothRendered.output_ne {count : Nat}
    (hcount : 1 < count) {renderer renderer' : HtmlRenderer}
    (hwithin : WithinSource source events) (h : BothRendered (Shifted count) source events
      (renderEvents callback source events [] renderer) (renderEvents callback source events []
      renderer')) :
    output (renderer'.render callback events source) ≠
      output (renderer.render callback events source) := by
  rw [render_eq, render_eq]
  generalize renderEvents callback source events [] renderer = rendered at h ⊢
  generalize renderEvents callback source events [] renderer' = rendered' at h ⊢
  cases h with
  | panic hout => exact absurd hwithin hout
  | @stop error next next' _ _ hahead =>
    intro heq
    have hhtml : next'.html = next.html := by
      simp only [output, map_some, Option.some.injEq, Prod.mk.injEq] at heq
      exact heq.2.1
    have hlength := hahead.length
    rw [hhtml] at hlength
    omega
  | @finish next next' _ _ hahead =>
    obtain ⟨last, last', hlast, hlast', hne⟩ := hahead.finish_ne happends hcount
    intro heq
    simp only [hlast, hlast', output, map_some, Option.some.injEq, Prod.mk.injEq] at heq
    exact hne heq.2.1

omit happends in
theorem BothRendered.output_eq_none {R : HtmlRenderer → HtmlRenderer → Prop}
    {renderer : HtmlRenderer} {rendered' : Option (Except Error Unit × HtmlRenderer)}
    (hout : ¬ WithinSource source events)
    (h : BothRendered R source events (renderEvents callback source events [] renderer) rendered') :
    output (renderer.render callback events source) = none ∧ rendered' = none := by
  rw [render_eq]
  generalize renderEvents callback source events [] renderer = rendered at h
  cases h with
  | panic => exact ⟨rfl, rfl⟩
  | stop hin | finish hin => exact absurd hin hout

theorem finish_stale_ne {renderer : HtmlRenderer}
    (offset : Nat) (hnone : renderer.lastCarriageReturn = none)
    (hhighlight : renderer.carriageReturnHighlight = some highlight) :
    ((renderer.remember (some offset)).finish callback).map html ≠
      (renderer.finish callback).map html := by
  rw [finish, finish, markCarriageReturn_none hnone, markCarriageReturn_remember offset hnone]
  by_cases hoffset : offset ≤ renderer.html.length
  · obtain ⟨next, hnext, hgrows⟩ := addCarriageReturn_eq_some happends hoffset
    rw [hnext]
    intro heq
    have hlength : next.closeLastLine.html.length = renderer.closeLastLine.html.length :=
      congrArg List.length (Option.some.inj heq)
    have hahead := hgrows.length
    rw [hhighlight, carriageReturnLength] at hahead
    have hclose := closeLastLine_length next
    have hclose' := closeLastLine_length renderer
    omega
  · rw [addCarriageReturn_eq_none hhighlight hoffset]
    exact fun heq => nomatch heq

/-- Within the source, a renderer that is not ahead of itself does not panic. -/
theorem BothRendered.output_isSome
    {renderer : HtmlRenderer} (hwithin : WithinSource source events) (h : BothRendered (Shifted 0)
      source events (renderEvents callback source events [] renderer) (renderEvents callback
      source events [] renderer)) :
    (output (renderer.render callback events source)).isSome := by
  rw [render_eq]
  generalize renderEvents callback source events [] renderer = rendered at h
  cases h with
  | panic hout => exact absurd hwithin hout
  | stop => rfl
  | finish _ _ hself =>
    obtain ⟨next, _, _, hnext, -⟩ := hself.mark happends
    simp [HtmlRenderer.finish, hnext, output]

theorem render_stale_iff
    (events : List (Except Error HighlightEvent)) (source : List UInt8) {renderer : HtmlRenderer}
    (offset : Nat) (hnone : renderer.lastCarriageReturn = none)
    (hmarks : renderer.carriageReturnHighlight ≠ none) :
    output ((renderer.remember (some offset)).render callback events source) =
        output (renderer.render callback events source) ↔
      Harmless renderer.carriageReturnHighlight events source := by
  obtain ⟨highlight, hhighlight⟩ := ne_none_iff_exists'.mp hmarks
  have hstale := renderEvents_stale happends source events [] offset hnone hhighlight
  rw [Harmless, or_iff_right hmarks]
  generalize hrendered : renderEvents callback source events [] renderer = rendered at hstale
  generalize hrendered' : renderEvents callback source events [] (renderer.remember (some offset)) =
    rendered' at hstale
  cases hstale with
  | outside hout =>
    rw [render_eq, render_eq, hrendered, hrendered']
    exact iff_of_true rfl (.inl hout)
  | forgotten hbyte hhead =>
    rw [render_eq, render_eq, hrendered, hrendered', hhead]
    exact iff_of_true rfl (.inr hbyte)
  | marked hbyte hhead hcount hboth =>
    rw [← hrendered, ← hrendered'] at hboth
    rw [hhead]
    by_cases hwithin : WithinSource source events
    · exact iff_of_false (hboth.output_ne happends hcount hwithin)
        fun hharmless => hharmless.elim (absurd hwithin) hbyte
    · obtain ⟨hout, hout'⟩ := hboth.output_eq_none hwithin
      rw [hout, render_eq, hout']
      exact iff_of_true rfl (.inl hwithin)
  | panicked hbyte hhead hboth =>
    have hout' : output ((renderer.remember (some offset)).render callback events source) =
        none := by
      rw [render_eq, hrendered']
      rfl
    nth_rewrite 1 [← hrendered] at hboth
    rw [hhead, hout']
    by_cases hwithin : WithinSource source events
    · rw [← hrendered] at hboth
      have hsome := hboth.output_isSome happends hwithin
      refine iff_of_false (fun heq => ?_) fun hharmless => hharmless.elim (absurd hwithin) hbyte
      rw [← heq] at hsome
      exact nomatch hsome
    · rw [(hboth.output_eq_none hwithin).1]
      exact iff_of_true rfl (.inl hwithin)
  | @kept offset _ _ hhead hboth =>
    rw [hhead, render_eq, render_eq, hrendered, hrendered']
    cases hboth with
    | panic hout => exact iff_of_true rfl (.inl hout)
    | stop _ herror hstale =>
      obtain ⟨-, -, rfl⟩ := hstale
      exact iff_of_true rfl (.inr herror)
    | @finish next next' hwithin hok hstale =>
      obtain ⟨hnone, hsome, rfl⟩ := hstale
      obtain ⟨highlight, hhighlight⟩ := isSome_iff_exists.mp hsome
      have hne := finish_stale_ne happends offset hnone hhighlight
      refine iff_of_false (fun heq => hne ?_) fun hharmless =>
        hharmless.elim (absurd hwithin) fun hfalse => Bool.noConfusion (hok.symm.trans hfalse)
      have hhtml := congrArg (Option.map fun output => output.2.1) heq
      rw [output, output, map_map, map_map, map_map, map_map] at hhtml
      exact hhtml

end

end Appends

/-! ### What a call remembers -/

theorem addLineFeed_remembered (highlights : List Highlight) (renderer : HtmlRenderer) :
    (renderer.addLineFeed callback highlights).lastCarriageReturn =
      renderer.lastCarriageReturn := by
  have hself : renderer.remember renderer.lastCarriageReturn = renderer := rfl
  rw [← hself, addLineFeed_remember]
  rfl

theorem markCarriageReturn_remembered (h : renderer.markCarriageReturn callback = some renderer') :
    renderer'.lastCarriageReturn = none := by
  rw [markCarriageReturn] at h
  split at h
  next =>
    rw [addCarriageReturn] at h
    split at h
    next =>
      cases h
      rfl
    next =>
      split at h <;> cases h
      rfl
  next hnone =>
    cases h
    exact hnone

variable {highlights : List Highlight}

theorem addByte_remembers {byte : UInt8}
    (h : renderer.addByte callback highlights byte = some renderer') :
    renderer'.lastCarriageReturn.isSome = (byte == carriageReturn) := by
  rw [addByte] at h
  split at h
  next hbyte =>
    cases h
    rw [hbyte]
    rfl
  next hbyte =>
    rw [beq_eq_false_iff_ne.mpr hbyte]
    split at h
    next =>
      cases h
      rw [addLineFeed_remembered]
      rfl
    next =>
      obtain ⟨next, hnext, rfl⟩ := map_eq_some_iff.mp h
      exact congrArg Option.isSome (markCarriageReturn_remembered hnext)

/-- Whether text leaves a carriage return behind. -/
def endsInCarriageReturn (left : Bool) (bytes : List UInt8) : Bool :=
  (bytes.getLast?.map (· == carriageReturn)).getD left

theorem endsInCarriageReturn_append (left : Bool) (bytes bytes' : List UInt8) :
    endsInCarriageReturn left (bytes ++ bytes') =
      endsInCarriageReturn (endsInCarriageReturn left bytes) bytes' := by
  rw [endsInCarriageReturn, List.getLast?_append]
  cases h : bytes'.getLast? with
  | none | some byte => simp [endsInCarriageReturn, h]

theorem foldlM_addByte_remembers (bytes : List UInt8)
    (h : bytes.foldlM (addByte callback highlights) renderer = some renderer') :
    renderer'.lastCarriageReturn.isSome =
      endsInCarriageReturn renderer.lastCarriageReturn.isSome bytes := by
  induction bytes generalizing renderer with
  | nil =>
    cases h
    rfl
  | cons byte bytes ih =>
    obtain ⟨next, hnext, hrest⟩ := bind_eq_some_iff.mp h
    rw [ih hrest, addByte_remembers hnext, ← List.singleton_append,
      endsInCarriageReturn_append]
    rfl

theorem renderEvents_remembers (source : List UInt8) (events : List (Except Error HighlightEvent))
    {result : Except Error Unit}
    (h : renderEvents callback source events highlights renderer = some (result, renderer')) :
    result.isOk = completes events ∧ renderer'.lastCarriageReturn.isSome =
      endsInCarriageReturn renderer.lastCarriageReturn.isSome (eventsText source events) := by
  induction events generalizing highlights renderer with
  | nil =>
    cases h
    exact ⟨rfl, rfl⟩
  | cons event events ih =>
    match event with
    | .error error =>
      cases h
      exact ⟨rfl, rfl⟩
    | .ok (.highlightStart highlight mark) | .ok (.highlightEnd mark) =>
      rw [renderEvents] at h
      have hrest := ih h
      exact hrest
    | .ok (.source start stop) =>
      rw [renderEvents] at h
      split at h
      next hslice =>
        split at h
        next next hnext =>
          obtain ⟨hresult, hrest⟩ := ih h
          refine ⟨hresult, ?_⟩
          rw [hrest, foldlM_addByte_remembers _ hnext, eventsText,
            endsInCarriageReturn_append]
          rfl
        next => cases h
      next => cases h

theorem call_remembers {events : List (Except Error HighlightEvent)} {source : List UInt8}
    (h : renderer.call callback (.render events source) = some renderer') :
    renderer'.lastCarriageReturn.isSome =
      if completes events then false
      else endsInCarriageReturn renderer.lastCarriageReturn.isSome (eventsText source events) := by
  obtain ⟨⟨result, last⟩, hrender, rfl⟩ := map_eq_some_iff.mp h
  rw [render_eq] at hrender
  split at hrender
  next => cases hrender
  next hevents =>
    cases hrender
    obtain ⟨hresult, hremembers⟩ := renderEvents_remembers source events hevents
    rw [← hresult]
    exact hremembers
  next hevents =>
    obtain ⟨hresult, -⟩ := renderEvents_remembers source events hevents
    obtain ⟨last', hfinish, hlast⟩ := map_eq_some_iff.mp hrender
    cases hlast
    obtain ⟨next, hnext, rfl⟩ := map_eq_some_iff.mp hfinish
    rw [← hresult]
    exact congrArg Option.isSome (markCarriageReturn_remembered hnext)

theorem foldlM_call_remembers (calls : List Call)
    (h : calls.foldlM (call callback) renderer = some renderer') :
    renderer'.lastCarriageReturn.isSome =
      leavesCarriageReturn renderer.lastCarriageReturn.isSome calls := by
  induction calls generalizing renderer with
  | nil =>
    cases h
    rfl
  | cons first calls ih =>
    obtain ⟨next, hnext, hrest⟩ := bind_eq_some_iff.mp h
    rw [ih hrest]
    match first with
    | .setCarriageReturnHighlight highlight | .reset =>
      cases hnext
      rfl
    | .render events source =>
      rw [call_remembers hnext]
      rfl

/-- After any calls, `reset` leaves a renderer that does in the next call what a new one does, if
and only if the calls leave no carriage return behind or it does not matter in that call. -/
theorem reset_render_iff {attributes : Highlight → List UInt8}
    (happends : AppendsBy callback attributes) {calls : List Call} {renderer : HtmlRenderer}
    (hcalls : afterCalls callback calls = some renderer)
    (events : List (Except Error HighlightEvent)) (source : List UInt8) :
    renderer.ResetLikeNew callback events source ↔
      leavesCarriageReturn false calls = false ∨
        Harmless renderer.carriageReturnHighlight events source := by
  have hleaves : renderer.lastCarriageReturn.isSome = leavesCarriageReturn false calls :=
    foldlM_call_remembers calls hcalls
  rw [ResetLikeNew, reset_eq, ← hleaves]
  cases hlast : renderer.lastCarriageReturn with
  | none => exact iff_of_true rfl (.inl rfl)
  | some offset =>
    rw [or_iff_right Bool.noConfusion]
    by_cases hmarks : renderer.carriageReturnHighlight = none
    · exact iff_of_true (render_unmarked events source ⟨hmarks, some offset, rfl⟩) (.inl hmarks)
    · exact render_stale_iff happends events source offset rfl hmarks

def stopAfterCarriageReturn : List Call :=
  [.setCarriageReturnHighlight (some ⟨0⟩),
    .render [.ok (.source 0 3), .error .cancelled] [97, 98, carriageReturn]]

theorem reset_render_carriageReturn :
    afterCalls (fun _ html => html) stopAfterCarriageReturn =
        some ⟨[97, 98], [0], some ⟨0⟩, some 2⟩ ∧
      (ResetLikeNew (fun _ html => html) ⟨[97, 98], [0], some ⟨0⟩, some 2⟩
          [.ok (.source 0 1)] [lineFeed] ↔
        leavesCarriageReturn false stopAfterCarriageReturn = false ∨
          Harmless (some ⟨0⟩) [.ok (.source 0 1)] [lineFeed]) := by
  have hcalls : afterCalls (fun _ html => html) stopAfterCarriageReturn =
      some ⟨[97, 98], [0], some ⟨0⟩, some 2⟩ := by decide
  have happends : AppendsBy (fun _ html => html) (fun _ => []) := fun _ html => html.append_nil.symm
  exact ⟨hcalls, reset_render_iff happends hcalls [.ok (.source 0 1)] [lineFeed]⟩

/-- After a call that stops behind a carriage return, the next call panics on a short text. -/
theorem exists_not_resetLikeNew :
    ¬ ∀ (callback : AttributeCallback) (calls : List Call) (renderer : HtmlRenderer)
        (events : List (Except Error HighlightEvent)) (source : List UInt8),
      afterCalls callback calls = some renderer →
        renderer.ResetLikeNew callback events source := by
  intro h
  have hlike := h (fun _ html => html) stopAfterCarriageReturn ⟨[97, 98], [0], some ⟨0⟩, some 2⟩
    [.ok (.source 0 1)] [97] (by decide)
  rw [ResetLikeNew] at hlike
  exact absurd hlike (by decide)

end HtmlRenderer

end TreeSitter.Highlighter
