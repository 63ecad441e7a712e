import TreeSitter.Highlight.Iter

/-!
# TreeSitter.Highlight.Turns

What **one turn** of the highlight iterator can do (`Turned`), and its **runs** (`Run`).

A turn passes on the event that waits, or fails, or finishes the document, or it works on the
first layer: a pending highlight ends, or captures are taken from the layer's stream, after which
new layers may have been added and a highlight may start. The rest of a layer is unchanged while
its captures are taken (`Advances`).
-/

namespace TreeSitter.Highlighter

open Option Library

variable {σ ω : Type} {env : Env σ ω}

/-- From the stream `s`, taking captures and removing matches leads to a stream. -/
inductive Reaches (env : Env σ ω) (s : σ) : σ → Prop where
  | refl : Reaches env s s
  | next {s' s'' : σ} {captured : CapturedMatch} (h : Reaches env s s')
      (hnext : env.nextCapture s' = some (captured, s'')) : Reaches env s s''
  | remove {s' : σ} (id : Nat) (h : Reaches env s s') : Reaches env s (env.removeMatch s' id)

theorem Reaches.trans {s s' s'' : σ} (h : Reaches env s s') (h' : Reaches env s' s'') :
    Reaches env s s'' := by
  induction h' with
  | refl => exact h
  | next _ hnext ih => exact ih.next hnext
  | remove id _ ih => exact ih.remove id

/-- The layer `l'` is `l` with captures taken from its stream. -/
structure HighlightIterLayer.Advances (env : Env σ ω) (l l' : HighlightIterLayer σ) : Prop where
  captures : Reaches env l.captures l'.captures
  highlightEndStack : l'.highlightEndStack = l.highlightEndStack
  depth : l'.depth = l.depth
  addedAt : l'.addedAt = l.addedAt

theorem HighlightIterLayer.Advances.refl (l : HighlightIterLayer σ) : l.Advances env l :=
  ⟨.refl, rfl, rfl, rfl⟩

theorem HighlightIterLayer.Advances.trans {l l' l'' : HighlightIterLayer σ}
    (h : l.Advances env l') (h' : l'.Advances env l'') : l.Advances env l'' :=
  ⟨h.captures.trans h'.captures, h'.highlightEndStack.trans h.highlightEndStack,
    h'.depth.trans h.depth, h'.addedAt.trans h.addedAt⟩

/-- A stream of captures that the parser has made. -/
def Env.Makes (env : Env σ ω) (captures : σ) : Prop :=
  ∃ config ranges world injections world',
    env.parse config ranges world = (.tree injections captures, world')

/-- A layer that has just been made. -/
structure HighlightIterLayer.Made (env : Env σ ω) (addedAt : Nat) (l : HighlightIterLayer σ) :
    Prop where
  captures : env.Makes l.captures
  highlightEndStack : l.highlightEndStack = []
  addedAt : l.addedAt = addedAt

theorem newLayers_made {parentName : Option String} {addedAt : Nat} {fuel : Nat}
    {pending : Pending} {queue : List Pending} {result layers : List (HighlightIterLayer σ)}
    {world world' : ω} (hresult : ∀ l ∈ result, l.Made env addedAt)
    (h : newLayers env parentName addedAt fuel pending queue result world =
      some (.ok layers, world')) : ∀ l ∈ layers, l.Made env addedAt := by
  induction fuel generalizing pending queue result world with
  | zero => cases h
  | succ fuel ih =>
    obtain ⟨config, depth, ranges⟩ := pending
    simp only [newLayers] at h
    split at h
    next => cases h
    next =>
      split at h
      · cases h
        exact hresult
      · exact ih hresult h
    next injections captures world₁ hparse =>
      have hmade : ∀ layer : HighlightIterLayer σ, layer.captures = captures →
          layer.highlightEndStack = [] → layer.addedAt = addedAt →
          ∀ l ∈ result ++ [layer], l.Made env addedAt := by
        intro layer hcaptures hstack hadded l hl
        rcases List.mem_append.mp hl with hl | hl
        · exact hresult l hl
        · rw [List.mem_singleton.mp hl]
          refine ⟨⟨config, ranges, world, injections, world₁, ?_⟩, hstack, hadded⟩
          rw [hcaptures, hparse]
      have hresult' := hmade ⟨captures, config, [], [globalScope], ranges, depth, addedAt⟩
        rfl rfl rfl
      obtain ⟨⟨queue', world₂⟩, _, h⟩ := bind_eq_some_iff.mp h
      dsimp only at h
      split at h
      · cases h
        exact hresult'
      · exact ih hresult' h

namespace HighlightIter

variable {captured : CapturedMatch} {layer' layer : HighlightIterLayer σ}

theorem processLocal_advances {range : Nat × Nat} {info info' : LocalInfo}
    (h : processLocal env range layer captured info = some (layer', info')) :
    layer'.captures = layer.captures ∧ layer.Advances env layer' := by
  dsimp only [processLocal] at h
  split at h
  next =>
    cases h
    exact ⟨rfl, .refl, rfl, rfl, rfl⟩
  next =>
    split at h
    next =>
      split at h
      · cases h
      · obtain ⟨text, _, h⟩ := bind_eq_some_iff.mp h
        split at h <;> cases h <;> exact ⟨rfl, .refl, rfl, rfl, rfl⟩
    next =>
      split at h
      next =>
        obtain ⟨text, _, h⟩ := bind_eq_some_iff.mp h
        split at h
        · cases h
          exact ⟨rfl, .refl _⟩
        · split at h <;> cases h <;> exact ⟨rfl, .refl _⟩
      next =>
        cases h
        exact ⟨rfl, .refl _⟩

variable {fuel : Nat}

theorem processLocals_advances {range : Nat × Nat} {info : LocalInfo}
    {found : Option (CapturedMatch × LocalInfo)}
    (h : processLocals env range fuel layer captured info = some (layer', found)) :
    layer.Advances env layer' := by
  induction fuel generalizing layer captured info with
  | zero => cases h
  | succ fuel ih =>
    simp only [processLocals] at h
    split at h
    next =>
      obtain ⟨⟨layer₁, info₁⟩, h₁, h⟩ := bind_eq_some_iff.mp h
      obtain ⟨_, hadvances⟩ := processLocal_advances h₁
      dsimp only at h
      split at h
      next =>
        cases h
        exact hadvances
      next next captures hnext =>
        split at h
        · have hstep : layer₁.Advances env { layer₁ with captures } :=
            ⟨.next .refl hnext, rfl, rfl, rfl⟩
          exact hadvances.trans (hstep.trans (ih h))
        · cases h
          exact hadvances
    next =>
      cases h
      exact .refl _

theorem lastPattern_advances {isLocal : Bool} {captured' : CapturedMatch}
    (h : lastPattern env isLocal fuel layer captured = some (layer', captured')) :
    layer.Advances env layer' := by
  induction fuel generalizing layer captured with
  | zero => cases h
  | succ fuel ih =>
    simp only [lastPattern] at h
    split at h
    next =>
      cases h
      exact .refl _
    next next captures hnext =>
      split at h
      next =>
        obtain ⟨disabled, _, h⟩ := bind_eq_some_iff.mp h
        split at h
        · have hstep : layer.Advances env { layer with captures } :=
            ⟨.next .refl hnext, rfl, rfl, rfl⟩
          exact hstep.trans (ih h)
        · have hstep : layer.Advances env { layer with
              captures := env.removeMatch captures captured.queryMatch.id } :=
            ⟨.remove _ (.next .refl hnext), rfl, rfl, rfl⟩
          exact hstep.trans (ih h)
      next =>
        cases h
        exact .refl _

/-- The iterator is the same, as far as its events go, with other layers. -/
structure Keeps (iter iter' : HighlightIter σ ω) (layers : List (HighlightIterLayer σ)) :
    Prop where
  byteOffset : iter'.byteOffset = iter.byteOffset
  nextEvent : iter'.nextEvent = iter.nextEvent
  layers : iter'.layers = layers

/-- The first layer takes `captured` from its stream, and no highlight of it ends before. -/
structure Takes (env : Env σ ω) (layer : HighlightIterLayer σ) (captured : CapturedMatch)
    (layer' : HighlightIterLayer σ) : Prop where
  next : ∃ captures, env.nextCapture layer.captures = some (captured, captures) ∧
    HighlightIterLayer.Advances env { layer with captures } layer'
  before : ∀ endByte ends, layer.highlightEndStack = endByte :: ends →
    captured.startByte < endByte

/-- All that a turn can do. -/
inductive Turned (env : Env σ ω) (iter : HighlightIter σ ω) : Turn σ ω → Prop where
  | passesOn {event : HighlightEvent} (h : iter.nextEvent = some event) :
      Turned env iter (.returns (some (.ok event)) { iter with nextEvent := none })
  | fails {error : Error} {iter' : HighlightIter σ ω} :
      Turned env iter (.returns (some (.error error)) iter')
  | finishes {iter' : HighlightIter σ ω} (hnone : iter.nextEvent = none)
      (hlayers : iter.layers = []) (hkeeps : iter.Keeps iter' []) :
      Turned env iter (finish env iter')
  | ends {iter' : HighlightIter σ ω} {layer : HighlightIterLayer σ}
      {rest : List (HighlightIterLayer σ)} {endByte : Nat} {ends : List Nat}
      (hnone : iter.nextEvent = none) (hlayers : iter.layers = layer :: rest)
      (hstack : layer.highlightEndStack = endByte :: ends)
      (hle : ∀ captured captures, env.nextCapture layer.captures = some (captured, captures) →
        endByte ≤ captured.startByte)
      (hkeeps : iter.Keeps iter' ({ layer with highlightEndStack := ends } :: rest)) :
      Turned env iter
        (emitEvent env iter' endByte (some (.highlightEnd ⟨endByte, layer.addedAt⟩)))
  | exhausted {iter' : HighlightIter σ ω} {layer : HighlightIterLayer σ}
      {rest : List (HighlightIterLayer σ)} (hlayers : iter.layers = layer :: rest)
      (hkey : layer.sortKey env = none) :
      Turned env iter (emitEvent env iter' env.source.size none)
  | moves {iter' : HighlightIter σ ω} {layer layer' : HighlightIterLayer σ}
      {rest new : List (HighlightIterLayer σ)} {captured : CapturedMatch}
      (hnone : iter.nextEvent = none) (hlayers : iter.layers = layer :: rest)
      (htakes : Takes env layer captured layer')
      (hnew : ∀ l ∈ new, l.Made env iter.byteOffset)
      (hkeeps : iter.Keeps iter' (layer' :: rest)) :
      Turned env iter (.continues (sortLayers env (new.foldl (insertLayer env) iter')))
  | starts {iter' : HighlightIter σ ω} {layer layer' : HighlightIterLayer σ}
      {rest : List (HighlightIterLayer σ)} {captured : CapturedMatch} {highlight : Highlight}
      (hnone : iter.nextEvent = none) (hlayers : iter.layers = layer :: rest)
      (htakes : Takes env layer captured layer')
      (hkeeps : iter.Keeps iter'
        ({ layer' with highlightEndStack := captured.endByte :: layer'.highlightEndStack } ::
          rest)) :
      Turned env iter (emitEvent env iter' captured.startByte
        (some (.highlightStart highlight ⟨captured.startByte, layer'.addedAt⟩)))

section Cases

variable {iter iter₀ : HighlightIter σ ω} {layer layer₀ : HighlightIterLayer σ}
  {rest : List (HighlightIterLayer σ)} {captured captured' : CapturedMatch} {fuel : Nat}
  {t : Turn σ ω}

section

variable (hnone : iter.nextEvent = none)

include hnone

section

variable (hlayers : iter.layers = layer₀ :: rest)

include hlayers

theorem Turned.takes {iter' : HighlightIter σ ω} (htakes : Takes env layer₀ captured layer)
    (hkeeps : iter.Keeps iter' (layer :: rest)) :
    Turned env iter (.continues (sortLayers env iter')) := by
  have hnew : ∀ l ∈ ([] : List (HighlightIterLayer σ)), l.Made env iter.byteOffset := by simp
  exact .moves hnone hlayers htakes hnew hkeeps

theorem processInjection_turned (htakes : Takes env layer₀ captured layer)
    (hkeeps : ∃ layers, iter.Keeps iter₀ layers)
    (h : processInjection env fuel iter₀ layer rest captured = some t) : Turned env iter t := by
  obtain ⟨layers₀, hbyte, hnext, -⟩ := hkeeps
  have htakes' : Takes env layer₀ captured
      { layer with captures := env.removeMatch layer.captures captured.queryMatch.id } := by
    obtain ⟨⟨captures, hcaptured, hadvances⟩, hbefore⟩ := htakes
    exact ⟨⟨captures, hcaptured, hadvances.trans ⟨.remove _ .refl, rfl, rfl, rfl⟩⟩, hbefore⟩
  obtain ⟨⟨languageName, contentNode, includeChildren⟩, _, h⟩ := bind_eq_some_iff.mp h
  dsimp only at h
  split at h
  next =>
    split at h
    next =>
      cases h
      exact .takes hnone hlayers htakes' ⟨hbyte, hnext, rfl⟩
    next config world _ =>
      obtain ⟨ranges, _, h⟩ := bind_eq_some_iff.mp h
      split at h
      · cases h
        exact .takes hnone hlayers htakes' ⟨hbyte, hnext, rfl⟩
      · obtain ⟨⟨made, world'⟩, hmade, h⟩ := bind_eq_some_iff.mp h
        split at h
        next =>
          cases h
          exact .fails
        next layers world'' heq =>
          cases h
          cases heq
          have hnew := newLayers_made (by simp) hmade
          rw [hbyte] at hnew
          exact .moves hnone hlayers htakes' hnew ⟨hbyte, hnext, rfl⟩
  next =>
    cases h
    exact .takes hnone hlayers htakes' ⟨hbyte, hnext, rfl⟩

theorem processHighlight_turned {info : LocalInfo} (htakes : Takes env layer₀ captured layer)
    (hkeeps : ∃ layers, iter.Keeps iter₀ layers)
    (h : processHighlight env fuel iter₀ (captured.startByte, captured.endByte) layer rest
      captured' info = some t) : Turned env iter t := by
  obtain ⟨layers₀, hbyte, hnext, -⟩ := hkeeps
  simp only [processHighlight] at h
  split at h
  next =>
    cases h
    exact .takes hnone hlayers htakes ⟨hbyte, hnext, rfl⟩
  next =>
    obtain ⟨⟨layer₁, captured₁⟩, hlast, h⟩ := bind_eq_some_iff.mp h
    obtain ⟨currentHighlight, _, h⟩ := bind_eq_some_iff.mp h
    have hstored : layer₁.Advances env (if info.isDefinition then
        { layer₁ with scopeStack := storeHighlight currentHighlight layer₁.scopeStack }
        else layer₁) := by
      split
      · exact ⟨.refl, rfl, rfl, rfl⟩
      · exact .refl _
    have htakes' := Takes.mk (htakes.next.imp fun captures hcaptures =>
      ⟨hcaptures.1, hcaptures.2.trans ((lastPattern_advances hlast).trans hstored)⟩) htakes.before
    dsimp only at h
    split at h
    next =>
      cases h
      exact .starts hnone hlayers htakes' ⟨hbyte, hnext, rfl⟩
    next =>
      cases h
      exact .takes hnone hlayers htakes' ⟨hbyte, hnext, rfl⟩

theorem processCapture_turned (htakes : Takes env layer₀ captured layer)
    (hkeeps : ∃ layers, iter.Keeps iter₀ layers)
    (h : processCapture env fuel iter₀ layer rest captured = some t) : Turned env iter t := by
  simp only [processCapture] at h
  split at h
  next => exact processInjection_turned hnone hlayers htakes hkeeps h
  next =>
    obtain ⟨scopeStack, _, h⟩ := bind_eq_some_iff.mp h
    obtain ⟨⟨layer₁, found⟩, hlocals, h⟩ := bind_eq_some_iff.mp h
    have hscope : layer.Advances env { layer with scopeStack } := ⟨.refl, rfl, rfl, rfl⟩
    have htakes' := Takes.mk (htakes.next.imp fun captures hcaptures =>
      ⟨hcaptures.1, hcaptures.2.trans (hscope.trans (processLocals_advances hlocals))⟩)
      htakes.before
    split at h
    next heq =>
      cases heq
      cases h
      obtain ⟨layers₀, hbyte, hnext, -⟩ := hkeeps
      exact .takes hnone hlayers htakes' ⟨hbyte, hnext, rfl⟩
    next heq =>
      cases heq
      exact processHighlight_turned hnone hlayers htakes' hkeeps h

end

theorem processLayer_turned (hlayers : iter.layers = layer :: rest)
    (hkeeps : ∃ layers, iter.Keeps iter₀ layers)
    (h : processLayer env fuel iter₀ layer rest = some t) : Turned env iter t := by
  obtain ⟨layers₀, hbyte, hnext, _⟩ := hkeeps
  simp only [processLayer] at h
  split at h
  next captured captures endByte ends hcaptures hstack =>
    split at h
    next hle =>
      cases h
      refine .ends hnone hlayers hstack (fun captured' captures' heq => ?_) ⟨hbyte, hnext, rfl⟩
      rw [hcaptures] at heq
      cases heq
      exact hle
    next hlt =>
      refine processCapture_turned hnone hlayers ⟨⟨captures, hcaptures, .refl _⟩, ?_⟩
        ⟨layers₀, hbyte, hnext, ‹_›⟩ h
      intro endByte' ends' heq
      rw [hstack] at heq
      cases heq
      exact not_le.mp hlt
  next captured captures hcaptures hstack =>
    refine processCapture_turned hnone hlayers ⟨⟨captures, hcaptures, .refl _⟩, ?_⟩
      ⟨layers₀, hbyte, hnext, ‹_›⟩ h
    intro endByte' ends' heq
    rw [hstack] at heq
    cases heq
  next endByte ends hcaptures hstack =>
    cases h
    refine .ends hnone hlayers hstack (fun captured' captures' heq => ?_) ⟨hbyte, hnext, rfl⟩
    rw [hcaptures] at heq
    cases heq
  next hcaptures hstack =>
    cases h
    exact .exhausted hlayers (by simp [HighlightIterLayer.sortKey, hcaptures, hstack])

end

end Cases

theorem checkCancellation_keeps (env : Env σ ω) (iter : HighlightIter σ ω) :
    iter.Keeps (checkCancellation env iter).2 iter.layers := by
  simp only [checkCancellation]
  split
  · exact ⟨rfl, rfl, rfl⟩
  · split <;> exact ⟨rfl, rfl, rfl⟩

variable {iter : HighlightIter σ ω}

theorem turn_turned {t : Turn σ ω} (h : turn env fuel iter = some t) : Turned env iter t := by
  simp only [turn] at h
  split at h
  next event hevent =>
    cases h
    exact .passesOn hevent
  next hnone =>
    have hkeeps := checkCancellation_keeps env iter
    split at h
    next =>
      cases h
      exact .fails
    next iter₀ hcheck =>
      rw [hcheck] at hkeeps
      split at h
      next hlayers =>
        cases h
        have hlayers' : iter.layers = [] := hkeeps.layers.symm.trans hlayers
        exact .finishes hnone hlayers' ⟨hkeeps.byteOffset, hkeeps.nextEvent, hlayers⟩
      next layer rest hlayers =>
        have hlayers' : iter.layers = layer :: rest := hkeeps.layers.symm.trans hlayers
        exact processLayer_turned hnone hlayers' ⟨_, hkeeps⟩ h

theorem insertLayer_keeps (env : Env σ ω) (iter : HighlightIter σ ω)
    (layer : HighlightIterLayer σ) :
    (iter.insertLayer env layer).byteOffset = iter.byteOffset ∧
      (iter.insertLayer env layer).nextEvent = iter.nextEvent := by
  simp only [insertLayer]
  split
  · exact ⟨rfl, rfl⟩
  · split <;> exact ⟨rfl, rfl⟩

theorem insertLayers_keeps (env : Env σ ω) (new : List (HighlightIterLayer σ))
    (iter : HighlightIter σ ω) :
    (new.foldl (insertLayer env) iter).byteOffset = iter.byteOffset ∧
      (new.foldl (insertLayer env) iter).nextEvent = iter.nextEvent := by
  induction new generalizing iter with
  | nil => exact ⟨rfl, rfl⟩
  | cons layer new ih =>
    obtain ⟨hbyte, hnext⟩ := insertLayer_keeps env iter layer
    exact ⟨(ih _).1.trans hbyte, (ih _).2.trans hnext⟩

/-! ### Runs -/

/-- The events of a run, and where it has led: each of its turns is from an iterator that
satisfies `P`. A run is over once the iterator ends or fails. -/
inductive Run (env : Env σ ω) (P : HighlightIter σ ω → Prop) (start : HighlightIter σ ω) :
    List HighlightEvent → HighlightIter σ ω → Prop where
  | start : Run env P start [] start
  | continues {events : List HighlightEvent} {iter iter' : HighlightIter σ ω} {fuel : Nat}
      (h : Run env P start events iter) (hP : P iter)
      (hturn : turn env fuel iter = some (.continues iter')) : Run env P start events iter'
  | yields {events : List HighlightEvent} {event : HighlightEvent} {iter iter' : HighlightIter σ ω}
      {fuel : Nat} (h : Run env P start events iter) (hP : P iter)
      (hturn : turn env fuel iter = some (.returns (some (.ok event)) iter')) :
      Run env P start (events ++ [event]) iter'

/-- The events that calls of `next` return, one after the other, and the iterator after them. -/
inductive Iterates (env : Env σ ω) (start : HighlightIter σ ω) :
    List HighlightEvent → HighlightIter σ ω → Prop where
  | start : Iterates env start [] start
  | yields {events : List HighlightEvent} {event : HighlightEvent} {iter iter' : HighlightIter σ ω}
      {fuel : Nat} (h : Iterates env start events iter)
      (hnext : next env fuel iter = some (some (.ok event), iter')) :
      Iterates env start (events ++ [event]) iter'

variable {events : List HighlightEvent} {start : HighlightIter σ ω}

theorem next_turns {iter' : HighlightIter σ ω} {item : Item}
    (hrun : Run env (fun _ => True) start events iter)
    (h : next env fuel iter = some (item, iter')) :
    ∃ iter₀ fuel', Run env (fun _ => True) start events iter₀ ∧
      turn env fuel' iter₀ = some (.returns item iter') := by
  induction fuel generalizing iter with
  | zero => cases h
  | succ fuel ih =>
    simp only [next] at h
    split at h
    next => cases h
    next item' iter₁ hturn =>
      cases h
      exact ⟨iter, fuel, hrun, hturn⟩
    next iter₁ hturn => exact ih (hrun.continues trivial hturn) h

theorem Iterates.run (h : Iterates env start events iter) :
    Run env (fun _ => True) start events iter := by
  induction h with
  | start => exact .start
  | yields _ hnext ih =>
    obtain ⟨iter₀, fuel', hrun, hturn⟩ := next_turns ih hnext
    exact hrun.yields trivial hturn

/-- The events of the next `n` calls of `next`, where they all return one. -/
def take (env : Env σ ω) (fuel : Nat) :
    Nat → HighlightIter σ ω → Option (List HighlightEvent × HighlightIter σ ω)
  | 0, iter => some ([], iter)
  | n + 1, iter =>
    match next env fuel iter with
    | some (some (.ok event), iter) =>
      (take env fuel n iter).map fun (events, iter) => (event :: events, iter)
    | _ => none

theorem take_iterates {iter' : HighlightIter σ ω} {more : List HighlightEvent} {n : Nat}
    (h : Iterates env start events iter) (htake : take env fuel n iter = some (more, iter')) :
    Iterates env start (events ++ more) iter' := by
  induction n generalizing iter events more with
  | zero =>
    cases htake
    rw [List.append_nil]
    exact h
  | succ n ih =>
    simp only [take] at htake
    split at htake
    next event iter₁ hnext =>
      obtain ⟨⟨more', iter₂⟩, htake', heq⟩ := map_eq_some_iff.mp htake
      cases heq
      rw [List.append_cons]
      exact ih (h.yields hnext) htake'
    next => cases htake

end HighlightIter

/-! ### Streams given as lists -/

/-- An environment whose streams are the lists of their captures. -/
def Env.ofLists (source : ByteArray)
    (parse : HighlightConfiguration → List Range → ω → Parsed (List CapturedMatch) × ω)
    (injectionCallback : String → ω → Option HighlightConfiguration × ω) :
    Env (List CapturedMatch) ω where
  source := source
  languageName := ""
  nextCapture
    | [] => none
    | captured :: captures => some (captured, captures)
  removeMatch captures id := captures.filter fun captured => captured.queryMatch.id ≠ id
  parse := parse
  injectionCallback := injectionCallback
  cancellationFlag := none

theorem Env.ofLists_reaches {source : ByteArray}
    {parse : HighlightConfiguration → List Range → ω → Parsed (List CapturedMatch) × ω}
    {injectionCallback : String → ω → Option HighlightConfiguration × ω}
    {s s' : List CapturedMatch} (h : Reaches (.ofLists source parse injectionCallback) s s') :
    s'.Sublist s := by
  induction h with
  | refl => exact List.Sublist.refl s
  | @next s₁ s₂ captured _ hnext ih =>
    cases s₁ with
    | nil => cases hnext
    | cons captured' captures =>
      cases hnext
      exact (List.sublist_cons_self _ _).trans ih
  | remove id _ ih => exact List.filter_sublist.trans ih

/-- A configuration with a single highlight, and no injections or local variables. -/
def plainConfiguration : HighlightConfiguration where
  languageName := ""
  propertySettings _ := []
  combinedInjectionsQuery := none
  localsPatternIndex := 0
  highlightsPatternIndex := 0
  highlightIndices := [some ⟨0⟩]
  nonLocalVariablePatterns := []
  injectionContentCaptureIndex := none
  injectionLanguageCaptureIndex := none
  localScopeCaptureIndex := none
  localDefCaptureIndex := none
  localDefValueCaptureIndex := none
  localRefCaptureIndex := none

def lineNode (id startByte endByte : Nat) : Node :=
  ⟨id, ⟨startByte, endByte, ⟨0, startByte⟩, ⟨0, endByte⟩⟩, []⟩

/-- The only capture of a match of the first pattern. -/
def captureOf (node : Node) : CapturedMatch :=
  ⟨⟨node.id, 0, [⟨node, 0⟩]⟩, ⟨0, Nat.one_pos⟩⟩

end TreeSitter.Highlighter
