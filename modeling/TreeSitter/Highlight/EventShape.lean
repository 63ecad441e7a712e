import TreeSitter.Highlight.Turns

/-!
# TreeSitter.Highlight.EventShape

The **shape of the event stream**: the source events tile the source from its start to its end,
and the starts and ends of highlights are balanced.

What is counted is the **history** of a run: the events that it has yielded and the one that still
waits behind a source event. Each highlight that has started in the history and not ended is on
the stack of a layer (`Shaped`), and layers are dropped only when they have neither captures nor
pending ends left, so that nothing is lost with them.
-/

namespace TreeSitter.Highlighter

open List Library

variable {σ ω : Type} {env : Env σ ω}

/-- The ranges are not empty, and each starts where the one before it stops: together they are
the range from `start` to `stop`. -/
def Tiles : Nat → List (Nat × Nat) → Nat → Prop
  | start, [], stop => start = stop
  | start, range :: ranges, stop => range.1 = start ∧ start < range.2 ∧ Tiles range.2 ranges stop

variable {ranges : List (Nat × Nat)}

theorem Tiles.snoc {start middle stop : Nat} (h : Tiles start ranges middle) (hlt : middle < stop) :
    Tiles start (ranges ++ [(middle, stop)]) stop := by
  induction ranges generalizing start with
  | nil =>
    cases h
    exact ⟨rfl, hlt, rfl⟩
  | cons range ranges ih => exact ⟨h.1, h.2.1, ih h.2.2⟩

theorem Tiles.le {start stop : Nat} (h : Tiles start ranges stop) : start ≤ stop := by
  induction ranges generalizing start with
  | nil => exact le_of_eq h
  | cons range ranges ih => exact le_trans (le_of_lt h.2.1) (ih h.2.2)

theorem Tiles.of_append {start stop : Nat} {ranges more : List (Nat × Nat)}
    (h : Tiles start (ranges ++ more) stop) : ∃ middle ≤ stop, Tiles start ranges middle := by
  induction ranges generalizing start with
  | nil => exact ⟨start, h.le, rfl⟩
  | cons range ranges ih =>
    obtain ⟨middle, hle, hranges⟩ := ih h.2.2
    exact ⟨middle, hle, h.1, h.2.1, hranges⟩

namespace HighlightEvent

def range? : HighlightEvent → Option (Nat × Nat)
  | source start stop => some (start, stop)
  | _ => none

def isStart : HighlightEvent → Bool
  | highlightStart _ _ => true
  | _ => false

def isEnd : HighlightEvent → Bool
  | highlightEnd _ => true
  | _ => false

end HighlightEvent

def sources (events : List HighlightEvent) : List (Nat × Nat) :=
  events.filterMap HighlightEvent.range?

/-- In every prefix, at least as many highlights have started as have ended. -/
def Nested (events : List HighlightEvent) : Prop :=
  ∀ events', events' <+: events →
    events'.countP HighlightEvent.isEnd ≤ events'.countP HighlightEvent.isStart

theorem Nested.snoc {events : List HighlightEvent} {event : HighlightEvent} (h : Nested events)
    (hle : (events ++ [event]).countP HighlightEvent.isEnd ≤
      (events ++ [event]).countP HighlightEvent.isStart) : Nested (events ++ [event]) := by
  intro events' hpre
  rcases prefix_concat_iff.mp hpre with rfl | hpre
  · exact hle
  · exact h events' hpre

/-- The nodes of all captures that are still to come lie within the source. -/
def Within (env : Env σ ω) (captures : σ) : Prop :=
  ∀ captures' captured captures'', Reaches env captures captures' →
    env.nextCapture captures' = some (captured, captures'') →
    captured.startByte ≤ captured.endByte ∧ captured.endByte ≤ env.source.size

theorem Within.reaches {captures captures' : σ} (h : Within env captures)
    (hreaches : Reaches env captures captures') : Within env captures' :=
  fun s captured s' hs => h s captured s' (hreaches.trans hs)

/-- What a layer still has to emit lies within the source. -/
structure HighlightIterLayer.Inside (env : Env σ ω) (layer : HighlightIterLayer σ) : Prop where
  captures : Within env layer.captures
  ends : ∀ endByte ∈ layer.highlightEndStack, endByte ≤ env.source.size

/-- The number of highlights that the layers have still to end. -/
def pendingEnds (layers : List (HighlightIterLayer σ)) : Nat :=
  (layers.map fun layer => layer.highlightEndStack.length).sum

theorem sortKey_eq_none (env : Env σ ω) (layer : HighlightIterLayer σ)
    (h : layer.sortKey env = none) : layer.highlightEndStack.length = 0 := by
  simp only [HighlightIterLayer.sortKey] at h
  split at h
  · split at h <;> cases h
  · cases h
  · cases h
  next _ hstack => simp [hstack]

namespace HighlightIter

/-- The history of a run that has led to the iterator. -/
structure Shaped (env : Env σ ω) (history : List HighlightEvent) (iter : HighlightIter σ ω) :
    Prop where
  tiles : Tiles 0 (sources history) iter.byteOffset
  offset_le : iter.byteOffset ≤ env.source.size
  inside : ∀ layer ∈ iter.layers, layer.Inside env
  balance : history.countP HighlightEvent.isStart =
    history.countP HighlightEvent.isEnd + pendingEnds iter.layers
  nested : Nested history

/-- The first layer has a boundary left. -/
def HeadLive (env : Env σ ω) (iter : HighlightIter σ ω) : Prop :=
  ∀ layer rest, iter.layers = layer :: rest → (layer.sortKey env).isSome

variable {history : List HighlightEvent} {iter iter' : HighlightIter σ ω}

theorem sortLayers_headLive (iter : HighlightIter σ ω) : (iter.sortLayers env).HeadLive env :=
  fun _ _ h => MergeQueue.settle_head_isSome h

theorem Shaped.sortLayers (h : iter.Shaped env history) :
    (iter.sortLayers env).Shaped env history where
  tiles := h.tiles
  offset_le := h.offset_le
  inside := fun layer hlayer => h.inside layer (MergeQueue.mem_of_mem_settle hlayer)
  balance := by
    have hsum := MergeQueue.sum_settle (sortKey_eq_none env)
      iter.layers
    rw [h.balance]
    exact congrArg _ hsum.symm
  nested := h.nested

theorem Shaped.insertLayer {layer : HighlightIterLayer σ} (h : iter.Shaped env history)
    (hlayer : layer.Inside env) (hempty : layer.highlightEndStack = []) :
    (iter.insertLayer env layer).Shaped env history := by
  simp only [HighlightIter.insertLayer]
  split
  next => exact h
  next key hkey =>
    have hbalance := h.balance
    have hinside := h.inside
    split
    next hlayers =>
      refine ⟨h.tiles, h.offset_le, by simpa using hlayer, ?_, h.nested⟩
      rw [hlayers] at hbalance
      simpa [pendingEnds, hempty] using hbalance
    next first rest hlayers =>
      rw [hlayers] at hinside hbalance
      rw [forall_mem_cons] at hinside
      refine ⟨h.tiles, h.offset_le, ?_, ?_, h.nested⟩
      · refine forall_mem_cons.mpr ⟨hinside.1, fun l hl => ?_⟩
        rcases MergeQueue.mem_of_mem_place hl with rfl | hl
        · exact hlayer
        · exact hinside.2 l hl
      · have hsum := MergeQueue.sum_place
          (sortKey_eq_none env) key layer rest
        simp only [pendingEnds, map_cons, sum_cons] at hbalance ⊢
        rw [hbalance, hsum, hempty]
        simp

/-- All streams that the parser makes lie within the source. -/
def AllWithin (env : Env σ ω) : Prop := ∀ captures, env.Makes captures → Within env captures

theorem Shaped.insertLayers {layers : List (HighlightIterLayer σ)} {addedAt : Nat}
    (hwithin : AllWithin env) (h : iter.Shaped env history)
    (hmade : ∀ l ∈ layers, l.Made env addedAt) :
    (layers.foldl (HighlightIter.insertLayer env) iter).Shaped env history := by
  induction layers generalizing iter with
  | nil => exact h
  | cons layer layers ih =>
    rw [forall_mem_cons] at hmade
    refine ih (h.insertLayer ⟨hwithin _ hmade.1.captures, ?_⟩ hmade.1.highlightEndStack) hmade.2
    simp [hmade.1.highlightEndStack]

/-! ### One turn -/

theorem Takes.inside {layer layer' : HighlightIterLayer σ} {captured : CapturedMatch}
    (h : Takes env layer captured layer') (hinside : layer.Inside env) :
    layer'.Inside env ∧ layer'.highlightEndStack = layer.highlightEndStack ∧
      captured.startByte ≤ env.source.size ∧ captured.endByte ≤ env.source.size := by
  obtain ⟨captures, hnext, hadvances⟩ := h.next
  obtain ⟨hle, hle'⟩ := hinside.captures _ captured captures .refl hnext
  have hreaches : Reaches env layer.captures layer'.captures :=
    (Reaches.next .refl hnext).trans hadvances.captures
  refine ⟨⟨hinside.captures.reaches hreaches, ?_⟩, hadvances.highlightEndStack,
    le_trans hle hle', hle'⟩
  rw [hadvances.highlightEndStack]
  exact hinside.ends

/-- What a turn leads to, from an iterator with no waiting event. -/
def Outcome (env : Env σ ω) (history : List HighlightEvent) : Turn σ ω → Prop
  | .continues iter =>
    iter.nextEvent = none ∧ iter.HeadLive env ∧ iter.Shaped env history
  | .returns (some (.ok event)) iter =>
    iter.HeadLive env ∧ iter.Shaped env (history ++ event :: iter.nextEvent.toList)
  | .returns (some (.error _)) _ => True
  | .returns none iter =>
    iter.layers = [] ∧ iter.byteOffset = env.source.size ∧ iter.Shaped env history

/-- Emitting a start or an end at `offset`, where the layers have already been changed for it. -/
theorem emitEvent_outcome {offset : Nat} {event : HighlightEvent} (hnone : iter.nextEvent = none)
    (htiles : Tiles 0 (sources history) iter.byteOffset) (hoffset : offset ≤ env.source.size)
    (hle : iter.byteOffset ≤ env.source.size) (hinside : ∀ layer ∈ iter.layers, layer.Inside env)
    (hrange : event.range? = none) (hnested : Nested history)
    (hbalance : (history ++ [event]).countP HighlightEvent.isStart =
      (history ++ [event]).countP HighlightEvent.isEnd + pendingEnds iter.layers) :
    Outcome env history (emitEvent env iter offset (some event)) := by
  have hsources : ∀ l, sources (l ++ [event]) = sources l := by
    intro l
    simp [sources, hrange]
  simp only [emitEvent]
  split
  next hlt =>
    -- the source up to the boundary comes first, and leaves the counts as they are
    refine ⟨sortLayers_headLive _, Shaped.sortLayers ⟨?_, hoffset, hinside, ?_, ?_⟩⟩
    · show Tiles 0 (sources (history ++ [.source iter.byteOffset offset, event])) offset
      rw [append_cons, hsources]
      have := htiles.snoc hlt
      simpa [sources, HighlightEvent.range?] using this
    · show (history ++ [.source iter.byteOffset offset, event]).countP _ =
        (history ++ [.source iter.byteOffset offset, event]).countP _ + _
      simpa [HighlightEvent.isStart, HighlightEvent.isEnd, countP_cons] using hbalance
    · show Nested (history ++ [.source iter.byteOffset offset, event])
      rw [append_cons]
      refine Nested.snoc (hnested.snoc ?_) ?_
      · have := hnested history (prefix_refl history)
        simpa [HighlightEvent.isStart, HighlightEvent.isEnd, countP_cons] using this
      · have hcount : (history ++ [event]).countP HighlightEvent.isEnd ≤
            (history ++ [event]).countP HighlightEvent.isStart := by omega
        simpa [HighlightEvent.isStart, HighlightEvent.isEnd, countP_cons] using hcount
  next =>
    refine ⟨sortLayers_headLive _, ?_⟩
    show Shaped env (history ++ event :: iter.nextEvent.toList) _
    rw [hnone]
    refine Shaped.sortLayers ⟨?_, hle, hinside, hbalance, hnested.snoc (by omega)⟩
    show Tiles 0 (sources (history ++ [event])) _
    rw [hsources]
    exact htiles

theorem finish_outcome (hnone : iter.nextEvent = none) (hlayers : iter.layers = [])
    (h : iter.Shaped env history) : Outcome env history (finish env iter) := by
  simp only [finish]
  split
  next hlt =>
    refine ⟨fun layer rest heq => ?_, ?_⟩
    · rw [show _ = [] from hlayers] at heq
      cases heq
    · show Shaped env (history ++ .source _ _ :: iter.nextEvent.toList) _
      rw [hnone]
      refine ⟨?_, le_rfl, h.inside, ?_, h.nested.snoc ?_⟩
      · have := h.tiles.snoc hlt
        simpa [sources, HighlightEvent.range?] using this
      · simpa [HighlightEvent.isStart, HighlightEvent.isEnd, countP_cons] using h.balance
      · have := h.nested history (prefix_refl history)
        simpa [HighlightEvent.isStart, HighlightEvent.isEnd, countP_cons] using this
  next hnlt => exact ⟨hlayers, le_antisymm h.offset_le (not_lt.mp hnlt), h⟩

theorem turned_outcome {t : Turn σ ω} (hwithin : AllWithin env) (hnone : iter.nextEvent = none)
    (hlive : iter.HeadLive env) (h : iter.Shaped env history) (hturned : Turned env iter t) :
    Outcome env history t := by
  cases hturned with
  | passesOn hevent => simp [hnone] at hevent
  | fails => trivial
  | finishes _ hlayers hkeeps =>
    obtain ⟨hbyte, hnext, hlayers'⟩ := hkeeps
    refine finish_outcome (hnext.trans hnone) hlayers' ⟨?_, ?_, ?_, ?_, h.nested⟩
    · exact hbyte ▸ h.tiles
    · exact hbyte ▸ h.offset_le
    · simp [hlayers']
    · rw [hlayers', ← hlayers]
      exact h.balance
  | exhausted hlayers hkey =>
    -- the first layer of a sorted list is live
    have := hlive _ _ hlayers
    simp [hkey] at this
  | @ends iter' layer rest endByte ends _ hlayers hstack hle hkeeps =>
    obtain ⟨hbyte, hnext, hlayers'⟩ := hkeeps
    have hinside := h.inside
    rw [hlayers, forall_mem_cons] at hinside
    have hends := hinside.1.ends
    rw [hstack, forall_mem_cons] at hends
    have hbalance := h.balance
    refine emitEvent_outcome (hnext.trans hnone) (hbyte ▸ h.tiles) hends.1 (hbyte ▸ h.offset_le)
      ?_ rfl h.nested ?_
    · rw [hlayers']
      exact forall_mem_cons.mpr ⟨⟨hinside.1.captures, hends.2⟩, hinside.2⟩
    · rw [hlayers] at hbalance
      rw [hlayers']
      simp only [pendingEnds, map_cons, sum_cons, hstack, length_cons] at hbalance ⊢
      simp [HighlightEvent.isStart, HighlightEvent.isEnd, countP_cons]
      omega
  | @moves iter' layer layer' rest new captured _ hlayers htakes hnew hkeeps =>
    obtain ⟨hbyte, hnext, hlayers'⟩ := hkeeps
    have hinside := h.inside
    rw [hlayers, forall_mem_cons] at hinside
    obtain ⟨hlayer', hstack, -, -⟩ := htakes.inside hinside.1
    have hbalance := h.balance
    have hshaped : iter'.Shaped env history := by
      refine ⟨hbyte ▸ h.tiles, hbyte ▸ h.offset_le, ?_, ?_, h.nested⟩
      · rw [hlayers']
        exact forall_mem_cons.mpr ⟨hlayer', hinside.2⟩
      · rw [hlayers] at hbalance
        rw [hlayers']
        simpa [pendingEnds, hstack] using hbalance
    refine ⟨?_, sortLayers_headLive _, (hshaped.insertLayers hwithin hnew).sortLayers⟩
    exact (insertLayers_keeps env new iter').2.trans (hnext.trans hnone)
  | @starts iter' layer layer' rest captured highlight _ hlayers htakes hkeeps =>
    obtain ⟨hbyte, hnext, hlayers'⟩ := hkeeps
    have hinside := h.inside
    rw [hlayers, forall_mem_cons] at hinside
    obtain ⟨hlayer', hstack, hstart, hend⟩ := htakes.inside hinside.1
    have hbalance := h.balance
    refine emitEvent_outcome (hnext.trans hnone) (hbyte ▸ h.tiles) hstart (hbyte ▸ h.offset_le)
      ?_ rfl h.nested ?_
    · rw [hlayers']
      refine forall_mem_cons.mpr ⟨⟨hlayer'.captures, ?_⟩, hinside.2⟩
      exact forall_mem_cons.mpr ⟨hend, hlayer'.ends⟩
    · rw [hlayers] at hbalance
      rw [hlayers']
      simp only [pendingEnds, map_cons, sum_cons, hstack, length_cons] at hbalance ⊢
      simp [HighlightEvent.isStart, HighlightEvent.isEnd, countP_cons]
      omega

variable {events : List HighlightEvent} {start : HighlightIter σ ω}

theorem turned_outcome_of_events {t : Turn σ ω}
    (hwithin : AllWithin env) (hlive : iter.HeadLive env)
    (h : iter.Shaped env (events ++ iter.nextEvent.toList)) (hturned : Turned env iter t) :
    Outcome env events t := by
  cases hnext : iter.nextEvent with
  | none =>
    rw [hnext, Option.toList_none, append_nil] at h
    exact turned_outcome hwithin hnext hlive h hturned
  | some event =>
    rw [hnext] at h
    cases hturned with
    | passesOn hevent =>
      rw [hnext] at hevent
      cases hevent
      exact ⟨hlive, h.tiles, h.offset_le, h.inside, h.balance, h.nested⟩
    | fails => trivial
    | exhausted hlayers hkey =>
      have := hlive _ _ hlayers
      simp [hkey] at this
    | finishes hnone | ends hnone | moves hnone | starts hnone => simp [hnext] at hnone

/-! ### Whole runs -/

theorem Run.shaped {P : HighlightIter σ ω → Prop}
    (hwithin : AllWithin env) (hlive : start.HeadLive env)
    (hstart : start.Shaped env start.nextEvent.toList) (h : Run env P start events iter) :
    iter.HeadLive env ∧ iter.Shaped env (events ++ iter.nextEvent.toList) := by
  induction h with
  | start => exact ⟨hlive, hstart⟩
  | continues _ _ hturn ih =>
    obtain ⟨hnone, hlive', hshaped⟩ :=
      turned_outcome_of_events hwithin ih.1 ih.2 (turn_turned hturn)
    rw [hnone, Option.toList_none, append_nil]
    exact ⟨hlive', hshaped⟩
  | yields _ _ hturn ih =>
    rw [append_assoc]
    exact turned_outcome_of_events hwithin ih.1 ih.2 (turn_turned hturn)

theorem highlight_shaped {fuel : Nat} {config : HighlightConfiguration} {world : ω}
    (hwithin : AllWithin env)
    (h : highlight env fuel config world = some (.ok start)) :
    start.nextEvent = none ∧ start.HeadLive env ∧ start.Shaped env [] := by
  obtain ⟨⟨result, world'⟩, hlayers, h⟩ := Option.bind_eq_some_iff.mp h
  split at h
  next => cases h
  next layers world'' heq =>
    cases heq
    split at h
    next => cases h
    next =>
      cases h
      have hmade := newLayers_made (by simp) hlayers
      refine ⟨rfl, sortLayers_headLive _, Shaped.sortLayers ⟨rfl, Nat.zero_le _, ?_, ?_, ?_⟩⟩
      · intro layer hlayer
        refine ⟨hwithin _ (hmade layer hlayer).captures, ?_⟩
        simp [(hmade layer hlayer).highlightEndStack]
      · have hzero : pendingEnds layers = 0 := by
          refine sum_eq_zero fun n hn => ?_
          obtain ⟨layer, hlayer, rfl⟩ := mem_map.mp hn
          simp [(hmade layer hlayer).highlightEndStack]
        simp [HighlightIter.start, hzero]
      · intro events hpre
        simp [prefix_nil.mp hpre]

/-- The source events tile the source, and the starts and ends of highlights are balanced. -/
theorem Iterates.events_shape {fuel : Nat} {config : HighlightConfiguration} {world : ω}
    {start : HighlightIter σ ω} {events : List HighlightEvent} (hwithin : AllWithin env)
    (hstart : highlight env fuel config world = some (.ok start))
    (h : Iterates env start events iter) :
    (∃ stop ≤ env.source.size, Tiles 0 (sources events) stop) ∧ Nested events ∧
      ∀ fuel' iter', next env fuel' iter = some (none, iter') →
        Tiles 0 (sources events) env.source.size ∧
          events.countP HighlightEvent.isStart = events.countP HighlightEvent.isEnd := by
  obtain ⟨hnone, hlive, hshaped⟩ := highlight_shaped hwithin hstart
  have hshaped' : start.Shaped env start.nextEvent.toList := by
    rw [hnone]
    exact hshaped
  obtain ⟨_, htiles, hle, _, _, hnested⟩ := h.run.shaped hwithin hlive hshaped'
  refine ⟨?_, fun events' hpre => hnested events' (List.IsPrefix.trans hpre (prefix_append _ _)), ?_⟩
  · rw [sources, filterMap_append] at htiles
    obtain ⟨stop, hstop, htiles⟩ := htiles.of_append
    exact ⟨stop, le_trans hstop hle, htiles⟩
  · intro fuel' iter' hnext
    obtain ⟨iter₀, fuel'', hrun, hturn⟩ := next_turns h.run hnext
    obtain ⟨hlive₀, hshaped₀⟩ := hrun.shaped hwithin hlive hshaped'
    obtain ⟨hlayers, hoffset, hend⟩ :=
      turned_outcome_of_events hwithin hlive₀ hshaped₀ (turn_turned hturn)
    refine ⟨hoffset ▸ hend.tiles, ?_⟩
    have hbalance := hend.balance
    rw [hlayers] at hbalance
    exact hbalance

/-- A source of three bytes, of which the second one is highlighted. -/
def oneHighlight : Env (List CapturedMatch) Unit :=
  .ofLists ⟨#[97, 98, 99]⟩ (fun _ _ world => (.tree [] [captureOf (lineNode 1 1 2)], world))
    (fun _ world => (none, world))

theorem oneHighlight_allWithin : AllWithin oneHighlight := by
  intro captures ⟨config, ranges, world, injections, world', hparse⟩ s captured s' hreaches hnext
  cases hparse
  have hsublist : s.Sublist [captureOf (lineNode 1 1 2)] := Env.ofLists_reaches hreaches
  cases s with
  | nil => cases hnext
  | cons captured' s =>
    cases hnext
    rw [mem_singleton.mp (hsublist.subset (mem_cons_self ..))]
    decide

theorem oneHighlight_events : ∃ start iter,
    highlight oneHighlight 9 plainConfiguration () = some (.ok start) ∧
    Iterates oneHighlight start
      [.source 0 1, .highlightStart ⟨0⟩ ⟨1, 0⟩, .source 1 2, .highlightEnd ⟨2, 0⟩, .source 2 3]
      iter := by
  have hrun : ((highlight oneHighlight 9 plainConfiguration ()).bind fun result =>
      result.toOption.bind fun start => (take oneHighlight 9 5 start).map (·.1)) =
      some [.source 0 1, .highlightStart ⟨0⟩ ⟨1, 0⟩, .source 1 2, .highlightEnd ⟨2, 0⟩,
        .source 2 3] := by decide +kernel
  obtain ⟨result, hresult, hrun⟩ := Option.bind_eq_some_iff.mp hrun
  cases result with
  | error error => cases hrun
  | ok start =>
    obtain ⟨⟨events, iter⟩, htake, rfl⟩ := Option.map_eq_some_iff.mp hrun
    exact ⟨start, iter, hresult, take_iterates .start htake⟩

theorem Iterates.events_shape_oneHighlight : Nested
    [.source 0 1, .highlightStart ⟨0⟩ ⟨1, 0⟩, .source 1 2, .highlightEnd ⟨2, 0⟩, .source 2 3] := by
  obtain ⟨start, iter, hstart, hiterates⟩ := oneHighlight_events
  exact (Iterates.events_shape oneHighlight_allWithin hstart hiterates).2.1

end HighlightIter

end TreeSitter.Highlighter
