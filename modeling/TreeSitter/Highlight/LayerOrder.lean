import TreeSitter.Highlight.Turns

/-!
# TreeSitter.Highlight.LayerOrder

**Layers are merged in order**, once they are in order: every turn changes the first layer only,
lets it sink to its place and places new layers behind it, so that a merged list stays merged
(`Turned.merged`). The first list of layers is only settled, which puts its first live layer in
place: the layers of combined injections behind it have to be live and in order as they are made.

In a merged list the first boundary is the earliest one. Boundaries that had not been passed when
their layer was added are then on time (`Timely`), as long as the pending ends of each layer are
nested and its captures come in the order of their starts.
-/

namespace TreeSitter.Highlighter

open List Library

variable {σ ω : Type} {env : Env σ ω}

/-- The nodes of the captures that are still to come do not end before they start, and their
starts are in order. -/
def InOrder (env : Env σ ω) (captures : σ) : Prop :=
  ∀ s captured s', Reaches env captures s → env.nextCapture s = some (captured, s') →
    captured.startByte ≤ captured.endByte ∧
    ∀ s₁ captured' s₂, Reaches env s' s₁ → env.nextCapture s₁ = some (captured', s₂) →
      captured.startByte ≤ captured'.startByte

/-- All streams that the parser makes are in order. -/
def AllInOrder (env : Env σ ω) : Prop := ∀ captures, env.Makes captures → InOrder env captures

theorem InOrder.reaches {captures captures' : σ} (h : InOrder env captures)
    (hreaches : Reaches env captures captures') : InOrder env captures' :=
  fun s captured s' hs => h s captured s' (hreaches.trans hs)

theorem Env.ofLists_inOrder {source : ByteArray}
    {parse : HighlightConfiguration → List Range → ω → Parsed (List CapturedMatch) × ω}
    {injectionCallback : String → ω → Option HighlightConfiguration × ω}
    {captures : List CapturedMatch}
    (horder : captures.Pairwise fun c c' => c.startByte ≤ c'.startByte)
    (hrange : ∀ c ∈ captures, c.startByte ≤ c.endByte) :
    InOrder (.ofLists source parse injectionCallback) captures := by
  intro s captured s' hreaches hnext
  have hsublist := Env.ofLists_reaches hreaches
  cases s with
  | nil => cases hnext
  | cons captured₀ s =>
    cases hnext
    refine ⟨hrange _ (hsublist.subset (mem_cons_self ..)), ?_⟩
    intro s₁ captured' s₂ hreaches' hnext'
    have hsublist' := Env.ofLists_reaches hreaches'
    cases s₁ with
    | nil => cases hnext'
    | cons captured₁ s₁ =>
      cases hnext'
      have hpairwise := pairwise_cons.mp (horder.sublist hsublist)
      exact hpairwise.1 _ (hsublist'.subset (mem_cons_self ..))

/-- All layers have a boundary left, and they are sorted by it. -/
def MergedLayers (env : Env σ ω) (layers : List (HighlightIterLayer σ)) : Prop :=
  MergeQueue.Merged (HighlightIterLayer.sortKey env) layers

/-- The layers behind the first one that has a boundary left. -/
def layersBehind (env : Env σ ω) (layers : List (HighlightIterLayer σ)) :
    List (HighlightIterLayer σ) :=
  MergeQueue.behind (HighlightIterLayer.sortKey env) layers

/-! ### Boundaries and keys -/

variable {key : SortKey}

theorem SortKey.offset_le {key' : SortKey} (h : key ≤ key') : key.offset ≤ key'.offset := by
  rcases Prod.Lex.le_iff.mp h with h | h
  · exact le_of_lt h
  · exact le_of_eq h.1

variable {layer : HighlightIterLayer σ}

/-- The key of a layer is at or before its next capture and its innermost pending end. -/
theorem sortKey_offset_le (h : layer.sortKey env = some key) :
    (∀ captured captures, env.nextCapture layer.captures = some (captured, captures) →
      key.offset ≤ captured.startByte) ∧
    (∀ endByte ends, layer.highlightEndStack = endByte :: ends → key.offset ≤ endByte) := by
  simp only [HighlightIterLayer.sortKey] at h
  split at h
  next captured captures endByte ends hnext hstack =>
    rw [hnext, hstack]
    split at h
    next hlt =>
      cases h
      constructor
      · rintro _ _ ⟨⟩
        exact le_rfl
      · rintro _ _ ⟨⟩
        exact le_of_lt hlt
    next hnlt =>
      cases h
      constructor
      · rintro _ _ ⟨⟩
        exact not_lt.mp hnlt
      · rintro _ _ ⟨⟩
        exact le_rfl
  next captured captures hnext hstack =>
    cases h
    rw [hnext, hstack]
    refine ⟨?_, by simp⟩
    rintro _ _ ⟨⟩
    exact le_rfl
  next endByte ends hnext hstack =>
    cases h
    rw [hnext, hstack]
    refine ⟨by simp, ?_⟩
    rintro _ _ ⟨⟩
    exact le_rfl
  next => cases h

theorem sortKey_of_ends {endByte : Nat} {ends : List Nat}
    (hstack : layer.highlightEndStack = endByte :: ends) (hle : ∀ captured captures,
      env.nextCapture layer.captures = some (captured, captures) → endByte ≤ captured.startByte) :
    layer.sortKey env = some (.mk endByte false layer.depth) := by
  simp only [HighlightIterLayer.sortKey, hstack]
  cases hnext : env.nextCapture layer.captures with
  | none => rfl
  | some next => simp [not_lt.mpr (hle next.1 next.2 hnext)]

theorem HighlightIter.Takes.sortKey {layer' : HighlightIterLayer σ} {captured : CapturedMatch}
    (h : HighlightIter.Takes env layer captured layer') :
    layer.sortKey env = some (.mk captured.startByte true layer.depth) := by
  obtain ⟨captures, hnext, _⟩ := h.next
  simp only [HighlightIterLayer.sortKey, hnext]
  cases hstack : layer.highlightEndStack with
  | nil => rfl
  | cons endByte ends => simp [h.before endByte ends hstack]

namespace HighlightIter

variable {iter iter' : HighlightIter σ ω}

/-! ### The layers stay merged -/

variable {rest : List (HighlightIterLayer σ)} {first : HighlightIterLayer σ}

theorem insertLayer_merged (layer : HighlightIterLayer σ) (hlayers : iter.layers = first :: rest)
    (hrest : MergedLayers env rest) :
    ∃ rest', (iter.insertLayer env layer).layers = first :: rest' ∧
      MergedLayers env rest' ∧ ∀ l ∈ rest', l = layer ∨ l ∈ rest := by
  simp only [insertLayer]
  split
  next => exact ⟨rest, hlayers, hrest, fun l hl => .inr hl⟩
  next key hkey =>
    rw [hlayers]
    exact ⟨_, rfl, MergeQueue.merged_place hkey hrest, fun l hl => MergeQueue.mem_of_mem_place hl⟩

theorem insertLayers_merged (new : List (HighlightIterLayer σ))
    (hlayers : iter.layers = first :: rest) (hrest : MergedLayers env rest) :
    ∃ rest', (new.foldl (insertLayer env) iter).layers = first :: rest' ∧
      MergedLayers env rest' ∧ ∀ l ∈ rest', l ∈ new ∨ l ∈ rest := by
  induction new generalizing iter rest with
  | nil => exact ⟨rest, hlayers, hrest, fun l hl => .inr hl⟩
  | cons layer new ih =>
    obtain ⟨rest₁, hlayers₁, hrest₁, hmem₁⟩ := insertLayer_merged layer hlayers hrest
    obtain ⟨rest₂, hlayers₂, hrest₂, hmem₂⟩ := ih hlayers₁ hrest₁
    refine ⟨rest₂, hlayers₂, hrest₂, fun l hl => ?_⟩
    rcases hmem₂ l hl with hl | hl
    · exact .inl (mem_cons_of_mem layer hl)
    · exact (hmem₁ l hl).imp_left fun heq => by simp [heq]

theorem sortLayers_merged (hlayers : iter.layers = first :: rest) (hrest : MergedLayers env rest) :
    MergedLayers env (iter.sortLayers env).layers := by
  refine MergeQueue.merged_settle ?_
  rw [hlayers]
  exact MergeQueue.merged_behind_cons hrest

def after : Turn σ ω → HighlightIter σ ω
  | .returns _ iter | .continues iter => iter

/-- The turn has not failed. -/
def Succeeds : Turn σ ω → Prop
  | .returns (some (.error _)) _ => False
  | _ => True

theorem emitEvent_layers (offset : Nat) (event : Option HighlightEvent) :
    (after (emitEvent env iter offset event)).layers = (iter.sortLayers env).layers := by
  simp only [emitEvent]
  split <;> rfl

theorem finish_keeps (iter : HighlightIter σ ω) :
    (after (finish env iter)).layers = iter.layers ∧
      (after (finish env iter)).nextEvent = iter.nextEvent := by
  simp only [finish]
  split <;> exact ⟨rfl, rfl⟩

theorem Turned.merged {t : Turn σ ω} (h : Turned env iter t) (hsucceeds : Succeeds t)
    (hmerged : MergedLayers env iter.layers) : MergedLayers env (after t).layers := by
  cases h with
  | passesOn => exact hmerged
  | fails => cases hsucceeds
  | finishes _ _ hkeeps =>
    rw [(finish_keeps _).1, hkeeps.layers]
    exact MergeQueue.merged_nil
  | ends _ hlayers _ _ hkeeps =>
    rw [hlayers] at hmerged
    obtain ⟨_, _, _, hrest⟩ := MergeQueue.merged_cons_iff.mp hmerged
    rw [emitEvent_layers]
    exact sortLayers_merged hkeeps.layers hrest
  | exhausted hlayers hkey =>
    rw [hlayers] at hmerged
    obtain ⟨_, hsome, _⟩ := MergeQueue.merged_cons_iff.mp hmerged
    rw [hkey] at hsome
    cases hsome
  | @moves _ _ _ _ new _ _ hlayers _ _ hkeeps =>
    rw [hlayers] at hmerged
    obtain ⟨_, _, _, hrest⟩ := MergeQueue.merged_cons_iff.mp hmerged
    obtain ⟨rest', hlayers', hrest', _⟩ := insertLayers_merged new hkeeps.layers hrest
    exact sortLayers_merged hlayers' hrest'
  | starts _ hlayers _ hkeeps =>
    rw [hlayers] at hmerged
    obtain ⟨_, _, _, hrest⟩ := MergeQueue.merged_cons_iff.mp hmerged
    rw [emitEvent_layers]
    exact sortLayers_merged hkeeps.layers hrest

theorem Run.merged {P : HighlightIter σ ω → Prop} {start : HighlightIter σ ω}
    {events : List HighlightEvent} (hstart : MergedLayers env start.layers)
    (h : Run env P start events iter) : MergedLayers env iter.layers := by
  induction h with
  | start => exact hstart
  | continues _ _ hturn ih | yields _ _ hturn ih => exact (turn_turned hturn).merged trivial ih

/-! ### The boundaries are on time -/

/-- The pending ends of each layer are nested, as far as they had not been passed when the layer
was added. -/
def EndsNested (iter : HighlightIter σ ω) : Prop :=
  ∀ layer ∈ iter.layers,
    layer.highlightEndStack.Pairwise fun inner outer => layer.addedAt ≤ outer → inner ≤ outer

end HighlightIter

/-- The boundaries of a layer have not been passed, except for those that already had been when
the layer was added. -/
structure HighlightIterLayer.Timely (env : Env σ ω) (byteOffset : Nat)
    (layer : HighlightIterLayer σ) : Prop where
  inOrder : InOrder env layer.captures
  next : ∀ captured captures, env.nextCapture layer.captures = some (captured, captures) →
    byteOffset ≤ captured.startByte ∨
      captured.startByte < layer.addedAt ∧ byteOffset = layer.addedAt
  ends : ∀ endByte ∈ layer.highlightEndStack, byteOffset ≤ endByte ∨ endByte < layer.addedAt

/-- The mark of a start or an end. -/
def HighlightEvent.mark? : HighlightEvent → Option Mark
  | .source _ _ => none
  | .highlightStart _ mark | .highlightEnd mark => some mark

/-- The event comes at its position, unless that had been passed when its layer was added. -/
def HighlightEvent.OnTime (byteOffset : Nat) (event : HighlightEvent) : Prop :=
  ∀ mark, event.mark? = some mark → mark.addedAt ≤ mark.position → byteOffset = mark.position

namespace HighlightIter

structure Timely (env : Env σ ω) (iter : HighlightIter σ ω) : Prop where
  layers : ∀ layer ∈ iter.layers, layer.Timely env iter.byteOffset
  pending : ∀ event, iter.nextEvent = some event → event.OnTime iter.byteOffset

end HighlightIter

variable {byteOffset : Nat}

theorem HighlightIterLayer.Timely.advance {offset : Nat} (h : layer.Timely env byteOffset)
    (hkey : layer.sortKey env = some key) (hle : offset ≤ key.offset) (hnested :
      layer.highlightEndStack.Pairwise fun inner outer => layer.addedAt ≤ outer → inner ≤ outer) :
    layer.Timely env offset := by
  obtain ⟨hnext, htop⟩ := sortKey_offset_le hkey
  refine ⟨h.inOrder, fun captured captures heq => ?_, ?_⟩
  · exact .inl (le_trans hle (hnext captured captures heq))
  · cases hstack : layer.highlightEndStack with
    | nil => simp
    | cons endByte ends =>
      have hend := le_trans hle (htop endByte ends hstack)
      rw [hstack, pairwise_cons] at hnested
      refine forall_mem_cons.mpr ⟨.inl hend, fun outer houter => ?_⟩
      rcases le_or_gt layer.addedAt outer with hadded | hadded
      · exact .inl (le_trans hend (hnested.1 outer houter hadded))
      · exact .inr hadded

theorem HighlightIterLayer.Timely.max {offset : Nat} (h : layer.Timely env byteOffset)
    (hkey : layer.sortKey env = some key) (hle : offset ≤ key.offset) (hnested :
      layer.highlightEndStack.Pairwise fun inner outer => layer.addedAt ≤ outer → inner ≤ outer) :
    layer.Timely env (Max.max byteOffset offset) := by
  rcases le_total offset byteOffset with hoffset | hoffset
  · rw [max_eq_left hoffset]
    exact h
  · rw [max_eq_right hoffset]
    exact h.advance hkey hle hnested

theorem HighlightIterLayer.Made.timely (h : layer.Made env byteOffset) (horder : AllInOrder env) :
    layer.Timely env byteOffset := by
  refine ⟨horder _ h.captures, fun captured captures _ => ?_, by simp [h.highlightEndStack]⟩
  rw [h.addedAt]
  omega

/-- The next capture of a layer is taken: those behind it do not start before it. -/
theorem HighlightIter.Takes.timely {layer' : HighlightIterLayer σ} {captured : CapturedMatch}
    (h : HighlightIter.Takes env layer captured layer') (htimely : layer.Timely env byteOffset) :
    layer'.Timely env byteOffset := by
  obtain ⟨captures, hnext, hadvances⟩ := h.next
  have hreaches : Reaches env layer.captures layer'.captures :=
    (Reaches.next .refl hnext).trans hadvances.captures
  refine ⟨htimely.inOrder.reaches hreaches, fun captured' captures' hnext' => ?_, ?_⟩
  · have hstart := (htimely.inOrder _ captured captures .refl hnext).2 _ captured' captures'
      hadvances.captures hnext'
    have hcaptured := htimely.next captured captures hnext
    rw [show layer'.addedAt = layer.addedAt from hadvances.addedAt]
    omega
  · rw [hadvances.highlightEndStack, hadvances.addedAt]
    exact htimely.ends

namespace HighlightIter

variable {iter : HighlightIter σ ω}

theorem emitEvent_timely {offset : Nat} {event : HighlightEvent} (hnone : iter.nextEvent = none)
    (hlayers : ∀ layer ∈ iter.layers, layer.Timely env (max iter.byteOffset offset))
    (hevent : event.OnTime (max iter.byteOffset offset)) :
    (after (emitEvent env iter offset (some event))).Timely env ∧
      ∀ event' iter', emitEvent env iter offset (some event) =
        .returns (some (.ok event')) iter' → event'.OnTime iter'.byteOffset := by
  simp only [emitEvent]
  split
  next hlt =>
    rw [max_eq_right (le_of_lt hlt)] at hlayers hevent
    refine ⟨⟨fun layer hlayer => hlayers layer (MergeQueue.mem_of_mem_settle hlayer), ?_⟩, ?_⟩
    · rintro _ ⟨⟩
      exact hevent
    · rintro _ _ ⟨⟩ mark hmark
      cases hmark
  next hnlt =>
    rw [max_eq_left (not_lt.mp hnlt)] at hlayers hevent
    refine ⟨⟨fun layer hlayer => hlayers layer (MergeQueue.mem_of_mem_settle hlayer), ?_⟩, ?_⟩
    · intro event' (hevent' : iter.nextEvent = some event')
      rw [hnone] at hevent'
      cases hevent'
    · rintro _ _ ⟨⟩
      exact hevent

/-- In a merged list of layers, all of them reach the boundary of the first one. -/
theorem Timely.max {layer : HighlightIterLayer σ} {rest : List (HighlightIterLayer σ)}
    {key : SortKey} (h : iter.Timely env) (hmerged : MergedLayers env iter.layers)
    (hnested : iter.EndsNested) (hlayers : iter.layers = layer :: rest)
    (hkey : layer.sortKey env = some key) :
    ∀ l ∈ iter.layers, l.Timely env (Max.max iter.byteOffset key.offset) := by
  intro l hl
  have hle : ∃ key', l.sortKey env = some key' ∧ key.offset ≤ key'.offset := by
    rw [hlayers] at hl hmerged
    obtain ⟨key₀, hkey₀, hall, hrest⟩ := MergeQueue.merged_cons_iff.mp hmerged
    rw [hkey] at hkey₀
    cases hkey₀
    rcases mem_cons.mp hl with rfl | hl
    · exact ⟨key, hkey, le_rfl⟩
    · obtain ⟨key', hkey'⟩ := Option.isSome_iff_exists.mp (hrest.isSome hl)
      exact ⟨key', hkey', SortKey.offset_le (hall l hl key' hkey')⟩
  obtain ⟨key', hkey', hle⟩ := hle
  exact (h.layers l hl).max hkey' hle (hnested l hl)

theorem Turned.timely {t : Turn σ ω} (horder : AllInOrder env) (h : Turned env iter t)
    (hsucceeds : Succeeds t) (hmerged : MergedLayers env iter.layers) (hnested : iter.EndsNested)
    (htimely : iter.Timely env) :
    (after t).Timely env ∧
      ∀ event iter', t = .returns (some (.ok event)) iter' → event.OnTime iter'.byteOffset := by
  cases h with
  | passesOn hevent =>
    refine ⟨⟨htimely.layers, ?_⟩, ?_⟩
    · rintro _ ⟨⟩
    · rintro _ _ ⟨⟩
      exact htimely.pending _ hevent
  | fails => cases hsucceeds
  | finishes hnone hlayers hkeeps =>
    refine ⟨⟨fun layer hlayer => ?_, fun event hevent => ?_⟩, fun event iter' heq => ?_⟩
    · rw [(finish_keeps _).1, hkeeps.layers] at hlayer
      cases hlayer
    · rw [(finish_keeps _).2, hkeeps.nextEvent, hnone] at hevent
      cases hevent
    · simp only [finish] at heq
      split at heq <;> cases heq
      intro mark hmark
      cases hmark
  | @ends iter' layer rest endByte ends hnone hlayers hstack hle hkeeps =>
    have hkey := sortKey_of_ends hstack hle
    have hmax := htimely.max hmerged hnested hlayers hkey
    obtain ⟨hbyte, hnext, hlayers'⟩ := hkeeps
    have hlayer : layer ∈ iter.layers := by simp [hlayers]
    refine emitEvent_timely (hnext.trans hnone) ?_ ?_
    · rw [hlayers] at hmax
      rw [hlayers', hbyte]
      obtain ⟨hfirst, hrest⟩ := forall_mem_cons.mp hmax
      refine forall_mem_cons.mpr ⟨⟨hfirst.inOrder, hfirst.next, ?_⟩, hrest⟩
      exact fun outer houter => hfirst.ends outer (by simp [hstack, houter])
    · rintro mark ⟨⟩ hadded
      have hend := (htimely.layers layer hlayer).ends endByte (by simp [hstack])
      dsimp only at hadded ⊢
      rw [hbyte]
      omega
  | exhausted hlayers hkey =>
    rw [hlayers] at hmerged
    obtain ⟨_, hsome, _⟩ := MergeQueue.merged_cons_iff.mp hmerged
    rw [hkey] at hsome
    cases hsome
  | @moves iter' layer layer' rest new captured hnone hlayers htakes hnew hkeeps =>
    obtain ⟨hbyte, hnext, hlayers'⟩ := hkeeps
    have hall := htimely.layers
    rw [hlayers] at hall hmerged
    obtain ⟨hfirst, hrest⟩ := forall_mem_cons.mp hall
    obtain ⟨_, _, _, hmerged'⟩ := MergeQueue.merged_cons_iff.mp hmerged
    obtain ⟨rest', hlayers'', _, hmem⟩ := insertLayers_merged new hlayers' hmerged'
    obtain ⟨hbyte', hnext'⟩ := insertLayers_keeps env new iter'
    refine ⟨⟨fun l hl => ?_, ?_⟩, by rintro _ _ ⟨⟩⟩
    · have hl' := MergeQueue.mem_of_mem_settle hl
      rw [hlayers''] at hl'
      show l.Timely env (new.foldl (insertLayer env) iter').byteOffset
      rw [hbyte', hbyte]
      rcases mem_cons.mp hl' with rfl | hl'
      · exact htakes.timely hfirst
      · rcases hmem l hl' with hl' | hl'
        · exact (hnew l hl').timely horder
        · exact hrest l hl'
    · intro event (hevent : (new.foldl (insertLayer env) iter').nextEvent = some event)
      rw [hnext', hnext, hnone] at hevent
      cases hevent
  | @starts iter' layer layer' rest captured highlight hnone hlayers htakes hkeeps =>
    have hkey := htakes.sortKey
    have hmax := htimely.max hmerged hnested hlayers hkey
    have hlayer : layer ∈ iter.layers := by simp [hlayers]
    obtain ⟨captures, hcaptured, hadvances⟩ := htakes.next
    have hcases := (htimely.layers layer hlayer).next captured captures hcaptured
    have hend := ((htimely.layers layer hlayer).inOrder _ captured captures .refl hcaptured).1
    obtain ⟨hbyte, hnext, hlayers'⟩ := hkeeps
    have hadded : layer'.addedAt = layer.addedAt := hadvances.addedAt
    refine emitEvent_timely (hnext.trans hnone) ?_ ?_
    · rw [hlayers] at hmax
      rw [hlayers', hbyte]
      obtain ⟨hfirst, hrest⟩ := forall_mem_cons.mp hmax
      obtain ⟨horder', hnext', hends'⟩ := htakes.timely hfirst
      refine forall_mem_cons.mpr ⟨⟨horder', hnext', ?_⟩, hrest⟩
      refine forall_mem_cons.mpr ⟨?_, hends'⟩
      show max iter.byteOffset captured.startByte ≤ _ ∨ _ < layer'.addedAt
      omega
    · rintro mark ⟨⟩ hadded'
      dsimp only at hadded' ⊢
      rw [hbyte]
      omega

variable {start : HighlightIter σ ω} {layers : List (HighlightIterLayer σ)}

theorem Run.timely {events : List HighlightEvent}
    (horder : AllInOrder env) (hmerged : MergedLayers env start.layers)
    (hstart : start.Timely env) (h : Run env EndsNested start events iter) :
    iter.Timely env := by
  induction h with
  | start => exact hstart
  | continues hrun hP hturn ih | yields hrun hP hturn ih =>
    exact ((turn_turned hturn).timely horder trivial (hrun.merged hmerged) hP ih).1

/-! ### The layers of a document -/

theorem highlight_start {fuel : Nat} {config : HighlightConfiguration} {world world' : ω}
    (hlayers : newLayers env none 0 fuel (config, 0, [wholeRange]) [] [] world =
      some (.ok layers, world'))
    (hstart : highlight env fuel config world = some (.ok start)) :
    start = (HighlightIter.start layers world').sortLayers env := by
  simp only [highlight, hlayers, Option.bind_eq_bind, Option.bind_some] at hstart
  split at hstart
  · cases hstart
  · cases hstart
    rfl

/-- The layers are in order at every step if and only if those behind the first one are when they
are made; and then every boundary is on time, where the pending ends of each layer are nested. -/
theorem Run.merged_iff_onTime {fuel : Nat} {config : HighlightConfiguration} {world world' : ω}
    {layers : List (HighlightIterLayer σ)} {start : HighlightIter σ ω}
    (hlayers : newLayers env none 0 fuel (config, 0, [wholeRange]) [] [] world =
      some (.ok layers, world'))
    (hstart : highlight env fuel config world = some (.ok start)) :
    ((∀ events iter, Run env (fun _ => True) start events iter → MergedLayers env iter.layers) ↔
      MergedLayers env (layersBehind env layers)) ∧
    (MergedLayers env (layersBehind env layers) → AllInOrder env →
      ∀ events iter, Run env EndsNested start events iter → EndsNested iter →
        (∀ layer rest, iter.layers = layer :: rest → ∃ key, layer.sortKey env = some key ∧
          ∀ l ∈ rest, ∀ key', l.sortKey env = some key' → key ≤ key') ∧
        ∀ fuel' event iter', turn env fuel' iter = some (.returns (some (.ok event)) iter') →
          event.OnTime iter'.byteOffset) := by
  have heq := highlight_start hlayers hstart
  have hmerged : MergedLayers env start.layers ↔ MergedLayers env (layersBehind env layers) := by
    rw [heq]
    exact MergeQueue.merged_settle_iff
  refine ⟨⟨fun h => hmerged.mp (h [] start .start), fun h events iter hrun => ?_⟩, ?_⟩
  · exact hrun.merged (hmerged.mpr h)
  · intro hbehind horder events iter hrun hnested
    have hmergedStart := hmerged.mpr hbehind
    have hmergedIter := hrun.merged hmergedStart
    have htimely : start.Timely env := by
      rw [heq]
      refine ⟨fun layer hlayer => ?_, by rintro _ ⟨⟩⟩
      have hmade := newLayers_made (by simp) hlayers
      exact (hmade layer (MergeQueue.mem_of_mem_settle hlayer)).timely horder
    refine ⟨fun layer rest hiter => ?_, fun fuel' event iter' hturn => ?_⟩
    · rw [hiter] at hmergedIter
      obtain ⟨key, hkey, hle, _⟩ := MergeQueue.merged_cons_iff.mp hmergedIter
      exact ⟨key, hkey, hle⟩
    · exact ((turn_turned hturn).timely horder trivial hmergedIter hnested
        (hrun.timely horder hmergedStart htimely)).2 event iter' rfl

/-! ### Two combined injections -/

/-- A configuration with two combined injections, into documents of the plain one. -/
def combinedConfiguration : HighlightConfiguration :=
  { plainConfiguration with
    combinedInjectionsQuery := some ⟨2, fun _ => [("injection.language", some "inner")]⟩
    injectionContentCaptureIndex := some 0 }

/-- A match of the combined injection `pattern`, whose content is the byte at `position`. -/
def injectionMatch (pattern position : Nat) : QueryMatch :=
  ⟨pattern, pattern, [⟨lineNode position position (position + 1), 0⟩]⟩

/-- A source of eight bytes, of which those at 0 and 6 are highlighted, with two combined
injections that highlight their first byte. -/
def combinedDocument (first second : Nat) : Env (List CapturedMatch) Unit :=
  .ofLists ⟨.replicate 8 97⟩
    (fun _ ranges world =>
      if ranges = [wholeRange] then
        (.tree [injectionMatch 0 first, injectionMatch 1 second]
          [captureOf (lineNode 0 0 1), captureOf (lineNode 6 6 7)], world)
      else
        (.tree [] (ranges.head?.toList.map fun range =>
          captureOf (lineNode range.startByte range.startByte (range.startByte + 1))), world))
    (fun _ world => (some plainConfiguration, world))

theorem combinedDocument_allInOrder (first second : Nat) :
    AllInOrder (combinedDocument first second) := by
  intro captures ⟨config, ranges, world, injections, world', hparse⟩
  have hcaptures : captures.Pairwise (fun c c' => c.startByte ≤ c'.startByte) ∧
      ∀ c ∈ captures, c.startByte ≤ c.endByte := by
    simp only [combinedDocument, Env.ofLists] at hparse
    split at hparse
    · cases hparse
      exact ⟨by decide, by decide⟩
    · cases hparse
      cases ranges with
      | nil => simp
      | cons range ranges => simp [captureOf, lineNode, CapturedMatch.startByte,
          CapturedMatch.endByte, CapturedMatch.capture]
  exact Env.ofLists_inOrder hcaptures.1 hcaptures.2

theorem MergedLayers.offsets (h : MergedLayers env layers) {offsets : List Nat}
    (hoffsets : (layers.map (HighlightIterLayer.sortKey env)).map (Option.map SortKey.offset) =
      offsets.map some) : offsets.Pairwise (· ≤ ·) := by
  obtain ⟨keys, hkeys, hsorted⟩ := h
  have heq : offsets = keys.map SortKey.offset := by
    rw [hkeys, map_map] at hoffsets
    refine map_injective_iff.mpr (Option.some_injective Nat) ?_
    rw [← hoffsets, map_map]
    rfl
  rw [heq]
  exact hsorted.map _ fun _ _ hle => SortKey.offset_le hle

/-- The second injection comes before the first one in the source. Its highlight at 3 is the
earliest boundary behind the first byte, but it starts when the iteration is at 5. -/
theorem not_merged_combinedDocument : AllInOrder (combinedDocument 5 3) ∧ ∃ start iter,
    highlight (combinedDocument 5 3) 9 combinedConfiguration () = some (.ok start) ∧
    ¬ MergedLayers (combinedDocument 5 3) start.layers ∧
    Iterates (combinedDocument 5 3) start
      [.highlightStart ⟨0⟩ ⟨0, 0⟩, .source 0 1, .highlightEnd ⟨1, 0⟩, .source 1 5,
        .highlightStart ⟨0⟩ ⟨5, 0⟩, .highlightStart ⟨0⟩ ⟨3, 0⟩] iter ∧
    ¬ (HighlightEvent.highlightStart ⟨0⟩ ⟨3, 0⟩).OnTime iter.byteOffset := by
  have hrun : ((highlight (combinedDocument 5 3) 9 combinedConfiguration ()).bind fun result =>
      result.toOption.bind fun start => (take (combinedDocument 5 3) 9 6 start).map fun taken =>
        ((start.layers.map (HighlightIterLayer.sortKey (combinedDocument 5 3))).map
          (Option.map SortKey.offset), taken.1, taken.2.byteOffset)) =
      some ([some 0, some 5, some 3],
        [.highlightStart ⟨0⟩ ⟨0, 0⟩, .source 0 1, .highlightEnd ⟨1, 0⟩, .source 1 5,
          .highlightStart ⟨0⟩ ⟨5, 0⟩, .highlightStart ⟨0⟩ ⟨3, 0⟩], 5) := by decide +kernel
  obtain ⟨result, hresult, hrun⟩ := Option.bind_eq_some_iff.mp hrun
  cases result with
  | error error => cases hrun
  | ok start =>
    obtain ⟨⟨events, iter⟩, htake, heq⟩ := Option.map_eq_some_iff.mp hrun
    simp only [Prod.mk.injEq] at heq
    obtain ⟨hoffsets, rfl, hbyte⟩ := heq
    refine ⟨combinedDocument_allInOrder 5 3, start, iter, hresult, fun hmerged => ?_,
      take_iterates .start htake, fun hontime => ?_⟩
    · have hsorted : [0, 5, 3].Pairwise (· ≤ ·) := MergedLayers.offsets hmerged hoffsets
      exact absurd hsorted (by decide)
    · have := hontime ⟨3, 0⟩ rfl (Nat.zero_le _)
      rw [hbyte] at this
      cases this

/-- The injections are made in the order in which they stand in the source. -/
theorem Run.merged_iff_onTime_combinedDocument : ∃ start,
    highlight (combinedDocument 3 5) 9 combinedConfiguration () = some (.ok start) ∧
    (∀ events iter, Run (combinedDocument 3 5) (fun _ => True) start events iter →
      MergedLayers (combinedDocument 3 5) iter.layers) ∧
    ∀ events iter, Run (combinedDocument 3 5) EndsNested start events iter → EndsNested iter →
      ∀ fuel' event iter', turn (combinedDocument 3 5) fuel' iter =
        some (.returns (some (.ok event)) iter') → event.OnTime iter'.byteOffset := by
  have hrun : ((newLayers (combinedDocument 3 5) none 0 9 (combinedConfiguration, 0, [wholeRange])
      [] [] ()).bind fun result => result.1.toOption.bind fun layers =>
        some (layers.isEmpty, (layersBehind (combinedDocument 3 5) layers).map
          (HighlightIterLayer.sortKey (combinedDocument 3 5)))) =
      some (false, [some (.mk 3 true 1), some (.mk 5 true 1)]) := by decide +kernel
  obtain ⟨⟨result, world'⟩, hlayers, hrun⟩ := Option.bind_eq_some_iff.mp hrun
  cases result with
  | error error => cases hrun
  | ok layers =>
    simp only [Except.toOption, Option.bind_some, Option.some.injEq, Prod.mk.injEq] at hrun
    have hstart : highlight (combinedDocument 3 5) 9 combinedConfiguration () =
        some (.ok ((HighlightIter.start layers world').sortLayers (combinedDocument 3 5))) := by
      have hne : layers ≠ [] := by simpa using hrun.1
      simp [highlight, hlayers, hne]
    have hbehind : MergedLayers (combinedDocument 3 5)
        (layersBehind (combinedDocument 3 5) layers) :=
      ⟨[.mk 3 true 1, .mk 5 true 1], hrun.2, by decide⟩
    obtain ⟨hiff, hontime⟩ := Run.merged_iff_onTime hlayers hstart
    refine ⟨_, hstart, hiff.mpr hbehind, fun events iter hevents hnested => ?_⟩
    exact (hontime hbehind (combinedDocument_allInOrder 3 5) events iter hevents hnested).2

end HighlightIter

end TreeSitter.Highlighter
