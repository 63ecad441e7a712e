import TreeSitter.Highlight.EventShape
import TreeSitter.Highlight.LayerOrder

/-!
# TreeSitter.Highlight.Extents

The **extent of a highlight** in the event stream: a start and the end that closes it in stack
discipline, each with the byte offset at which it is emitted (`extents`).

The pending ends of a layer are a stack, and only its top is compared with the next capture. As
long as that stack is in order and has not been passed (`InTime`), every highlight covers exactly
its node. Popping an end keeps this and loses nothing of it; pushing one keeps it if and only if
the node that is highlighted ends no later than the innermost pending highlight (`Fits`).
-/

namespace TreeSitter.Highlighter

open Option List Library

variable {σ ω : Type} {env : Env σ ω}

/-! ### Starts and ends, matched -/

/-- The starts and ends of highlights, matched in stack discipline. A highlight that is open has
its number and its start; one that is closed has its end, too. -/
structure Extents where
  started : Nat
  opened : List (Nat × Nat)
  closed : List (Nat × Nat × Nat)

def Extents.emit (extents : Extents) : HighlightEvent × Nat → Extents
  | (.source _ _, _) => extents
  | (.highlightStart _ _, offset) =>
    { extents with
      started := extents.started + 1, opened := (extents.started, offset) :: extents.opened }
  | (.highlightEnd _, offset) =>
    match extents.opened with
    | [] => extents
    | (number, start) :: opened =>
      { extents with opened, closed := (number, start, offset) :: extents.closed }

def extents (emitted : List (HighlightEvent × Nat)) : Extents :=
  emitted.foldl Extents.emit ⟨0, [], []⟩

@[simp]
theorem extents_append (emitted more : List (HighlightEvent × Nat)) :
    extents (emitted ++ more) = more.foldl Extents.emit (extents emitted) :=
  foldl_append

theorem Extents.closed_emit (extents : Extents) (emitted : HighlightEvent × Nat) :
    extents.closed ⊆ (extents.emit emitted).closed := by
  obtain ⟨event, offset⟩ := emitted
  cases event with
  | source | highlightStart => exact List.Subset.refl _
  | highlightEnd mark =>
    simp only [emit]
    split
    · exact List.Subset.refl _
    · exact subset_cons_self _ _

namespace HighlightIter

/-! ### The turns of a run -/

/-- The turns of a run, each with the iterator that it is taken on. None of them fails. -/
inductive Steps (env : Env σ ω) (start : HighlightIter σ ω) :
    List (HighlightIter σ ω × Turn σ ω) → HighlightIter σ ω → Prop where
  | start : Steps env start [] start
  | step {steps : List (HighlightIter σ ω × Turn σ ω)} {iter : HighlightIter σ ω} {fuel : Nat}
      {t : Turn σ ω} (h : Steps env start steps iter) (hturn : turn env fuel iter = some t)
      (hsucceeds : Succeeds t) : Steps env start (steps ++ [(iter, t)]) (after t)

/-- The event that a turn returns, and the byte offset at which it does. -/
def emission : Turn σ ω → Option (HighlightEvent × Nat)
  | .returns (some (.ok event)) iter => some (event, iter.byteOffset)
  | _ => none

def emissions (steps : List (HighlightIter σ ω × Turn σ ω)) : List (HighlightEvent × Nat) :=
  steps.filterMap fun step => emission step.2

/-- The event that a turn has come to: it waits behind the source, or is returned. -/
def announced : Turn σ ω → Option HighlightEvent
  | .returns (some (.ok event)) iter => some (iter.nextEvent.getD event)
  | _ => none

/-- The next capture of the first layer. -/
def upcoming (env : Env σ ω) (iter : HighlightIter σ ω) : Option CapturedMatch :=
  iter.layers.head?.bind fun layer => (env.nextCapture layer.captures).map Prod.fst

/-- The capture whose node a turn highlights. -/
def highlighted (env : Env σ ω) (step : HighlightIter σ ω × Turn σ ω) : Option CapturedMatch :=
  match step.1.nextEvent, announced step.2 with
  | none, some (.highlightStart _ _) => upcoming env step.1
  | _, _ => none

/-- The nodes that have been highlighted, in the order of their highlights. -/
def highlightedNodes (env : Env σ ω) (steps : List (HighlightIter σ ω × Turn σ ω)) :
    List (Nat × Nat) :=
  steps.filterMap fun step =>
    (highlighted env step).map fun captured => (captured.startByte, captured.endByte)

/-- Every highlight that has ended covers its node. -/
def Covers (env : Env σ ω) (steps : List (HighlightIter σ ω × Turn σ ω)) : Prop :=
  ∀ c ∈ (extents (emissions steps)).closed, (highlightedNodes env steps)[c.1]? = some c.2

instance (env : Env σ ω) (steps : List (HighlightIter σ ω × Turn σ ω)) :
    Decidable (Covers env steps) :=
  inferInstanceAs (Decidable (∀ c ∈ _, _ = _))

/-- The pending ends, the innermost one first. -/
def ends (iter : HighlightIter σ ω) : List Nat :=
  iter.layers.flatMap HighlightIterLayer.highlightEndStack

/-- There is one layer at most, and it has been there from the start. -/
def Single (iter : HighlightIter σ ω) : Prop :=
  iter.layers.length ≤ 1 ∧ ∀ layer ∈ iter.layers, layer.addedAt = 0

instance (iter : HighlightIter σ ω) : Decidable iter.Single :=
  inferInstanceAs (Decidable (_ ∧ _))

/-- If the step highlights a node, it ends no later than the innermost highlight that pends. -/
def Fits (env : Env σ ω) (step : HighlightIter σ ω × Turn σ ω) : Prop :=
  ∀ captured ∈ highlighted env step, ∀ endByte ∈ step.1.ends.head?, captured.endByte ≤ endByte


/-! ### What a run keeps -/

/-- What is emitted and what still waits, the highlighted nodes and the iterator go together: the
pending ends are those of the open highlights, each of which starts where its node does. -/
structure Traced (env : Env σ ω) (history : List (HighlightEvent × Nat))
    (nodes : List (Nat × Nat)) (iter : HighlightIter σ ω) : Prop where
  live : iter.HeadLive env
  inOrder : ∀ layer ∈ iter.layers, InOrder env layer.captures
  ahead : ∀ layer ∈ iter.layers, ∀ captured captures,
    env.nextCapture layer.captures = some (captured, captures) →
      iter.byteOffset ≤ captured.startByte
  started : (extents history).started = nodes.length
  opened : List.Forall₂ (fun endByte o => nodes[o.1]? = some (o.2, endByte)) iter.ends
    (extents history).opened
  closed : ∀ c ∈ (extents history).closed, ∃ endByte, nodes[c.1]? = some (c.2.1, endByte)

/-- What has ended covers its node, and what pends is in order and has not been passed. -/
structure InTime (history : List (HighlightEvent × Nat)) (nodes : List (Nat × Nat))
    (iter : HighlightIter σ ω) : Prop where
  covers : ∀ c ∈ (extents history).closed, nodes[c.1]? = some c.2
  sorted : iter.ends.Pairwise (· ≤ ·)
  notPassed : ∀ endByte ∈ iter.ends, iter.byteOffset ≤ endByte

/-- The event that waits is emitted at the byte offset that has been reached. -/
def waiting (iter : HighlightIter σ ω) : Option (HighlightEvent × Nat) :=
  iter.nextEvent.map fun event => (event, iter.byteOffset)

/-- What a turn emits, and what waits after it. -/
def heard (t : Turn σ ω) : List (HighlightEvent × Nat) :=
  (emission t).toList ++ (after t).waiting.toList

variable {history : List (HighlightEvent × Nat)} {nodes : List (Nat × Nat)}
  {iter : HighlightIter σ ω}

variable {layer : HighlightIterLayer σ}

theorem ends_of_layers (h : iter.layers = [layer]) :
    iter.ends = layer.highlightEndStack := by
  simp [ends, h]

theorem ends_sortLayers {rest : List (HighlightIterLayer σ)}
    (hlayers : iter.layers = layer :: rest) (hrest : ∀ l ∈ rest, l.highlightEndStack = []) :
    (iter.sortLayers env).ends = layer.highlightEndStack := by
  show (MergeQueue.settle _ iter.layers).flatMap _ = _
  rw [hlayers]
  exact MergeQueue.flatMap_settle_cons
    (fun hkey => eq_nil_of_length_eq_zero (sortKey_eq_none env layer hkey)) hrest

theorem Single.rest {rest : List (HighlightIterLayer σ)} (h : iter.Single)
    (hlayers : iter.layers = layer :: rest) : rest = [] := by
  have hlength := h.1
  rw [hlayers] at hlength
  exact eq_nil_of_length_eq_zero (Nat.le_zero.mp (Nat.le_of_succ_le_succ hlength))

theorem emitEvent_heard (env : Env σ ω) (history : List (HighlightEvent × Nat)) (offset : Nat)
    (event : HighlightEvent) (hnone : iter.nextEvent = none) :
    (extents (history ++ heard (emitEvent env iter offset (some event))) =
        (extents history).emit (event, max iter.byteOffset offset)) ∧
      (after (emitEvent env iter offset (some event))).byteOffset =
        max iter.byteOffset offset ∧
      announced (emitEvent env iter offset (some event)) = some event := by
  simp only [emitEvent]
  split
  next hlt =>
    rw [max_eq_right (le_of_lt hlt), extents_append]
    exact ⟨rfl, rfl, rfl⟩
  next hnlt =>
    rw [max_eq_left (not_lt.mp hnlt), extents_append]
    simp [heard, emission, after, announced, waiting, sortLayers, hnone]

theorem emitEvent_single (env : Env σ ω) (offset : Nat) (event : HighlightEvent)
    (hlayers : iter.layers = [layer]) :
    (after (emitEvent env iter offset (some event))).ends = layer.highlightEndStack ∧
      (after (emitEvent env iter offset (some event))).HeadLive env ∧
      ∀ l ∈ (after (emitEvent env iter offset (some event))).layers, l = layer := by
  have hends : (iter.sortLayers env).ends = layer.highlightEndStack :=
    ends_sortLayers hlayers (by simp)
  simp only [ends, HeadLive] at hends ⊢
  rw [emitEvent_layers]
  refine ⟨hends, sortLayers_headLive iter, fun l hl => ?_⟩
  have hl' := MergeQueue.mem_of_mem_settle hl
  rw [hlayers] at hl'
  exact mem_singleton.mp hl'

theorem Traced.getElem?_append {number : Nat} {node : Nat × Nat} (more : List (Nat × Nat))
    (h : nodes[number]? = some node) : (nodes ++ more)[number]? = some node := by
  rw [List.getElem?_append_left (List.getElem?_eq_some_iff.mp h).1, h]

/-! ### One turn -/

variable {iter' : HighlightIter σ ω}
variable {t : Turn σ ω} {layer' : HighlightIterLayer σ} {captured : CapturedMatch}
  {captures : List CapturedMatch}

/-- A highlight ends: all is in time after it if and only if it was before. -/
theorem Traced.ends_turn {endByte : Nat} {ends : List Nat} {mark : Mark}
    (h : Traced env history nodes iter) (hlayers : iter.layers = [layer])
    (hstack : layer.highlightEndStack = endByte :: ends) (hle : ∀ captured captures,
      env.nextCapture layer.captures = some (captured, captures) → endByte ≤ captured.startByte)
    (hkeeps : iter.Keeps iter' [{ layer with highlightEndStack := ends }])
    (hnone : iter.nextEvent = none)
    (ht : emitEvent env iter' endByte (some (.highlightEnd mark)) = t) :
    Traced env (history ++ heard t) nodes (after t) ∧
      (InTime (history ++ heard t) nodes (after t) ↔ InTime history nodes iter) := by
  obtain ⟨hbyte, hnext, hlayers'⟩ := hkeeps
  obtain ⟨hheard, hafter, -⟩ := emitEvent_heard env history endByte (.highlightEnd mark)
    (hnext.trans hnone)
  obtain ⟨hends', hlive, hlayer⟩ := emitEvent_single env endByte (.highlightEnd mark) hlayers'
  rw [ht] at hheard hafter hends' hlive hlayer
  rw [hbyte] at hheard hafter
  have hends : iter.ends = endByte :: ends := (ends_of_layers hlayers).trans hstack
  -- the end closes the innermost open highlight
  have hopened := h.opened
  rw [hends] at hopened
  obtain ⟨⟨number, start⟩, opened, hnode, hopened', hopen⟩ :=
    forall₂_cons_left_iff.mp hopened
  have hemit : (extents history).emit (.highlightEnd mark, max iter.byteOffset endByte) =
      { extents history with
        opened, closed := (number, start, max iter.byteOffset endByte) :: (extents history).closed }
      := by
    simp only [Extents.emit, hopen]
  rw [hemit] at hheard
  have hold : layer ∈ iter.layers := by simp [hlayers]
  refine ⟨⟨hlive, ?_, ?_, ?_, ?_, ?_⟩, ?_⟩
  · intro l hl
    rw [hlayer l hl]
    exact h.inOrder layer hold
  · intro l hl captured captures hcaptured
    rw [hlayer l hl] at hcaptured
    rw [hafter]
    exact max_le (h.ahead layer hold captured captures hcaptured) (hle captured captures hcaptured)
  · rw [hheard]
    exact h.started
  · rw [hheard, hends']
    exact hopened'
  · rw [hheard]
    exact forall_mem_cons.mpr ⟨⟨endByte, hnode⟩, h.closed⟩
  · constructor
    · intro ⟨hcovers, hsorted, hpassed⟩
      rw [hheard] at hcovers
      rw [hends'] at hsorted hpassed
      rw [hafter] at hpassed
      obtain ⟨hcovered, hcovers⟩ := forall_mem_cons.mp hcovers
      -- the highlight covers its node only where its end had not been passed
      have hreached : endByte = max iter.byteOffset endByte := by
        rw [hnode] at hcovered
        exact congrArg Prod.snd (Option.some.inj hcovered)
      refine ⟨hcovers, ?_, ?_⟩
      · rw [hends]
        exact pairwise_cons.mpr ⟨fun e he => hreached ▸ hpassed e he, hsorted⟩
      · rw [hends]
        refine forall_mem_cons.mpr ⟨?_, fun e he => ?_⟩
        · exact hreached ▸ le_max_left _ _
        · exact le_trans (le_max_left _ _) (hpassed e he)
    · intro ⟨hcovers, hsorted, hpassed⟩
      rw [hends] at hsorted hpassed
      obtain ⟨hpassed, -⟩ := forall_mem_cons.mp hpassed
      obtain ⟨hinner, hsorted⟩ := pairwise_cons.mp hsorted
      rw [max_eq_right hpassed] at hheard hafter
      refine ⟨?_, ?_, ?_⟩
      · rw [hheard]
        exact forall_mem_cons.mpr ⟨hnode, hcovers⟩
      · rw [hends']
        exact hsorted
      · rw [hends', hafter]
        exact hinner

/-- A highlight starts: all is in time after it if and only if it was before, and the node fits
into the innermost highlight that pends. -/
theorem Traced.starts_turn {highlight : Highlight} {mark : Mark} (h : Traced env history nodes iter)
    (hlayers : iter.layers = [layer]) (htakes : Takes env layer captured layer') (hkeeps :
      iter.Keeps iter' [{ layer' with highlightEndStack := captured.endByte ::
      layer'.highlightEndStack }]) (hnone : iter.nextEvent = none)
    (ht : emitEvent env iter' captured.startByte (some (.highlightStart highlight mark)) = t) :
    Traced env (history ++ heard t) (nodes ++ [(captured.startByte, captured.endByte)])
        (after t) ∧
      (InTime (history ++ heard t) (nodes ++ [(captured.startByte, captured.endByte)]) (after t) ↔
        InTime history nodes iter ∧ ∀ endByte ∈ iter.ends.head?, captured.endByte ≤ endByte) := by
  obtain ⟨hbyte, hnext, hlayers'⟩ := hkeeps
  obtain ⟨hheard, hafter, -⟩ := emitEvent_heard env history captured.startByte
    (.highlightStart highlight mark) (hnext.trans hnone)
  obtain ⟨hends', hlive, hlayer⟩ := emitEvent_single env captured.startByte
    (.highlightStart highlight mark) hlayers'
  rw [ht] at hheard hafter hends' hlive hlayer
  have hold : layer ∈ iter.layers := by simp [hlayers]
  obtain ⟨captures, hcaptured, hadvances⟩ := htakes.next
  have hstart : iter.byteOffset ≤ captured.startByte := h.ahead layer hold _ _ hcaptured
  obtain ⟨hrange, hlater⟩ := h.inOrder layer hold _ _ _ .refl hcaptured
  rw [hbyte, max_eq_right hstart] at hheard hafter
  have hends : iter.ends = layer.highlightEndStack := ends_of_layers hlayers
  have hstack : layer'.highlightEndStack = layer.highlightEndStack := hadvances.highlightEndStack
  rw [hstack, ← hends] at hends'
  have hemit : (extents history).emit (.highlightStart highlight mark, captured.startByte) =
      { extents history with
        started := (extents history).started + 1
        opened := ((extents history).started, captured.startByte) :: (extents history).opened } :=
    rfl
  rw [hemit] at hheard
  refine ⟨⟨hlive, ?_, ?_, ?_, ?_, ?_⟩, ?_⟩
  · intro l hl
    rw [hlayer l hl]
    exact (h.inOrder layer hold).reaches
      ((Reaches.next .refl hcaptured).trans hadvances.captures)
  · intro l hl captured' captures' hcaptured'
    rw [hlayer l hl] at hcaptured'
    rw [hafter]
    exact hlater _ captured' captures' hadvances.captures hcaptured'
  · rw [hheard, length_append, ← h.started]
    rfl
  · rw [hheard, hends']
    refine .cons ?_ (h.opened.imp fun endByte o ho => Traced.getElem?_append _ ho)
    rw [h.started, getElem?_append_right le_rfl, Nat.sub_self]
    rfl
  · rw [hheard]
    exact fun c hc => (h.closed c hc).imp fun endByte hnode => Traced.getElem?_append _ hnode
  · constructor
    · intro ⟨hcovers, hsorted, hpassed⟩
      rw [hheard] at hcovers
      rw [hends'] at hsorted hpassed
      rw [hafter] at hpassed
      obtain ⟨hinner, hsorted⟩ := pairwise_cons.mp hsorted
      obtain ⟨-, hpassed⟩ := forall_mem_cons.mp hpassed
      refine ⟨⟨fun c hc => ?_, hsorted, fun e he => le_trans hstart (hpassed e he)⟩, ?_⟩
      · -- the node of a highlight that has ended was known before
        obtain ⟨endByte, hnode⟩ := h.closed c hc
        have hcovered := hcovers c hc
        rw [Traced.getElem?_append _ hnode] at hcovered
        rw [hnode, hcovered]
      · exact fun endByte hhead => hinner endByte (mem_of_mem_head? hhead)
    · intro ⟨⟨hcovers, hsorted, hpassed⟩, hfits⟩
      have hinside : ∀ e ∈ iter.ends, captured.endByte ≤ e ∧ captured.startByte ≤ e := by
        intro e he
        cases hcons : iter.ends with
        | nil => simp [hcons] at he
        | cons top ends =>
          rw [hcons] at he hsorted hfits
          have hfit : captured.endByte ≤ top := hfits top rfl
          have hbefore := htakes.before top ends (hends ▸ hcons)
          rcases mem_cons.mp he with rfl | he
          · exact ⟨hfit, le_of_lt hbefore⟩
          · have htop := (pairwise_cons.mp hsorted).1 e he
            exact ⟨le_trans hfit htop, le_trans (le_of_lt hbefore) htop⟩
      refine ⟨?_, ?_, ?_⟩
      · rw [hheard]
        exact fun c hc => Traced.getElem?_append _ (hcovers c hc)
      · rw [hends']
        exact pairwise_cons.mpr ⟨fun e he => (hinside e he).1, hsorted⟩
      · rw [hends', hafter]
        exact forall_mem_cons.mpr ⟨hrange, fun e he => (hinside e he).2⟩

/-- Captures are taken and no highlight starts. Of the layers that are added, only those stay
that have been there from the start. -/
theorem Traced.moves_turn {new : List (HighlightIterLayer σ)}
    (horder : AllInOrder env) (h : Traced env history nodes iter)
    (hlayers : iter.layers = [layer]) (htakes : Takes env layer captured layer')
    (hnew : ∀ l ∈ new, l.Made env iter.byteOffset) (hkeeps : iter.Keeps iter' [layer'])
    (hnone : iter.nextEvent = none)
    (ht : .continues (sortLayers env (new.foldl (insertLayer env) iter')) = t)
    (hsingle : (after t).Single) :
    Traced env (history ++ heard t) nodes (after t) ∧
      (InTime (history ++ heard t) nodes (after t) ↔ InTime history nodes iter) := by
  obtain ⟨hbyte, hnext, hlayers'⟩ := hkeeps
  obtain ⟨rest, hinserted, -, hrest⟩ := insertLayers_merged new hlayers' MergeQueue.merged_nil
  obtain ⟨hbyte', hnext'⟩ := insertLayers_keeps env new iter'
  have hmade : ∀ l ∈ rest, l ∈ new := fun l hl => (hrest l hl).resolve_right (by simp)
  have hold : layer ∈ iter.layers := by simp [hlayers]
  obtain ⟨captures, hcaptured, hadvances⟩ := htakes.next
  have hheard : history ++ heard t = history := by
    rw [← ht]
    simp [heard, emission, after, waiting, sortLayers, hnext', hnext, hnone]
  have hafter : (after t).byteOffset = iter.byteOffset := by
    rw [← ht]
    exact hbyte'.trans hbyte
  have hends : (after t).ends = iter.ends := by
    rw [← ht, ends_of_layers hlayers, ← hadvances.highlightEndStack]
    exact ends_sortLayers hinserted fun l hl => (hnew l (hmade l hl)).highlightEndStack
  have hlayer : ∀ l ∈ (after t).layers, l = layer' ∨ l ∈ new := by
    intro l hl
    rw [← ht] at hl
    have hl' := MergeQueue.mem_of_mem_settle hl
    rw [hinserted] at hl'
    exact (mem_cons.mp hl').imp_right (hmade l)
  refine ⟨⟨?_, ?_, ?_, ?_, ?_, ?_⟩, ?_⟩
  · rw [← ht]
    exact sortLayers_headLive _
  · intro l hl
    rcases hlayer l hl with rfl | hl
    · exact (h.inOrder layer hold).reaches
        ((Reaches.next .refl hcaptured).trans hadvances.captures)
    · exact horder _ (hnew l hl).captures
  · intro l hl captured' captures' hcaptured'
    rw [hafter]
    rcases hlayer l hl with rfl | hl'
    · exact le_trans (h.ahead layer hold _ _ hcaptured)
        ((h.inOrder layer hold _ _ _ .refl hcaptured).2 _ _ _ hadvances.captures hcaptured')
    · -- a layer that has been there from the start is added there
      have hadded := hsingle.2 l hl
      rw [(hnew l hl').addedAt] at hadded
      omega
  · rw [hheard]
    exact h.started
  · rw [hheard, hends]
    exact h.opened
  · rw [hheard]
    exact h.closed
  · rw [hheard]
    constructor
    · intro ⟨hcovers, hsorted, hpassed⟩
      rw [hends] at hsorted hpassed
      rw [hafter] at hpassed
      exact ⟨hcovers, hsorted, hpassed⟩
    · intro ⟨hcovers, hsorted, hpassed⟩
      rw [← hends] at hsorted hpassed
      rw [← hafter] at hpassed
      exact ⟨hcovers, hsorted, hpassed⟩

theorem Traced.finish_turn (h : Traced env history nodes iter) (hlayers : iter.layers = [])
    (hkeeps : iter.Keeps iter' []) (hnone : iter.nextEvent = none)
    (ht : finish env iter' = t) :
    Traced env (history ++ heard t) nodes (after t) ∧
      (InTime (history ++ heard t) nodes (after t) ↔ InTime history nodes iter) := by
  have hlayers' : (after t).layers = [] := by
    rw [← ht, (finish_keeps _).1, hkeeps.layers]
  have hheard : extents (history ++ heard t) = extents history := by
    have hnone' : iter'.nextEvent = none := hkeeps.nextEvent.trans hnone
    rw [← ht, extents_append]
    simp only [finish]
    split
    · simp [heard, emission, after, waiting, hnone', Extents.emit]
    · simp [heard, emission, after, waiting, hnone']
  have hends : iter.ends = [] := by simp [ends, hlayers]
  have hends' : (after t).ends = [] := by simp [ends, hlayers']
  refine ⟨⟨?_, ?_, ?_, ?_, ?_, ?_⟩, ?_⟩
  · intro first rest heq
    rw [hlayers'] at heq
    cases heq
  · simp [hlayers']
  · simp [hlayers']
  · rw [hheard]
    exact h.started
  · rw [hheard, hends', ← hends]
    exact h.opened
  · rw [hheard]
    exact h.closed
  · constructor
    · intro hin
      have hcovers := hin.covers
      rw [hheard] at hcovers
      exact ⟨hcovers, by simp [hends], by simp [hends]⟩
    · intro hin
      have hcovers := hin.covers
      rw [← hheard] at hcovers
      exact ⟨hcovers, by simp [hends'], by simp [hends']⟩

variable {steps : List (HighlightIter σ ω × Turn σ ω)} {t : Turn σ ω}

theorem heard_eq (steps : List (HighlightIter σ ω × Turn σ ω)) (iter : HighlightIter σ ω)
    (t : Turn σ ω) :
    emissions (steps ++ [(iter, t)]) ++ (after t).waiting.toList = emissions steps ++ heard t := by
  simp only [emissions, heard, filterMap_append, append_assoc]
  cases hemission : emission t <;> simp [hemission]

theorem highlightedNodes_snoc (env : Env σ ω) (steps : List (HighlightIter σ ω × Turn σ ω))
    (step : HighlightIter σ ω × Turn σ ω) :
    highlightedNodes env (steps ++ [step]) = highlightedNodes env steps ++
      ((highlighted env step).map fun captured => (captured.startByte, captured.endByte)).toList
    := by
  simp only [highlightedNodes, filterMap_append]
  cases hhighlighted : highlighted env step <;> simp [hhighlighted]

theorem highlightedNodes_snoc_of_none (steps : List (HighlightIter σ ω × Turn σ ω))
    {step : HighlightIter σ ω × Turn σ ω} (h : highlighted env step = none) :
    highlightedNodes env (steps ++ [step]) = highlightedNodes env steps ∧ Fits env step := by
  rw [highlightedNodes_snoc, h]
  refine ⟨append_nil _, fun captured hcaptured => ?_⟩
  rw [h] at hcaptured
  cases hcaptured

/-- One turn of a run: all is in time after it if and only if it was before and the node that is
highlighted fits. -/
theorem Traced.turn (horder : AllInOrder env)
    (h : Traced env (emissions steps ++ iter.waiting.toList) (highlightedNodes env steps) iter)
    (hturned : Turned env iter t) (hsucceeds : Succeeds t) (hsingle : iter.Single)
    (hsingle' : (after t).Single) :
    Traced env (emissions (steps ++ [(iter, t)]) ++ (after t).waiting.toList)
        (highlightedNodes env (steps ++ [(iter, t)])) (after t) ∧
      (InTime (emissions (steps ++ [(iter, t)]) ++ (after t).waiting.toList)
          (highlightedNodes env (steps ++ [(iter, t)])) (after t) ↔
        InTime (emissions steps ++ iter.waiting.toList) (highlightedNodes env steps) iter ∧
          Fits env (iter, t)) := by
  rw [heard_eq]
  obtain ⟨t', ht⟩ : ∃ t', t = t' := ⟨t, rfl⟩
  rw [ht] at hturned
  cases hturned with
  | @passesOn event hevent =>
    subst ht
    -- what was waiting is emitted
    have hhighlighted : highlighted env
        (iter, .returns (some (.ok event)) { iter with nextEvent := none }) = none := by
      simp [highlighted, hevent]
    obtain ⟨hnodes, hfits⟩ := highlightedNodes_snoc_of_none steps hhighlighted
    have hheard : heard (.returns (some (.ok event)) { iter with nextEvent := none }) =
        iter.waiting.toList := by
      simp [heard, emission, after, waiting, hevent]
    rw [hnodes, hheard, and_iff_left hfits]
    exact ⟨⟨h.live, h.inOrder, h.ahead, h.started, h.opened, h.closed⟩,
      ⟨fun hin => ⟨hin.covers, hin.sorted, hin.notPassed⟩,
        fun hin => ⟨hin.covers, hin.sorted, hin.notPassed⟩⟩⟩
  | fails =>
    subst ht
    cases hsucceeds
  | exhausted hlayers hkey =>
    have hlive := h.live _ _ hlayers
    rw [hkey] at hlive
    cases hlive
  | @finishes iter' hnone hlayers hkeeps =>
    have hhighlighted : highlighted env (iter, t) = none := by
      have hannounced : announced (finish env iter') = none ∨ ∃ start stop,
          announced (finish env iter') = some (.source start stop) := by
        simp only [finish]
        split
        · refine .inr ⟨iter'.byteOffset, env.source.size, ?_⟩
          simp [announced, hkeeps.nextEvent, hnone]
        · exact .inl rfl
      rcases hannounced with hannounced | ⟨start, stop, hannounced⟩ <;>
        simp [highlighted, hnone, ht, hannounced]
    obtain ⟨hnodes, hfits⟩ := highlightedNodes_snoc_of_none steps hhighlighted
    rw [hnodes, and_iff_left hfits]
    rw [waiting, hnone, map_none, toList_none, append_nil] at h ⊢
    exact h.finish_turn hlayers hkeeps hnone ht.symm
  | @ends iter' layer rest endByte ends hnone hlayers hstack hle hkeeps =>
    obtain ⟨-, -, hannounced⟩ := emitEvent_heard env [] endByte
      (.highlightEnd ⟨endByte, layer.addedAt⟩) (hkeeps.nextEvent.trans hnone)
    have hhighlighted : highlighted env (iter, t) = none := by
      simp [highlighted, hnone, ht, hannounced]
    obtain ⟨hnodes, hfits⟩ := highlightedNodes_snoc_of_none steps hhighlighted
    rw [hnodes, and_iff_left hfits]
    rw [waiting, hnone, map_none, toList_none, append_nil] at h ⊢
    obtain rfl : rest = [] := hsingle.rest hlayers
    exact h.ends_turn hlayers hstack hle hkeeps hnone ht.symm
  | @moves iter' layer layer' rest new captured hnone hlayers htakes hnew hkeeps =>
    have hhighlighted : highlighted env (iter, t) = none := by
      simp [highlighted, hnone, ht, announced]
    obtain ⟨hnodes, hfits⟩ := highlightedNodes_snoc_of_none steps hhighlighted
    rw [hnodes, and_iff_left hfits]
    rw [waiting, hnone, map_none, toList_none, append_nil] at h ⊢
    obtain rfl : rest = [] := hsingle.rest hlayers
    exact h.moves_turn horder hlayers htakes hnew hkeeps hnone ht.symm hsingle'
  | @starts iter' layer layer' rest captured highlight hnone hlayers htakes hkeeps =>
    obtain ⟨-, -, hannounced⟩ := emitEvent_heard env [] captured.startByte
      (.highlightStart highlight ⟨captured.startByte, layer'.addedAt⟩)
      (hkeeps.nextEvent.trans hnone)
    obtain ⟨captures, hcaptured, -⟩ := htakes.next
    have hhighlighted : highlighted env (iter, t) = some captured := by
      simp [highlighted, hnone, ht, hannounced, upcoming, hlayers, hcaptured]
    have hfits : Fits env (iter, t) ↔
        ∀ endByte ∈ iter.ends.head?, captured.endByte ≤ endByte := by
      simp [Fits, hhighlighted]
    rw [highlightedNodes_snoc, hhighlighted, hfits]
    rw [waiting, hnone, map_none, toList_none, append_nil] at h ⊢
    obtain rfl : rest = [] := hsingle.rest hlayers
    exact h.starts_turn hlayers htakes hkeeps hnone ht.symm

/-! ### Whole runs -/

variable {start : HighlightIter σ ω}

theorem Steps.traced (horder : AllInOrder env) (hnone : start.nextEvent = none)
    (hstart : Traced env [] [] start) (hempty : start.ends = []) (h : Steps env start steps iter)
    (hsingle : ∀ step ∈ steps, step.1.Single) (hlast : iter.Single) :
    Traced env (emissions steps ++ iter.waiting.toList) (highlightedNodes env steps) iter ∧
      (InTime (emissions steps ++ iter.waiting.toList) (highlightedNodes env steps) iter ↔
        ∀ step ∈ steps, Fits env step) := by
  induction h with
  | start =>
    rw [waiting, hnone]
    refine ⟨hstart, fun _ step hstep => (not_mem_nil hstep).elim, fun _ => ?_⟩
    exact ⟨fun c hc => (not_mem_nil hc).elim, by simp [hempty], by simp [hempty]⟩
  | @step steps iter fuel t _ hturn hsucceeds ih =>
    have hsteps : ∀ step ∈ steps, step.1.Single :=
      fun step hstep => hsingle step (mem_append_left _ hstep)
    have hbefore : iter.Single := hsingle (iter, t) (by simp)
    obtain ⟨htraced, hiff⟩ := ih hsteps hbefore
    obtain ⟨htraced', hiff'⟩ :=
      htraced.turn horder (turn_turned hturn) hsucceeds hbefore hlast
    refine ⟨htraced', hiff'.trans ?_⟩
    rw [hiff, forall_mem_append, forall_mem_singleton]

/-- What has been emitted covers its node if everything up to the waiting event does. -/
theorem InTime.covers_emissions (h : InTime (emissions steps ++ iter.waiting.toList)
    (highlightedNodes env steps) iter) : Covers env steps := by
  intro c hc
  refine h.covers c ?_
  rw [extents_append]
  cases iter.waiting with
  | none => exact hc
  | some event => exact Extents.closed_emit _ event hc

/-- Only an iterator that has no layers left, and no event that waits, ends. -/
theorem Turned.of_returns_none (hlive : iter.HeadLive env)
    (h : Turned env iter (.returns none iter')) : iter.nextEvent = none ∧ iter.layers = [] := by
  generalize ht : Turn.returns none iter' = t at h
  cases h with
  | passesOn | fails | moves => cases ht
  | finishes hnone hlayers => exact ⟨hnone, hlayers⟩
  | exhausted hlayers hkey =>
    have := hlive _ _ hlayers
    rw [hkey] at this
    cases this
  | ends | starts =>
    simp only [emitEvent] at ht
    split at ht <;> cases ht

theorem highlight_traced {fuel : Nat} {config : HighlightConfiguration} {world : ω}
    (horder : AllInOrder env) (h : highlight env fuel config world = some (.ok start)) :
    start.nextEvent = none ∧ start.ends = [] ∧ Traced env [] [] start := by
  obtain ⟨⟨result, world'⟩, hlayers, h⟩ := bind_eq_some_iff.mp h
  split at h
  next => cases h
  next layers world'' heq =>
    cases heq
    split at h
    next => cases h
    next =>
      cases h
      have hmade : ∀ layer ∈ (HighlightIter.sortLayers env (.start layers world')).layers,
          layer.Made env 0 :=
        fun layer hlayer =>
          newLayers_made (by simp) hlayers layer (MergeQueue.mem_of_mem_settle hlayer)
      have hempty : (HighlightIter.sortLayers env (.start layers world')).ends = [] :=
        flatMap_eq_nil_iff.mpr fun layer hlayer => (hmade layer hlayer).highlightEndStack
      refine ⟨rfl, hempty, sortLayers_headLive _, ?_, ?_, rfl, ?_, ?_⟩
      · exact fun layer hlayer => horder _ (hmade layer hlayer).captures
      · exact fun layer hlayer captured captures _ => Nat.zero_le _
      · rw [hempty]
        exact .nil
      · exact fun c hc => (not_mem_nil hc).elim

/-- In a document with one layer, a highlight covers exactly its node as long as each node ends
no later than the highlight in which it is highlighted; and over the whole document they all do
if and only if that is so. -/
theorem Steps.covers_iff {fuel : Nat} {config : HighlightConfiguration} {world : ω}
    {start : HighlightIter σ ω} (horder : AllInOrder env)
    (hstart : highlight env fuel config world = some (.ok start))
    (h : Steps env start steps iter) (hsingle : ∀ step ∈ steps, step.1.Single)
    (hlast : iter.Single) :
    ((∀ step ∈ steps, Fits env step) → Covers env steps) ∧
      ∀ fuel' iter', turn env fuel' iter = some (.returns none iter') →
        (extents (emissions steps)).opened = [] ∧
          (Covers env steps ↔ ∀ step ∈ steps, Fits env step) := by
  obtain ⟨hnone, hempty, htraced⟩ := highlight_traced horder hstart
  obtain ⟨htraced', hiff⟩ := h.traced horder hnone htraced hempty hsingle hlast
  refine ⟨fun hfits => (hiff.mpr hfits).covers_emissions, fun fuel' iter' hturn => ?_⟩
  obtain ⟨hnone', hlayers⟩ := (turn_turned hturn).of_returns_none htraced'.live
  have hends : iter.ends = [] := by simp [ends, hlayers]
  have hopened := htraced'.opened
  rw [waiting, hnone', map_none, toList_none, append_nil] at hiff hopened
  rw [hends, forall₂_nil_left_iff] at hopened
  refine ⟨hopened, fun hcovers => hiff.mp ⟨hcovers, by simp [hends], by simp [hends]⟩, ?_⟩
  exact fun hfits => (hiff.mpr hfits).covers

/-! ### A document whose first node is inside its second one -/

/-- The next `n` turns, where none of them fails. -/
def turns (env : Env σ ω) (fuel : Nat) : Nat → HighlightIter σ ω →
    Option (List (HighlightIter σ ω × Turn σ ω) × HighlightIter σ ω)
  | 0, iter => some ([], iter)
  | n + 1, iter =>
    match turn env fuel iter with
    | none | some (.returns (some (.error _)) _) => none
    | some t => (turns env fuel n (after t)).map fun (steps, last) => ((iter, t) :: steps, last)

theorem turns_steps {last : HighlightIter σ ω} {more : List (HighlightIter σ ω × Turn σ ω)}
    {fuel n : Nat} (h : Steps env start steps iter)
    (hturns : turns env fuel n iter = some (more, last)) :
    Steps env start (steps ++ more) last := by
  induction n generalizing iter steps more with
  | zero =>
    cases hturns
    rw [append_nil]
    exact h
  | succ n ih =>
    simp only [turns] at hturns
    split at hturns
    next => cases hturns
    next => cases hturns
    next t hnot hturn =>
      obtain ⟨⟨more', last'⟩, hturns', heq⟩ := map_eq_some_iff.mp hturns
      cases heq
      rw [append_cons]
      refine ih (h.step hturn ?_) hturns'
      cases t with
      | continues => trivial
      | returns item iter' =>
        cases item with
        | none => trivial
        | some result =>
          cases result with
          | ok => trivial
          | error error => exact (hnot error iter' rfl).elim

/-- A document of eleven bytes with one layer, in which these nodes are captured. -/
def capturesDocument (captures : List CapturedMatch) : Env (List CapturedMatch) Unit :=
  .ofLists ⟨.replicate 11 97⟩ (fun _ _ world => (.tree [] captures, world))
    (fun _ world => (none, world))

theorem capturesDocument_allInOrder
    (horder : captures.Pairwise fun c c' => c.startByte ≤ c'.startByte)
    (hrange : ∀ c ∈ captures, c.startByte ≤ c.endByte) :
    AllInOrder (capturesDocument captures) := by
  intro made ⟨config, ranges, world, injections, world', hparse⟩
  cases hparse
  exact Env.ofLists_inOrder horder hrange

/-- The highlights and the nodes of the run that ends after `n` turns, if it has one layer. -/
def wholeRun (captures : List CapturedMatch) (n : Nat) :
    Option (List (Nat × Nat × Nat) × List (Nat × Nat)) := do
  let result ← highlight (capturesDocument captures) 9 plainConfiguration ()
  let start ← result.toOption
  let (steps, iter) ← turns (capturesDocument captures) 9 n start
  match turn (capturesDocument captures) 9 iter with
  | some (.returns none _) =>
    if (∀ step ∈ steps, step.1.Single) ∧ iter.Single then
      some ((extents (emissions steps)).closed, highlightedNodes (capturesDocument captures) steps)
    else none
  | _ => none

theorem wholeRun_eq_some {n : Nat}
    {closed : List (Nat × Nat × Nat)} (h : wholeRun captures n = some (closed, nodes)) :
    ∃ start steps iter iter',
      highlight (capturesDocument captures) 9 plainConfiguration () = some (.ok start) ∧
      Steps (capturesDocument captures) start steps iter ∧
      (∀ step ∈ steps, step.1.Single) ∧ iter.Single ∧
      turn (capturesDocument captures) 9 iter = some (.returns none iter') ∧
      (extents (emissions steps)).closed = closed ∧
      highlightedNodes (capturesDocument captures) steps = nodes := by
  simp only [wholeRun, bind_eq_bind] at h
  obtain ⟨result, hresult, hbound⟩ := bind_eq_some_iff.mp h
  obtain ⟨start, hstart, hbound⟩ := bind_eq_some_iff.mp hbound
  obtain ⟨⟨steps, iter⟩, hturns, hended⟩ := bind_eq_some_iff.mp hbound
  have hresult' : result = .ok start := by
    cases result with
    | error error => cases hstart
    | ok start' => exact congrArg _ (Option.some.inj hstart)
  rw [hresult'] at hresult
  split at hended
  next iter' hturn =>
    split at hended
    next hsingle =>
      cases hended
      exact ⟨start, steps, iter, iter', hresult, turns_steps .start hturns, hsingle.1, hsingle.2,
        hturn, rfl, rfl⟩
    next => cases hended
  next => cases hended

/-- The earlier capture starts before the later one, or with it by an earlier pattern. -/
def Precedes (c c' : CapturedMatch) : Prop :=
  c.startByte < c'.startByte ∨
    c.startByte = c'.startByte ∧ c.queryMatch.patternIndex ≤ c'.queryMatch.patternIndex

/-- One of the nodes is inside the other one, or they are apart. -/
def NestedOrDisjoint (c c' : CapturedMatch) : Prop :=
  (c.startByte ≤ c'.startByte ∧ c'.endByte ≤ c.endByte) ∨
    (c'.startByte ≤ c.startByte ∧ c.endByte ≤ c'.endByte) ∨
    c.endByte ≤ c'.startByte ∨ c'.endByte ≤ c.startByte

instance (c c' : CapturedMatch) : Decidable (Precedes c c') :=
  inferInstanceAs (Decidable (_ ∨ _))

instance (c c' : CapturedMatch) : Decidable (NestedOrDisjoint c c') :=
  inferInstanceAs (Decidable (_ ∨ _))

def captureBy (pattern : Nat) (node : Node) : CapturedMatch :=
  ⟨⟨node.id, pattern, [⟨node, 0⟩]⟩, ⟨0, Nat.one_pos⟩⟩

/-- The node from 0 to 3 is captured before the node from 0 to 10 around it. -/
def innerFirst : List CapturedMatch :=
  [captureBy 0 (lineNode 1 0 3), captureBy 1 (lineNode 2 0 10), captureBy 0 (lineNode 3 5 6)]

/-- The highlight of the inner node does not end with it, at 3: it is the second one to end at 10,
and the third node has been highlighted in between. -/
theorem not_covers_innerFirst : innerFirst.Pairwise Precedes ∧
    innerFirst.Pairwise NestedOrDisjoint ∧ AllInOrder (capturesDocument innerFirst) ∧
    ∃ start steps iter iter',
      highlight (capturesDocument innerFirst) 9 plainConfiguration () = some (.ok start) ∧
      Steps (capturesDocument innerFirst) start steps iter ∧
      (∀ step ∈ steps, step.1.Single) ∧ iter.Single ∧
      turn (capturesDocument innerFirst) 9 iter = some (.returns none iter') ∧
      (extents (emissions steps)).closed = [(0, 0, 10), (1, 0, 10), (2, 5, 6)] ∧
      highlightedNodes (capturesDocument innerFirst) steps = [(0, 3), (0, 10), (5, 6)] ∧
      ¬ Covers (capturesDocument innerFirst) steps := by
  have hrun : wholeRun innerFirst 10 =
      some ([(0, 0, 10), (1, 0, 10), (2, 5, 6)], [(0, 3), (0, 10), (5, 6)]) := by decide +kernel
  obtain ⟨start, steps, iter, iter', hstart, hsteps, hsingle, hlast, hturn, hclosed, hnodes⟩ :=
    wholeRun_eq_some hrun
  refine ⟨by decide, by decide, capturesDocument_allInOrder (by decide) (by decide), start, steps,
    iter, iter', hstart, hsteps, hsingle, hlast, hturn, hclosed, hnodes, ?_⟩
  rw [Covers, hclosed, hnodes]
  decide

/-- The same nodes, the outer one first. -/
def outerFirst : List CapturedMatch :=
  [captureBy 0 (lineNode 2 0 10), captureBy 1 (lineNode 1 0 3), captureBy 0 (lineNode 3 5 6)]

/-- Each of these nodes fits into the highlight around it. -/
theorem Steps.covers_iff_outerFirst : ∃ start steps iter,
    highlight (capturesDocument outerFirst) 9 plainConfiguration () = some (.ok start) ∧
    Steps (capturesDocument outerFirst) start steps iter ∧
    (extents (emissions steps)).closed = [(0, 0, 10), (2, 5, 6), (1, 0, 3)] ∧
    (Covers (capturesDocument outerFirst) steps ↔
      ∀ step ∈ steps, Fits (capturesDocument outerFirst) step) := by
  have hrun : wholeRun outerFirst 11 =
      some ([(0, 0, 10), (2, 5, 6), (1, 0, 3)], [(0, 10), (0, 3), (5, 6)]) := by decide +kernel
  obtain ⟨start, steps, iter, iter', hstart, hsteps, hsingle, hlast, hturn, hclosed, -⟩ :=
    wholeRun_eq_some hrun
  have horder : AllInOrder (capturesDocument outerFirst) :=
    capturesDocument_allInOrder (by decide) (by decide)
  have hcovers := Steps.covers_iff horder hstart hsteps hsingle hlast
  exact ⟨start, steps, iter, hstart, hsteps, hclosed, (hcovers.2 9 iter' hturn).2⟩

end HighlightIter

end TreeSitter.Highlighter
