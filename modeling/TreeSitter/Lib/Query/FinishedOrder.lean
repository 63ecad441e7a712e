import TreeSitter.Lib.Query.FinishedStates

/-!
# TreeSitter.Lib.Query.FinishedOrder

The finished states **over whole runs**: every interleaving of the calls, taken apart into the steps
between which the finished states are looked at or changed (`CursorStep`).

In every state of a run in which no more than `2 ^ 32` states were finished since
`ts_query_cursor_exec`, the heap is a heap for the order of discovery, no finished state gets lost,
and both ways to take one take the right one (`FinishedInOrder`). After that the sequence number
wraps around, and a state that was finished later comes first.
-/

namespace TreeSitter.Lib

open Option Library Library.BinaryHeap

namespace TSQueryCursor

variable {τ : Type} {limit : Nat} {c c' : TSQueryCursor τ} {walk : TreeWalk τ} {turns : Nat}

/-! ### Steps -/

/-- The steps of the calls: a call that does not walk over the tree, the walk, which finishes
states, and the two ways to take something from the finished states. -/
inductive CursorStep (walk : TreeWalk τ) : TSQueryCursor τ → TSQueryCursor τ → Prop
  | call {c c' : TSQueryCursor τ} {turns : Nat} {call : Call τ} (isMatch : call ≠ .nextMatch)
      (isCapture : call ≠ .nextCapture) (step : c.call walk turns call = some c') : CursorStep walk c c'
  | advance {c c' : TSQueryCursor τ} {turns : Nat} {stop found : Bool}
      (step : advance walk stop turns c false = some (c', found)) : CursorStep walk c c'
  | takeMatch {c c' : TSQueryCursor τ} {result : TSQueryMatch}
      (step : c.takeMatch = some (c', result)) : CursorStep walk c c'
  | captureTurn {c c' : TSQueryCursor τ} {turns : Nat} {returned : Option ReturnedCapture}
      (step : c.captureTurn turns = some (c', returned)) : CursorStep walk c c'

/-- The states of a cursor between steps. -/
def Reachable (walk : TreeWalk τ) (c : TSQueryCursor τ) : Prop :=
  ∃ query cursor, Relation.ReflTransGen (CursorStep walk) (new query cursor) c

open Relation (ReflTransGen)

theorem nextMatch_steps {result : Option TSQueryMatch}
    (hnext : c.nextMatch walk turns = some (c', result)) : ReflTransGen (CursorStep walk) c c' :=
  nextMatch_keeps (fun hadvance h => h.tail (.advance hadvance))
    (fun htake h => h.tail (.takeMatch htake)) hnext .refl

theorem nextCapture_steps {returned : Option ReturnedCapture}
    (hnext : nextCapture walk turns c = some (c', returned)) : ReflTransGen (CursorStep walk) c c' :=
  nextCapture_keeps (fun hadvance h => h.tail (.advance hadvance))
    (fun hturn h => h.tail (.captureTurn hturn)) hnext .refl

theorem call_steps {call : Call τ} (hcall : c.call walk turns call = some c') :
    ReflTransGen (CursorStep walk) c c' := by
  by_cases hmatch : call = .nextMatch
  · subst hmatch
    obtain ⟨⟨c₁, result⟩, hnext, rfl⟩ := map_eq_some_iff.1 hcall
    exact nextMatch_steps hnext
  · by_cases hcapture : call = .nextCapture
    · subst hcapture
      obtain ⟨⟨c₁, returned⟩, hnext, rfl⟩ := map_eq_some_iff.1 hcall
      exact nextCapture_steps hnext
    · exact .single (.call hmatch hcapture hcall)

theorem calls_steps : ∀ {sequence : List (Call τ)} {c c' : TSQueryCursor τ},
    c.calls walk turns sequence = some c' → ReflTransGen (CursorStep walk) c c' := by
  intro sequence
  induction sequence with
  | nil =>
    intro c c' hcalls
    cases hcalls
    exact .refl
  | cons call sequence ih =>
    intro c c' hcalls
    rw [calls, List.foldlM_cons] at hcalls
    obtain ⟨c₁, hcall, hcalls⟩ := bind_eq_some_iff.1 hcalls
    exact (call_steps hcall).trans (ih hcalls)

/-- What holds in every state of a run. -/
def StatesOk (c : TSQueryCursor τ) : Prop := (∃ limit, ListsOwned limit c) ∧ FinishedOk c

theorem finishedOk_nil (hfinished : c.finishedStates = []) (hsize : c.finishedStatesHeapSize = 0)
    (hnext : c.nextFinishedStateId = c.finishedCount % 2 ^ 32) : FinishedOk c := by
  refine ⟨by simp [hsize], ?_, by simp [hfinished], hnext, by simp [hfinished], by simp [hfinished]⟩
  intro i _ hi
  omega

theorem statesOk_new (query : AnalyzedQuery) (cursor : τ) : StatesOk (new query cursor) :=
  ⟨⟨_, (callOwned_new query cursor).owned⟩, finishedOk_nil rfl rfl rfl⟩

theorem FinishedOk.of_same (h : FinishedOk c) (hlist : c'.captureListPool.list = c.captureListPool.list)
    (hfinished : c'.finishedStates = c.finishedStates)
    (hsize : c'.finishedStatesHeapSize = c.finishedStatesHeapSize)
    (hnext : c'.nextFinishedStateId = c.nextFinishedStateId)
    (hcount : c'.finishedCount = c.finishedCount) : FinishedOk c' := by
  refine ⟨by rw [hsize, hfinished]; exact h.size, ?_, ?_, by rw [hnext, hcount, h.next], ?_, ?_⟩
  · rw [hsize, hfinished]
    refine h.heap.of_forall fun state _ => finishedKey_congr ?_
    rw [CaptureListPool.get, CaptureListPool.get, hlist]
  · rw [hfinished, hcount]
    exact h.order
  · rw [hfinished]
    exact h.nodup
  · rw [hsize, hfinished]
    exact h.sorted

theorem CursorStep.statesOk (hstep : CursorStep walk c c') (h : StatesOk c) : StatesOk c' := by
  obtain ⟨⟨limit, howned⟩, hok⟩ := h
  cases hstep with
  | @call turns call hmatch hcapture hcall =>
    have hcallOwned : CallOwned limit limit c := ⟨by rwa [max_self], howned.owned.lists⟩
    obtain ⟨limit', largest', howned', -⟩ := hcallOwned.call hcall []
    refine ⟨⟨_, howned'.owned⟩, ?_⟩
    cases call with
    | nextMatch => exact absurd rfl hmatch
    | nextCapture => exact absurd rfl hcapture
    | removeMatch matchId =>
      cases hcall
      exact (removeMatch_finishedOk hok howned matchId).1
    | exec query cursor progressCallback =>
      cases hcall
      exact finishedOk_nil rfl rfl rfl
    | setMatchLimit limit | setByteRange startByte endByte
    | setPointRange startPoint endPoint | setContainingByteRange startByte endByte
    | setContainingPointRange startPoint endPoint | setMaxStartDepth maxStartDepth =>
      cases hcall
      exact hok.of_same rfl rfl rfl rfl rfl
  | advance hadvance =>
    obtain ⟨howned', hadds⟩ := advance_move hadvance howned
    exact ⟨⟨limit, howned'⟩, hok.adds hadds⟩
  | takeMatch htake =>
    exact ⟨⟨limit, takeMatch_owned htake howned⟩, (takeMatch_finishedOk hok howned htake).1⟩
  | captureTurn hturn =>
    exact ⟨⟨limit, captureTurn_owned hturn howned⟩, (captureTurn_finishedOk hok howned hturn).1⟩

theorem Reachable.statesOk (h : Reachable walk c) : StatesOk c := by
  obtain ⟨query, cursor, hsteps⟩ := h
  induction hsteps with
  | refl => exact statesOk_new query cursor
  | tail _ hstep ih => exact hstep.statesOk ih

/-! ### The order -/

/-- What one wants of the finished states. The first ones are a heap by the start of the next
capture, the pattern and the order of discovery. The walk adds states at the end;
`ts_query_cursor_next_match` takes the one that was discovered first;
`ts_query_cursor_remove_match` removes one with the given number, if there is one; and
`ts_query_cursor_next_capture`, after it has removed or skipped what is at its end, takes the one
that a linear scan finds. Otherwise the finished states stay the same. -/
structure FinishedInOrder (walk : TreeWalk τ) (c : TSQueryCursor τ) : Prop where
  size : c.finishedStatesHeapSize ≤ c.finishedStates.length
  heap : HeapTo (finishedKey QueryState.discovery c.captureListPool) c.finishedStatesHeapSize
    c.finishedStates
  nodup : (c.finishedStates.map QueryState.discovery).Nodup
  advance : ∀ stop turns c' found, advance walk stop turns c false = some (c', found) →
    ∃ added, c'.finishedStates = c.finishedStates ++ added ∧
      added.map QueryState.discovery = List.range' c.finishedCount added.length ∧
      c'.finishedCount = c.finishedCount + added.length
  takeMatch : ∀ c' result, c.takeMatch = some (c', result) →
    ∃ state, c.finishedStates.Perm (state :: c'.finishedStates) ∧
      result = c.matchOf state result.id ∧
      ∀ other ∈ c.finishedStates, state.discovery ≤ other.discovery
  removeMatch : ∀ matchId, (c.removeMatch matchId).finishedStates.Perm c.finishedStates ∨
    ∃ state, state.id = matchId ∧
      c.finishedStates.Perm (state :: (c.removeMatch matchId).finishedStates)
  captureTurn : ∀ turns c' returned, c.captureTurn turns = some (c', returned) →
    ∃ first cleaned, CleanedTurn c turns first cleaned ∧
      c.heapifyFinishedStates.finishedStates.Perm c.finishedStates ∧
      ReflTransGen (CleanStep c.captureListPool c.includedRange)
        c.heapifyFinishedStates.finishedStates cleaned.finishedStates ∧
      (∀ order : List QueryState, order.Perm cleaned.finishedStates →
        scan (discoveryPrecedes cleaned.captureListPool) order = cleaned.finishedStates.head?) ∧
      TakesRoot cleaned c' returned (cleaned.firstFinished first)

/-- In every run, as long as no more than `2 ^ 32` states were finished, the finished states are in
order. -/
theorem Reachable.finishedInOrder (h : Reachable walk c) (hcount : c.finishedCount ≤ 2 ^ 32) :
    FinishedInOrder walk c := by
  obtain ⟨⟨limit, howned⟩, hok⟩ := h.statesOk
  refine ⟨hok.size, hok.heap.of_forall (hok.key_eq hcount _), hok.nodup, ?_, ?_, ?_, ?_⟩
  · intro stop turns c' found hadvance
    obtain ⟨added, hfinished, -, hdiscovery, -, hcount'⟩ := (advance_move hadvance howned).2.finished
    exact ⟨added, hfinished, hdiscovery, hcount'⟩
  · intro c' result htake
    obtain ⟨-, -, state, hperm, hresult, hleast⟩ := takeMatch_finishedOk hok howned htake
    exact ⟨state, hperm, hresult, hleast hcount⟩
  · exact fun matchId => (removeMatch_finishedOk hok howned matchId).2
  · intro turns c' returned hturn
    obtain ⟨-, first, cleaned, hcleanedTurn, hcleaned, hrange, hcount', htakes⟩ :=
      captureTurn_finishedOk hok howned hturn
    refine ⟨first, cleaned, hcleanedTurn, heapifyFinishedStates_perm c, hrange ▸ hcleaned.steps, ?_,
      htakes⟩
    intro order horder
    exact hcleaned.scan_eq (by omega) horder

theorem Reachable.finishedInOrder_leaf :
    ∃ c, Reachable leafWalk c ∧ c.finishedStates.length = 2 ∧ FinishedInOrder leafWalk c := by
  have hfinished : ((new captureQuery ()).calls leafWalk 20
      [.exec captureQuery () none, .nextCapture]).map
        (fun c => (c.finishedStates.length, decide (c.finishedCount ≤ 2 ^ 32))) = some (2, true) := by cbv
  obtain ⟨c, hc, hlength⟩ := map_eq_some_iff.1 hfinished
  rw [Prod.mk.injEq, decide_eq_true_iff] at hlength
  have hreach : Reachable leafWalk c := ⟨captureQuery, (), calls_steps hc⟩
  exact ⟨c, hreach, hlength.1, hreach.finishedInOrder hlength.2⟩

/-! ### When the numbers wrap around -/

def byteNode (i : Nat) : QueryNode := ⟨i + 1, ⟨i, i + 1, ⟨0, i⟩, ⟨0, i + 1⟩⟩⟩

def lineFacts (width i : Nat) (hasLaterSiblings : Bool) : NodeFacts :=
  { leafFacts 1 with
    node := byteNode i
    parent := some ⟨0, ⟨0, width, ⟨0, 0⟩, ⟨0, width⟩⟩⟩
    hasLaterSiblings
    hasLaterNamedSiblings := hasLaterSiblings }

/-- A tree with one node for every byte of a line: the root is `none`, and its children have the
symbol 1. -/
def lineWalk (width : Nat) : TreeWalk (Option Nat) where
  facts
    | none => { leafFacts 2 with node := ⟨0, ⟨0, width, ⟨0, 0⟩, ⟨0, width⟩⟩⟩ }
    | some i => lineFacts width i (i + 1 < width)
  gotoFirstChild
    | none => if 0 < width then (.visible, some 0) else (.none, none)
    | some i => (.none, some i)
  gotoNextSibling
    | none => (.none, none)
    | some i => if i + 1 < width then (.visible, some (i + 1)) else (.none, some i)
  gotoParent
    | none => (false, none)
    | some _ => (true, none)

/-- The query `(a) @x (a) @x (a) @x`. -/
def threePatterns : AnalyzedQuery where
  steps := [captureStep, doneStep, captureStep, doneStep, captureStep, doneStep]
  patternMap := [⟨0, 0, true⟩, ⟨2, 1, true⟩, ⟨4, 2, true⟩]
  patternCount := 3
  wildcardRootPatternCount := 0
  negatedFields := []
  repeatSymbolsWithRootlessPatterns := []

/-- A pool with three lists that were filled at a node. -/
def threeLists (i : Nat) (first second third : Bool) (freeCaptureListCount : Nat) : CaptureListPool where
  list := [⟨[⟨byteNode i, 0⟩], first⟩, ⟨[⟨byteNode i, 0⟩], second⟩, ⟨[⟨byteNode i, 0⟩], third⟩]
  maxCaptureListCount := captureListNone
  freeCaptureListCount := freeCaptureListCount

/-- The range of a cursor that was not given one. -/
def fullRange : TSRange := ⟨0, 2 ^ 32 - 1, ⟨0, 0⟩, pointMax⟩

/-- The cursor at a node of the line. -/
def atNode (i : Nat) (ascending : Bool) (captureListPool : CaptureListPool)
    (finishedStates : List QueryState)
    (operationCount nextStateId nextFinishedStateId finishedCount : Nat) :
    TSQueryCursor (Option Nat) where
  query := threePatterns
  cursor := some i
  states := []
  finishedStates := finishedStates
  finishedStatesHeapSize := 0
  captureListPool := captureListPool
  depth := 1
  maxStartDepth := 2 ^ 32 - 1
  includedRange := fullRange
  containingRange := fullRange
  nextStateId := nextStateId
  nextFinishedStateId := nextFinishedStateId
  finishedCount := finishedCount
  progressCallback := none
  callbackCount := 0
  operationCount := operationCount
  onVisibleNode := true
  ascending := ascending
  halted := false
  didExceedMatchLimit := false

def finishedMatch (patternIndex heapInsertOrder discovery : Nat) : QueryState where
  id := captureListNone
  captureListId := patternIndex
  heapInsertOrder := heapInsertOrder
  discovery := discovery
  startDepth := 1
  stepIndex := 2 * patternIndex + 1
  patternIndex := patternIndex
  consumedCaptureCount := 0
  seekingImmediateMatch := false
  hasInProgressAlternatives := false
  dead := false
  needsParent := false
  skippedQuantifier := false

section Line

variable {width i op number order count : Nat}

theorem facts_line (hi : i + 1 < width) : (lineWalk width).facts (some i) = lineFacts width i true := by
  simp [lineWalk, hi]

theorem within_line (hi : i < width) (hwidth : width < 2 ^ 32) (later : Bool) :
    (lineFacts width i later).node.range.within fullRange = true := by
  simp [lineFacts, byteNode, TSRange.within, fullRange, Point.lte, pointMax]
  omega

theorem intersects_line (hi : i < width) (hwidth : width < 2 ^ 32) (later : Bool) :
    (lineFacts width i later).node.range.intersects fullRange = true := by
  have hlt : i < 2 ^ 32 - 1 := by omega
  simp [lineFacts, TSRange.intersects, byteNode, fullRange, Point.lt, pointMax]
  exact decide_eq_true hlt

theorem nodeContext_line {τ : Type} {c : TSQueryCursor τ} (hi : i < width) (hwidth : width < 2 ^ 32)
    (hrange : c.includedRange = fullRange) (later : Bool) :
    c.nodeContext (lineFacts width i later) =
      ⟨1, false, true, true, 0, 0, c.depth, c.maxStartDepth⟩ := by
  have hparent : c.parentIntersectsRange (lineFacts width i later) = true := by
    have hpos : 0 < width := by omega
    simp [lineFacts, parentIntersectsRange, TSRange.intersects, hrange, fullRange, Point.lt, pointMax,
      hpos]
  simp only [nodeContext, hparent, hrange, intersects_line hi hwidth]
  rfl

/-- What is finished at a node. -/
def finishedThree (order count : Nat) : List QueryState :=
  [finishedMatch 0 order count, finishedMatch 1 (nextOrder order) (count + 1),
    finishedMatch 2 (nextOrder (nextOrder order)) (count + 2)]

theorem enterNode_line (hi : i + 2 < width) (hwidth : width < 2 ^ 32) (stop : Bool) :
    (atNode (i + 1) false (threeLists i false false false 3) [] op number order count).enterNode 20 stop
        (lineFacts width (i + 1) true) =
      some (atNode (i + 1) false (threeLists (i + 1) true true true 0) (finishedThree order count)
        op number (nextOrder^[3] order) (count + 3), true) := by
  have hlt : i + 1 < width := by omega
  have hwithin : (lineFacts width (i + 1) true).node.range.within
      (atNode (i + 1) false (threeLists i false false false 3) [] op number order count).containingRange =
        true := within_line hlt hwidth true
  unfold enterNode
  rw [nodeContext_line hlt hwidth rfl, hwithin]
  cases stop <;> cbv

theorem advance_step {τ : Type} {walk : TreeWalk τ} {c : TSQueryCursor τ} (turns : Nat) (stop : Bool)
    (hhalted : c.halted = false) (hcallback : c.progressCallback = none) :
    advance walk stop (turns + 1) c false =
      (c.countOperation.advanceTurn walk turns stop).bind fun (c, matched) =>
        advance walk stop turns c matched := by
  simp [advance, beginTurn, hhalted, askCallback, countOperation, hcallback]

theorem leave_line (hi : i + 1 < width) (turns : Nat) (stop : Bool) (pool : CaptureListPool) :
    (atNode i true pool [] op number order count).advanceTurn (lineWalk width) turns stop =
      some (atNode (i + 1) false pool [] op number order count, false) := by
  have hnext : (lineWalk width).gotoNextSibling (some i) = (.visible, some (i + 1)) := if_pos hi
  have hleave : (atNode i true pool [] op number order count).advanceTurn (lineWalk width) turns stop =
      some ((atNode i true pool [] op number order count).leave (lineWalk width), false) := rfl
  have hcursor : (atNode i true pool [] op number order count).cursor = some i := rfl
  rw [hleave, leave, hcursor, hnext]
  rfl

theorem descend_line (hi : i + 1 < width) (hwidth : width < 2 ^ 32) (pool : CaptureListPool)
    (finished : List QueryState) :
    (atNode i false pool finished op number order count).descend (lineWalk width)
        (lineFacts width i true) =
      some (atNode i true pool finished op number order count) := by
  have hcontaining : (lineFacts width i true).node.range.intersects
      (atNode i false pool finished op number order count).containingRange = true :=
    intersects_line (by omega) hwidth true
  rw [descend, if_pos hcontaining, nodeContext_line (by omega) hwidth rfl]
  rfl

theorem enter_line (hi : i + 2 < width) (hwidth : width < 2 ^ 32) (stop : Bool) :
    (atNode (i + 1) false (threeLists i false false false 3) [] op number order count).advanceTurn
        (lineWalk width) 20 stop =
      some (atNode (i + 1) true (threeLists (i + 1) true true true 0) (finishedThree order count)
        op number (nextOrder^[3] order) (count + 3), true) := by
  have hcursor : ∀ (pool : CaptureListPool) (finished : List QueryState) (order count : Nat),
      (lineWalk width).facts (atNode (i + 1) false pool finished op number order count).cursor =
        lineFacts width (i + 1) true := fun _ _ _ _ => facts_line hi
  rw [advanceTurn, if_neg (by simp [atNode]), hcursor, enterNode_line hi hwidth, bind_some]
  simp only [hcursor, descend_line hi hwidth, map_some]

theorem advance_line (hi : i + 2 < width) (hwidth : width < 2 ^ 32) (stop : Bool)
    (op number order count : Nat) :
    ∃ op', advance (lineWalk width) stop 22
        (atNode i true (threeLists i false false false 3) [] op number order count) false =
      some (atNode (i + 1) true (threeLists (i + 1) true true true 0) (finishedThree order count)
        op' number (nextOrder^[3] order) (count + 3), true) := by
  have hcount : ∀ (j : Nat) (ascending : Bool) (pool : CaptureListPool) (op : Nat),
      ∃ op', (atNode j ascending pool [] op number order count).countOperation =
        atNode j ascending pool [] op' number order count := fun _ _ _ _ => ⟨_, rfl⟩
  obtain ⟨op₁, hop₁⟩ := hcount i true (threeLists i false false false 3) op
  obtain ⟨op₂, hop₂⟩ := hcount (i + 1) false (threeLists i false false false 3) op₁
  rw [advance_step 21 stop rfl rfl, hop₁, leave_line (by omega), bind_some]
  simp only
  rw [advance_step 20 stop rfl rfl, hop₂, enter_line hi hwidth]
  exact ⟨_, rfl⟩

theorem calls_line (hi : i + 2 < width) (hwidth : width < 2 ^ 32) (op number order count : Nat) :
    ∃ op' number',
      (atNode i true (threeLists i false false false 3) [] op number order count).calls
          (lineWalk width) 22 (List.replicate 3 .nextMatch) =
        some (atNode (i + 1) true (threeLists (i + 1) false false false 3) [] op' number'
          (nextOrder^[3] order) (count + 3)) := by
  have hfirst : (atNode i true (threeLists i false false false 3) [] op number order count).nextMatch
      (lineWalk width) 22 =
        (advance (lineWalk width) false 22
          (atNode i true (threeLists i false false false 3) [] op number order count) false).bind
          fun (c, found) => if found then c.takeMatch.map fun (c, result) => (c, some result)
            else some (c, none) := rfl
  obtain ⟨op', hadvance⟩ := advance_line hi hwidth false op number order count
  rw [hadvance] at hfirst
  refine ⟨op', nextOrder^[3] number, ?_⟩
  rw [calls, List.replicate, List.foldlM_cons, call, hfirst]
  cbv

theorem calls_append {τ : Type} {walk : TreeWalk τ} {turns : Nat} (c : TSQueryCursor τ)
    (first second : List (Call τ)) :
    c.calls walk turns (first ++ second) =
      (c.calls walk turns first).bind fun c => c.calls walk turns second := by
  rw [calls, List.foldlM_append]
  rfl

theorem calls_replicate_line (hwidth : width < 2 ^ 32) : ∀ (nodes i op number count : Nat),
    i + nodes + 1 < width → ∃ op' number',
      (atNode i true (threeLists i false false false 3) [] op number (count % 2 ^ 32) count).calls
          (lineWalk width) 22 (List.replicate (3 * nodes) .nextMatch) =
        some (atNode (i + nodes) true (threeLists (i + nodes) false false false 3) [] op' number'
          ((count + 3 * nodes) % 2 ^ 32) (count + 3 * nodes)) := by
  intro nodes
  induction nodes with
  | zero =>
    intro i op number count _
    exact ⟨op, number, rfl⟩
  | succ nodes ih =>
    intro i op number count hi
    have hi' : i + 2 < width := by omega
    obtain ⟨op₁, number₁, hfirst⟩ := calls_line hi' hwidth op number (count % 2 ^ 32) count
    rw [iterate_nextOrder] at hfirst
    obtain ⟨op₂, number₂, hrest⟩ := ih (i + 1) op₁ number₁ (count + 3) (by omega)
    refine ⟨op₂, number₂, ?_⟩
    rw [show 3 * (nodes + 1) = 3 + 3 * nodes by omega, List.replicate_add, calls_append, hfirst,
      bind_some, hrest, show i + 1 + nodes = i + (nodes + 1) by omega,
      show count + 3 + 3 * nodes = count + (3 + 3 * nodes) by omega]

end Line

theorem calls_exec_line :
    (new threePatterns none).calls (lineWalk (2 ^ 31)) 22
        (.exec threePatterns none none :: List.replicate 3 .nextMatch) =
      some (atNode 0 true (threeLists 0 false false false 3) [] 3 3 (3 % 2 ^ 32) 3) := by
  cbv

/-- The cursor when all matches of the first 1431655765 nodes were taken. -/
def beforeWrap (op number : Nat) : TSQueryCursor (Option Nat) :=
  atNode 1431655764 true (threeLists 1431655764 false false false 3) [] op number (2 ^ 32 - 1)
    (2 ^ 32 - 1)

/-- The three matches of the next node are found, and a capture is returned. The match that is
taken then is not the one that was found first. -/
theorem nextCapture_wrap (op number : Nat) :
    (nextCapture (lineWalk (2 ^ 31)) 23 (beforeWrap op number)).map (fun (c, returned) =>
        (returned.isSome, c.finishedStates.map QueryState.discovery,
          c.takeMatch.map fun (c, _) => c.finishedStates.map QueryState.discovery)) =
      some (true, [2 ^ 32, 2 ^ 32 - 1, 2 ^ 32 + 1], some [2 ^ 32 + 1, 2 ^ 32 - 1]) := by
  have hi : 1431655764 + 2 < 2 ^ 31 := by omega
  obtain ⟨op', hadvance⟩ := advance_line hi (by omega) true op number (2 ^ 32 - 1) (2 ^ 32 - 1)
  have hnext : nextCapture (lineWalk (2 ^ 31)) 23 (beforeWrap op number) =
      (advance (lineWalk (2 ^ 31)) true 22 (beforeWrap op number) false).bind fun (c, found) =>
        if !found && c.finishedStates.length = 0 then some (c, none)
        else nextCapture (lineWalk (2 ^ 31)) 22 c := rfl
  rw [hnext, beforeWrap, hadvance]
  cbv

/-- In a text of `2 ^ 31` bytes with a node for each of them, and three patterns, the order is lost
with the match number `2 ^ 32`: it is returned before the one that was found before it. -/
theorem not_finishedInOrder_wrap :
    ∃ c c' result, Reachable (lineWalk (2 ^ 31)) c ∧
      c.finishedStates.map QueryState.discovery = [2 ^ 32, 2 ^ 32 - 1, 2 ^ 32 + 1] ∧
      c.takeMatch = some (c', result) ∧
      c'.finishedStates.map QueryState.discovery = [2 ^ 32 + 1, 2 ^ 32 - 1] ∧
      ¬ FinishedInOrder (lineWalk (2 ^ 31)) c := by
  have hwidth : 2 ^ 31 < 2 ^ 32 := by omega
  obtain ⟨op, number, hmatches⟩ := calls_replicate_line hwidth 1431655764 0 3 3 3 (by omega)
  have hcalls : (new threePatterns none).calls (lineWalk (2 ^ 31)) 22
      ((.exec threePatterns none none :: List.replicate 3 .nextMatch) ++
        List.replicate (3 * 1431655764) .nextMatch) = some (beforeWrap op number) := by
    rw [calls_append, calls_exec_line, bind_some, hmatches]
    rfl
  obtain ⟨⟨c, returned⟩, hcapture, heval⟩ := map_eq_some_iff.1 (nextCapture_wrap op number)
  simp only [Prod.mk.injEq] at heval
  obtain ⟨-, hdiscovery, htake⟩ := heval
  obtain ⟨⟨c', result⟩, htake, hleft⟩ := map_eq_some_iff.1 htake
  have hreach : Reachable (lineWalk (2 ^ 31)) c :=
    ⟨threePatterns, none, (calls_steps hcalls).trans (nextCapture_steps hcapture)⟩
  refine ⟨c, c', result, hreach, hdiscovery, htake, hleft, ?_⟩
  intro hordered
  obtain ⟨state, hperm, -, hleast⟩ := hordered.takeMatch c' result htake
  have hmap := hperm.map QueryState.discovery
  rw [List.map_cons, hdiscovery, hleft] at hmap
  have hnumber : state.discovery = 2 ^ 32 := by
    have hsum := hmap.sum_eq
    simp only [List.sum_cons, List.sum_nil] at hsum
    omega
  obtain ⟨first, hfirst, hzero⟩ : ∃ first ∈ c.finishedStates, first.discovery = 2 ^ 32 - 1 := by
    rw [← List.mem_map, hdiscovery]
    simp
  have := hleast first hfirst
  omega

end TSQueryCursor

end TreeSitter.Lib
