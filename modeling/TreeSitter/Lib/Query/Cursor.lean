import TreeSitter.Lib.Query.PatternMap
import TreeSitter.Library.BinaryHeap

/-!
# TreeSitter.Lib.Query.Cursor

The **query cursor** of `query.c`: the states of the matches in progress, the finished ones, and
the pool of their capture lists.

* `CaptureListPool` hands out lists, marks them unused again, and counts those that are;
* `prepareToCapture`, `capture` and `copyState` give a state its list, and take one away from
  another state when the limit is reached;
* `finishedStateErase` and the functions before it keep the finished states in a **min-heap**.

How the cursor walks over the tree is in `TreeSitter.Lib.Query.Advance`. An access outside of an
array is `none`, and so is a loop that takes more than the given number of turns.
-/

namespace TreeSitter.Lib

open Library

/-! ### Ranges -/

/-- `range_intersects`. -/
def TSRange.intersects (a b : TSRange) : Bool :=
  let isEmpty : Bool := a.startByte = a.endByte
  (a.endByte > b.startByte || (isEmpty && a.endByte = b.startByte)) &&
  (b.startPoint.lt a.endPoint || (isEmpty && a.endPoint = b.startPoint)) &&
  a.startByte < b.endByte && a.startPoint.lt b.endPoint

/-- `range_within`. -/
def TSRange.within (a b : TSRange) : Bool :=
  a.startByte ≥ b.startByte && b.startPoint.lte a.startPoint &&
  a.endByte ≤ b.endByte && a.endPoint.lte b.endPoint

/-- `TSNode`, of what the captures need: the identity and the extent. -/
structure QueryNode where
  id : Nat
  range : TSRange
deriving DecidableEq

/-- The node ends before a range starts. -/
def QueryNode.precedesRange (node : QueryNode) (range : TSRange) : Bool :=
  node.range.endByte ≤ range.startByte || node.range.endPoint.lte range.startPoint

/-- The node starts after a range ends. -/
def QueryNode.followsRange (node : QueryNode) (range : TSRange) : Bool :=
  node.range.startByte ≥ range.endByte || range.endPoint.lte node.range.startPoint

/-- `TSQueryCapture`. -/
structure TSQueryCapture where
  node : QueryNode
  index : Nat
deriving DecidableEq

/-! ### The capture lists -/

/-- `UINT32_MAX`, and `CAPTURE_LIST_NONE`. -/
def captureListNone : Nat := 2 ^ 32 - 1

/-- `CaptureList`. A list that is not in use keeps what it had, under an invalid size. -/
structure CaptureList where
  contents : List TSQueryCapture
  inUse : Bool

/-- The `size` of a list. -/
def CaptureList.size (list : CaptureList) : Nat :=
  if list.inUse then list.contents.length else captureListNone

/-- `CaptureListPool`. -/
structure CaptureListPool where
  list : List CaptureList
  maxCaptureListCount : Nat
  freeCaptureListCount : Nat

namespace CaptureListPool

/-- `capture_list_pool_new`. -/
def new : CaptureListPool := ⟨[], captureListNone, 0⟩

variable (self : CaptureListPool)

/-- `capture_list_pool_reset`. -/
def reset : CaptureListPool :=
  { self with
    list := self.list.map fun list => { list with inUse := false }
    freeCaptureListCount := self.list.length }

/-- `capture_list_pool_get`; a state without a list has the empty list. -/
def get (id : Nat) : CaptureList := self.list[id]?.getD ⟨[], true⟩

/-- `capture_list_pool_is_empty`. -/
def isEmpty : Bool :=
  self.freeCaptureListCount = 0 && self.list.length ≥ self.maxCaptureListCount

/-- The first list that is not in use, if the count says that there is one. -/
def findFree : Option Nat :=
  if self.freeCaptureListCount > 0 then self.list.findIdx? fun list => !list.inUse else none

/-- `capture_list_pool_acquire`. -/
def acquire : CaptureListPool × Nat :=
  match self.findFree with
  | some i =>
    ({ self with
        list := self.list.set i ⟨[], true⟩
        freeCaptureListCount := self.freeCaptureListCount - 1 }, i)
  | none =>
    if self.list.length ≥ self.maxCaptureListCount then (self, captureListNone)
    else ({ self with list := self.list ++ [⟨[], true⟩] }, self.list.length)

/-- `capture_list_pool_release`. -/
def release (id : Nat) : CaptureListPool :=
  if id ≥ self.list.length then self
  else
    { self with
      list := self.list.modify id fun list => { list with inUse := false }
      freeCaptureListCount := self.freeCaptureListCount + 1 }

/-- `array_clear` on a list. -/
def clear (id : Nat) : CaptureListPool :=
  { self with list := self.list.modify id fun _ => ⟨[], true⟩ }

/-- `array_push` on a list, for several captures. -/
def push (id : Nat) (captures : List TSQueryCapture) : CaptureListPool :=
  { self with
    list := self.list.modify id fun list => { list with contents := list.contents ++ captures } }

end CaptureListPool

/-! ### States -/

/-- `QueryState`. The `discovery` is not in the source: it is the number of the state among all
that were finished, of which `heap_insert_order` is the lower 32 bits. -/
structure QueryState where
  id : Nat
  captureListId : Nat
  heapInsertOrder : Nat
  discovery : Nat
  startDepth : Nat
  stepIndex : Nat
  patternIndex : Nat
  consumedCaptureCount : Nat
  seekingImmediateMatch : Bool
  hasInProgressAlternatives : Bool
  dead : Bool
  needsParent : Bool
  skippedQuantifier : Bool
deriving DecidableEq

/-- One more capture is consumed; the count has 12 bits. -/
def QueryState.consume (state : QueryState) : QueryState :=
  { state with consumedCaptureCount := (state.consumedCaptureCount + 1) % 2 ^ 12 }

def nextCaptureOf (pool : CaptureListPool) (state : QueryState) : Option TSQueryCapture :=
  (pool.get state.captureListId).contents[state.consumedCaptureCount]?

/-- Whether a state has returned all its captures. -/
def isConsumed (pool : CaptureListPool) (state : QueryState) : Bool :=
  state.consumedCaptureCount ≥ (pool.get state.captureListId).size

/-- `finished_state_precedes`. -/
def finishedStatePrecedes (pool : CaptureListPool) (a b : QueryState) : Bool :=
  if isConsumed pool a then false
  else if isConsumed pool b then true
  else
    let aByte := (nextCaptureOf pool a).elim 0 (·.node.range.startByte)
    let bByte := (nextCaptureOf pool b).elim 0 (·.node.range.startByte)
    if aByte ≠ bByte then aByte < bByte
    else if a.patternIndex ≠ b.patternIndex then a.patternIndex < b.patternIndex
    else a.heapInsertOrder < b.heapInsertOrder

/-- `finished_state_sift_down`. -/
def finishedStateSiftDown (pool : CaptureListPool) (states : List QueryState) (index : Nat) :
    List QueryState :=
  BinaryHeap.siftDown (finishedStatePrecedes pool) states index

/-- `finished_state_pop`. -/
def finishedStatePop (pool : CaptureListPool) (states : List QueryState) : List QueryState :=
  BinaryHeap.pop (finishedStatePrecedes pool) states

/-- `finished_state_erase`. -/
def finishedStateErase (pool : CaptureListPool) (states : List QueryState) (index : Nat) :
    List QueryState :=
  BinaryHeap.erase (finishedStatePrecedes pool) states index

/-! ### The cursor -/

/-- A query after its analysis, with the lists that the analysis fills. -/
structure AnalyzedQuery extends TSQuery where
  negatedFields : List Nat
  repeatSymbolsWithRootlessPatterns : List Nat

/-- `TSQueryCursor`; `cursor` stands for the tree cursor, and the progress callback for its answers
by the number of the call. The `finishedCount` is not in the source: it counts the states that
were finished, without wrapping around. -/
structure TSQueryCursor (τ : Type) where
  query : AnalyzedQuery
  cursor : τ
  states : List QueryState
  finishedStates : List QueryState
  finishedStatesHeapSize : Nat
  captureListPool : CaptureListPool
  depth : Nat
  maxStartDepth : Nat
  includedRange : TSRange
  containingRange : TSRange
  nextStateId : Nat
  nextFinishedStateId : Nat
  finishedCount : Nat
  progressCallback : Option (Nat → Bool)
  callbackCount : Nat
  operationCount : Nat
  onVisibleNode : Bool
  ascending : Bool
  halted : Bool
  didExceedMatchLimit : Bool

namespace TSQueryCursor

variable {τ : Type} (self : TSQueryCursor τ)

def capturesOf (state : QueryState) : List TSQueryCapture :=
  (self.captureListPool.get state.captureListId).contents

/-- `ts_query_cursor__push_finished_state`; the sequence number has 32 bits. -/
def pushFinishedState (state : QueryState) : TSQueryCursor τ :=
  { self with
    finishedStates := self.finishedStates ++
      [{ state with heapInsertOrder := self.nextFinishedStateId, discovery := self.finishedCount }]
    nextFinishedStateId := (self.nextFinishedStateId + 1) % 2 ^ 32
    finishedCount := self.finishedCount + 1 }

/-- `ts_query_cursor__heapify_finished_states`. -/
def heapifyFinishedStates : TSQueryCursor τ :=
  { self with
    finishedStates := BinaryHeap.heapifyFrom (finishedStatePrecedes self.captureListPool)
      (self.finishedStates.length - self.finishedStatesHeapSize) self.finishedStates
      self.finishedStatesHeapSize
    finishedStatesHeapSize := max self.finishedStatesHeapSize self.finishedStates.length }

/-! ### The first capture in progress -/

/-- The captures of a state that end before the range count as consumed. -/
def skipPreceding (pool : CaptureListPool) (range : TSRange) : Nat → QueryState → Option QueryState
  | 0, _ => none
  | turns + 1, state =>
    if isConsumed pool state then some state
    else (nextCaptureOf pool state).bind fun capture =>
      if capture.node.precedesRange range then skipPreceding pool range turns state.consume
      else some state

/-- What `ts_query_cursor__first_in_progress_capture` finds. -/
structure FirstCapture where
  stateIndex : Nat
  byteOffset : Nat
  patternIndex : Nat
  isDefinite : Bool

/-- Whether a capture is before the first one so far. -/
def beforeFirst (first : Option FirstCapture) (startByte patternIndex : Nat) : Bool :=
  match first with
  | none => true
  | some first =>
    startByte < first.byteOffset ||
      (startByte = first.byteOffset && patternIndex < first.patternIndex)

def firstInProgressTurn (turns : Nat) (wantsDefinite : Bool) (index : Nat) (state : QueryState)
    (first : Option FirstCapture) : Option (QueryState × Option FirstCapture) :=
  if state.dead then some (state, first)
  else (skipPreceding self.captureListPool self.includedRange turns state).bind fun state =>
    if isConsumed self.captureListPool state then some (state, first)
    else (nextCaptureOf self.captureListPool state).bind fun capture =>
      if beforeFirst first capture.node.range.startByte state.patternIndex then
        self.query.steps[state.stepIndex]?.map fun step =>
          if wantsDefinite then
            (state, some ⟨index, capture.node.range.startByte, state.patternIndex,
              step.rootPatternGuaranteed && !step.isImmediate⟩)
          else if step.rootPatternGuaranteed then (state, first)
          else (state, some ⟨index, capture.node.range.startByte, state.patternIndex, false⟩)
      else some (state, first)

/-- The loop over the states, from an index on. -/
def firstInProgressLoop (turns : Nat) (wantsDefinite : Bool) :
    List QueryState → Nat → Option FirstCapture → Option (List QueryState × Option FirstCapture)
  | [], _, first => some ([], first)
  | state :: states, index, first =>
    (self.firstInProgressTurn turns wantsDefinite index state first).bind fun (state, first) =>
      (firstInProgressLoop turns wantsDefinite states (index + 1) first).map fun (states, first) =>
        (state :: states, first)

/-- `ts_query_cursor__first_in_progress_capture`. -/
def firstInProgressCapture (turns : Nat) (wantsDefinite : Bool) :
    Option (TSQueryCursor τ × Option FirstCapture) :=
  (self.firstInProgressLoop turns wantsDefinite self.states 0 none).map fun (states, first) =>
    ({ self with states }, first)

/-! ### Captures and copies -/

/-- The list of another state is taken away, and that state is dead. -/
def stealList (stateIndex : Nat) : Option (TSQueryCursor τ × Nat) :=
  self.states[stateIndex]?.map fun other =>
    ({ self with
        states := self.states.set stateIndex { other with captureListId := captureListNone, dead := true }
        captureListPool := self.captureListPool.clear other.captureListId }, other.captureListId)

/-- `ts_query_cursor__prepare_to_capture`, for a state with this list: the list that it has then,
or none. -/
def prepareToCapture (turns : Nat) (captureListId stateIndexToPreserve : Nat) :
    Option (TSQueryCursor τ × Nat) :=
  if captureListId ≠ captureListNone then some (self, captureListId)
  else
    let (pool, id) := self.captureListPool.acquire
    if id ≠ captureListNone then some ({ self with captureListPool := pool }, id)
    else
      (firstInProgressCapture { self with didExceedMatchLimit := true } turns false).bind
        fun (self, first) =>
          match first with
          | some first =>
            if first.stateIndex ≠ stateIndexToPreserve then self.stealList first.stateIndex
            else some (self, captureListNone)
          | none => some (self, captureListNone)

def modifyState (index : Nat) (f : QueryState → QueryState) : TSQueryCursor τ :=
  { self with states := self.states.modify index f }

/-- `ts_query_cursor__capture`, for the state at an index. -/
def capture (turns : Nat) (index : Nat) (step : QueryStep) (node : QueryNode) :
    Option (TSQueryCursor τ) := do
  let state ← self.states[index]?
  if state.dead then some self
  else
    (self.prepareToCapture turns state.captureListId captureListNone).map fun (self, id) =>
      if id = captureListNone then self.modifyState index ({ · with dead := true })
      else
        { self.modifyState index ({ · with captureListId := id }) with
          captureListPool := self.captureListPool.push id
            (step.captureIds.map fun captureId => ⟨node, captureId⟩) }

/-- `ts_query_cursor__copy_state`, for the state at an index; whether there is a copy. -/
def copyState (turns : Nat) (index : Nat) : Option (TSQueryCursor τ × Bool) := do
  let state ← self.states[index]?
  if state.captureListId ≠ captureListNone then
    (self.prepareToCapture turns captureListNone index).map fun (self, id) =>
      if id = captureListNone then (self, false)
      else
        ({ self with
            captureListPool := self.captureListPool.push id
              (self.captureListPool.get state.captureListId).contents
            states := self.states.insertIdx (index + 1) { state with captureListId := id } }, true)
  else some ({ self with states := self.states.insertIdx (index + 1) state }, true)

/-- A state leaves the states in progress, and gives its list back. -/
def discardState (index : Nat) : Option (TSQueryCursor τ) :=
  self.states[index]?.map fun state =>
    { self with
      states := self.states.eraseIdx index
      captureListPool := self.captureListPool.release state.captureListId }

end TSQueryCursor

end TreeSitter.Lib
