import TreeSitter.Lib.Query.Cursor

/-!
# TreeSitter.Lib.Query.Advance

`ts_query_cursor__advance` and the functions of the query cursor's API. The tree is seen through
a `TreeWalk`: what the cursor reads of the node it is at (`NodeFacts`), and where the three moves
of the tree cursor lead.

On entering a node, new states are started, every state in progress is updated with the node
(`updateStates`), and then shorter matches are dropped and complete ones finished
(`dedupStates`). On leaving it, the states that needed something inside of it have failed
(`leaveStates`).
-/

namespace TreeSitter.Lib

/-- What the query cursor reads of the node at the tree cursor. -/
structure NodeFacts where
  node : QueryNode
  symbol : Nat
  isNamed : Bool
  isMissing : Bool
  parent : Option QueryNode
  parentIsError : Bool
  fieldId : Nat
  supertypes : List Nat
  hasLaterSiblings : Bool
  hasLaterNamedSiblings : Bool
  canHaveLaterSiblingsWithThisField : Bool
  hasChildWithField : Nat → Bool
  isRepetition : Bool
  subtreeSymbol : Nat

/-- `TreeCursorStep`. -/
inductive TreeCursorStep where
  | none
  | hidden
  | visible

/-- The tree as the query cursor sees it: `ts_tree_cursor_goto_first_child_internal`,
`ts_tree_cursor_goto_next_sibling_internal` and `ts_tree_cursor_goto_parent`. -/
structure TreeWalk (τ : Type) where
  facts : τ → NodeFacts
  gotoFirstChild : τ → TreeCursorStep × τ
  gotoNextSibling : τ → TreeCursorStep × τ
  gotoParent : τ → Bool × τ

/-! ### One state and one node -/

/-- `ts_query__step_is_fallible`. -/
def AnalyzedQuery.stepIsFallible (query : AnalyzedQuery) (stepIndex : Nat) : Option Bool := do
  let step ← query.steps[stepIndex]?
  let nextStep ← (query.steps.drop (stepIndex + 1)).find? fun step => !step.isPassThrough
  pure (nextStep.depth ≠ queryNone &&
    (nextStep.depth > step.depth || (nextStep.depth = step.depth && nextStep.isImmediate)) &&
    (!nextStep.parentPatternGuaranteed || step.symbol = wildcardSymbol))

def AnalyzedQuery.negatedFieldsOf (query : AnalyzedQuery) (step : QueryStep) : List Nat :=
  if step.negatedFieldListId = 0 then []
  else (query.negatedFields.drop step.negatedFieldListId).takeWhile (· ≠ 0)

namespace NodeFacts

variable (facts : NodeFacts)

/-- `node_does_match`. -/
def doesMatch (query : AnalyzedQuery) (step : QueryStep) : Bool :=
  (if step.symbol = wildcardSymbol then
    if step.isMissing then facts.isMissing
    else facts.symbol ≠ builtinSymError && (facts.isNamed || !step.isNamed)
  else facts.symbol = step.symbol && (!step.isMissing || facts.isMissing)) &&
  !(step.isLastChild && facts.hasLaterNamedSiblings) &&
  (step.supertypeSymbol = 0 || facts.supertypes.contains step.supertypeSymbol) &&
  (step.field = 0 || step.field = facts.fieldId) &&
  !(query.negatedFieldsOf step).any facts.hasChildWithField

/-- `later_sibling_can_match`. -/
def laterSiblingCanMatch (state : QueryState) (step : QueryStep) : Bool :=
  facts.hasLaterSiblings &&
  !((step.isImmediate && facts.isNamed && !state.skippedQuantifier) || state.seekingImmediateMatch) &&
  !(step.field ≠ 0 && step.field = facts.fieldId && !facts.canHaveLaterSiblingsWithThisField)

end NodeFacts

namespace TSQueryCursor

variable {τ : Type} (self : TSQueryCursor τ)

/-- The condition `later_sibling_can_match && (step->contains_captures || ...)` of a split. -/
def needsSplit (facts : NodeFacts) (state : QueryState) (step : QueryStep) : Option Bool :=
  if facts.laterSiblingCanMatch state step then
    if step.containsCaptures then some true else self.query.stepIsFallible state.stepIndex
  else some false

/-- The split of a state that can also match a later sibling; the number of copies. -/
def splitForCapture (turns : Nat) (facts : NodeFacts) (index : Nat) (state : QueryState)
    (step : QueryStep) : Option (TSQueryCursor τ × Nat) :=
  (self.needsSplit facts state step).bind fun split =>
    if split then
      (self.copyState turns index).map fun (self, copied) => (self, if copied then 1 else 0)
    else some (self, 0)

/-- The wildcard step that a pattern with a wildcard at its root was started after. -/
def skippedWildcardStep (stepIndex : Nat) : Option QueryStep :=
  (self.query.steps.take stepIndex).reverse.find? fun step =>
    !(step.isDeadEnd || step.isPassThrough || step.depth > 0)

/-- The parent node of a pattern that was started at its second step. -/
def captureParent (turns : Nat) (facts : NodeFacts) (index : Nat) (state : QueryState) :
    Option (TSQueryCursor τ) :=
  if state.needsParent then
    match facts.parent with
    | none => some (self.modifyState index ({ · with dead := true }))
    | some parent =>
      (self.skippedWildcardStep state.stepIndex).bind fun skipped =>
        let self := self.modifyState index ({ · with needsParent := false })
        if skipped.captureIds ≠ [] then self.capture turns index skipped parent else some self
  else some self

def captureNode (turns : Nat) (facts : NodeFacts) (index : Nat) (step : QueryStep) :
    Option (TSQueryCursor τ) :=
  if step.captureIds ≠ [] then self.capture turns index step facts.node else some self

/-- The state goes on to the next step of its pattern; that step. -/
def advanceStep (index : Nat) (step : QueryStep) : Option (TSQueryCursor τ × QueryStep) := do
  let state ← self.states[index]?
  let nextStep ← self.query.steps[(state.stepIndex + 1) % 2 ^ 16]?
  pure (self.modifyState index (fun state =>
    { state with
      stepIndex := (state.stepIndex + 1) % 2 ^ 16
      seekingImmediateMatch := step.symbol = wildcardSymbol && !step.isNamed && nextStep.isImmediate
      skippedQuantifier := false }), nextStep)

/-- What taking an alternative that skips an optional step does to the copy. `stepIndex` is where
the state that was copied stands. -/
def skipQuantified (stepIndex : Nat) (childStep : QueryStep) (copy : QueryState) : Option QueryState :=
  if !childStep.isImmediate then
    self.query.steps[childStep.alternativeIndex]?.map fun skipTarget =>
      { copy with skippedQuantifier := skipTarget.depth = childStep.depth }
  else if stepIndex = 0 then none
  else
    self.query.steps[stepIndex - 1]?.map fun previous =>
      if previous.depth < childStep.depth then { copy with seekingImmediateMatch := true } else copy

/-- What the copy for an alternative becomes; `childStep` is the step that has the alternative. -/
def branchCopy (stepIndex : Nat) (childStep : QueryStep) (copy : QueryState) : Option QueryState :=
  let copy := { copy with
    stepIndex := childStep.alternativeIndex
    seekingImmediateMatch := copy.seekingImmediateMatch || childStep.isPassThrough }
  if childStep.alternativeIsSkip then self.skipQuantified stepIndex childStep copy else some copy

/-- The copy of a state for the alternative of its step; whether there is one. -/
def splitForBranch (turns : Nat) (index : Nat) (childStep : QueryStep) :
    Option (TSQueryCursor τ × Bool) :=
  (self.copyState turns index).bind fun (self, copied) =>
    if copied then do
      let childState ← self.states[index]?
      let copy ← self.states[index + 1]?
      let copy ← self.branchCopy childState.stepIndex childStep copy
      pure ({ self with states := self.states.set (index + 1) copy }, true)
    else some (self, false)

/-- The loop over the alternatives of the next step: from the index `k`, with so many copies. -/
def splitLoop (facts : NodeFacts) : Nat → TSQueryCursor τ → Nat → Nat → Nat →
    Option (TSQueryCursor τ × Nat)
  | 0, _, _, _, _ => none
  | turns + 1, self, k, endIndex, copyCount =>
    if k < endIndex then do
      let childState ← self.states[k]?
      let childStep ← self.query.steps[childState.stepIndex]?
      if childStep.alternativeIndex = queryNone then
        splitLoop facts turns self (k + 1) endIndex copyCount
      else if childStep.isDeadEnd then
        splitLoop facts turns (self.modifyState k ({ · with stepIndex := childStep.alternativeIndex }))
          k endIndex copyCount
      else
        -- a pass-through step is passed, and its state is looked at once more
        let next := if childStep.isPassThrough then k else k + 1
        let self := if childStep.isPassThrough then
          self.modifyState k ({ · with stepIndex := (childState.stepIndex + 1) % 2 ^ 16 }) else self
        if childStep.alternativeIsSkip && childStep.isLastChild && facts.hasLaterNamedSiblings then
          splitLoop facts turns self next endIndex copyCount
        else
          (self.splitForBranch turns k childStep).bind fun (self, copied) =>
            if copied then splitLoop facts turns self next (endIndex + 1) (copyCount + 1)
            else splitLoop facts turns self next endIndex copyCount
    else some (self, copyCount)

/-- The part of the update after the captures: a dead state is removed, any other one goes on. The
next index, and whether a definite step was reached. -/
def finishUpdate (turns : Nat) (stopOnDefiniteStep : Bool) (facts : NodeFacts) (index : Nat)
    (step : QueryStep) (copyCount : Nat) : Option (TSQueryCursor τ × Nat × Bool) := do
  let state ← self.states[index]?
  if state.dead then pure ({ self with states := self.states.eraseIdx index }, index + copyCount, false)
  else
    let (self, nextStep) ← self.advanceStep index step
    let (self, copyCount) ← splitLoop facts turns self index (index + 1) copyCount
    pure (self, index + 1 + copyCount, stopOnDefiniteStep && nextStep.rootPatternGuaranteed)

def updateMatching (turns : Nat) (stopOnDefiniteStep : Bool) (facts : NodeFacts) (index : Nat)
    (state : QueryState) (step : QueryStep) : Option (TSQueryCursor τ × Nat × Bool) := do
  let (self, copyCount) ← self.splitForCapture turns facts index state step
  let self ← self.captureParent turns facts index state
  let self ← self.captureNode turns facts index step
  self.finishUpdate turns stopOnDefiniteStep facts index step copyCount

/-- The body of the loop over the states in progress. -/
def updateState (turns : Nat) (stopOnDefiniteStep : Bool) (facts : NodeFacts) (index : Nat) :
    Option (TSQueryCursor τ × Nat × Bool) := do
  let state ← self.states[index]?
  let step ← self.query.steps[state.stepIndex]?
  let self := self.modifyState index ({ · with hasInProgressAlternatives := false })
  if state.startDepth + step.depth ≠ self.depth then pure (self, index + 1, false)
  else if facts.doesMatch self.query step then
    self.updateMatching turns stopOnDefiniteStep facts index state step
  else if facts.laterSiblingCanMatch state step then pure (self, index + 1, false)
  else (self.discardState index).map fun self => (self, index, false)

/-- The loop over the states in progress, from an index on. -/
def updateStates (stopOnDefiniteStep : Bool) (facts : NodeFacts) :
    Nat → TSQueryCursor τ → Nat → Bool → Option (TSQueryCursor τ × Bool)
  | 0, _, _, _ => none
  | turns + 1, self, index, didMatch =>
    if index < self.states.length then
      (self.updateState turns stopOnDefiniteStep facts index).bind fun (self, index, definite) =>
        updateStates stopOnDefiniteStep facts turns self index (didMatch || definite)
    else some (self, didMatch)

/-! ### New states -/

/-- The loop of `ts_query_cursor__add_state`, over the states from the last one down: where the
new state belongs, if it is not there already. -/
def addStateIndex (startDepth : Nat) (entry : PatternEntry) : List QueryState → Option Nat
  | [] => some 0
  | previous :: rest =>
    if previous.startDepth < startDepth then some (rest.length + 1)
    else if previous.startDepth = startDepth then
      if previous.patternIndex = entry.patternIndex ∧ previous.stepIndex = entry.stepIndex then none
      else if previous.patternIndex ≤ entry.patternIndex then some (rest.length + 1)
      else addStateIndex startDepth entry rest
    else addStateIndex startDepth entry rest

def newState (startDepth : Nat) (entry : PatternEntry) (step : QueryStep) : QueryState where
  id := captureListNone
  captureListId := captureListNone
  heapInsertOrder := captureListNone
  discovery := 0
  startDepth := startDepth % 2 ^ 16
  stepIndex := entry.stepIndex
  patternIndex := entry.patternIndex
  consumedCaptureCount := 0
  seekingImmediateMatch := true
  hasInProgressAlternatives := false
  dead := false
  needsParent := step.depth = 1
  skippedQuantifier := false

/-- `ts_query_cursor__add_state`. -/
def addState (entry : PatternEntry) : Option (TSQueryCursor τ) :=
  self.query.steps[entry.stepIndex]?.map fun step =>
    let startDepth := subU32 self.depth step.depth
    match addStateIndex startDepth entry self.states.reverse with
    | none => self
    | some index => { self with states := self.states.insertIdx index (newState startDepth entry step) }

def addStates (node : NodeContext) : Option (TSQueryCursor τ) :=
  (self.query.toTSQuery.startPatterns node).bind fun entries => entries.foldlM (fun self entry => self.addState entry) self

/-! ### Longest matches -/

/-- `ts_query_cursor__state_precedes`. -/
def statePrecedes (a b : QueryState) : Bool :=
  if a.startDepth ≠ b.startDepth then a.startDepth < b.startDepth
  else if a.patternIndex ≠ b.patternIndex then a.patternIndex < b.patternIndex
  else
    match (self.captureListPool.get a.captureListId).contents.head?,
        (self.captureListPool.get b.captureListId).contents.head? with
    | none, none => false
    | none, some _ => true
    | some _, none => false
    | some a, some b => a.node.range.startByte < b.node.range.startByte

/-- The states before go in front of a state, except for those at the end that it precedes. -/
def insertSorted (states : List QueryState) (state : QueryState) : List QueryState :=
  states.rdropWhile (self.statePrecedes state) ++ state :: states.rtakeWhile (self.statePrecedes state)

/-- `ts_query_cursor__sort_states_by_capture`. -/
def sortStatesByCapture : TSQueryCursor τ :=
  { self with states := self.states.foldl self.insertSorted [] }

/-- `ts_query_cursor__compare_nodes`. -/
def compareNodes (left right : QueryNode) : Ordering :=
  if left.id ≠ right.id then
    if left.range.startByte < right.range.startByte then .lt
    else if left.range.startByte > right.range.startByte then .gt
    else if left.range.endByte > right.range.endByte then .lt
    else if left.range.endByte < right.range.endByte then .gt
    else .eq
  else .eq

/-- The loop of `ts_query_cursor__compare_captures`: whether the left captures contain the right
ones, and the other way around. -/
def compareCaptures : List TSQueryCapture → List TSQueryCapture → Bool × Bool
  | [], [] => (true, true)
  | _ :: _, [] => (true, false)
  | [], _ :: _ => (false, true)
  | left :: lefts, right :: rights =>
    if left.node.id = right.node.id ∧ left.index = right.index then compareCaptures lefts rights
    else
      match compareNodes left.node right.node with
      | .lt => ((compareCaptures lefts (right :: rights)).1, false)
      | .gt => (false, (compareCaptures (left :: lefts) rights).2)
      | .eq => (false, false)
termination_by lefts rights => lefts.length + rights.length

/-- Whether the captures of another state begin where those of a state have ended. -/
def disjointCaptures (state other : List TSQueryCapture) : Bool :=
  match state.getLast?, other.head? with
  | some last, some first => first.node.range.startByte ≥ last.node.range.endByte
  | _, _ => false

/-- The states after one state: those of them that it makes redundant are dropped. Whether it
itself was dropped. -/
def dedupAgainst : Nat → TSQueryCursor τ → Nat → Nat → Option (TSQueryCursor τ × Bool)
  | 0, _, _, _ => none
  | turns + 1, self, j, k =>
    if k < self.states.length then do
      let state ← self.states[j]?
      let other ← self.states[k]?
      let stateCaptures := (self.captureListPool.get state.captureListId).contents
      let otherCaptures := (self.captureListPool.get other.captureListId).contents
      if other.startDepth ≠ state.startDepth ∨ other.patternIndex ≠ state.patternIndex ∨
          disjointCaptures stateCaptures otherCaptures then
        some (self, false)
      else
        let (leftContainsRight, rightContainsLeft) := compareCaptures stateCaptures otherCaptures
        if leftContainsRight ∧ state.stepIndex = other.stepIndex ∧
            (other.seekingImmediateMatch ∨ ¬ state.seekingImmediateMatch) then
          (self.discardState k).bind fun self => dedupAgainst turns self j k
        else
          let self := if leftContainsRight then
            self.modifyState k ({ · with hasInProgressAlternatives := true }) else self
          if rightContainsLeft ∧ state.stepIndex = other.stepIndex ∧
              (state.seekingImmediateMatch ∨ ¬ other.seekingImmediateMatch) then
            (self.discardState j).map fun self => (self, true)
          else
            let self := if rightContainsLeft then
              self.modifyState j ({ · with hasInProgressAlternatives := true }) else self
            dedupAgainst turns self j (k + 1)
    else some (self, false)

/-- A state at the end of its pattern is finished, unless longer matches may follow. Whether it
was. -/
def finishState (index : Nat) : Option (TSQueryCursor τ × Bool) := do
  let state ← self.states[index]?
  let nextStep ← self.query.steps[state.stepIndex]?
  if nextStep.depth = queryNone ∧ ¬ state.hasInProgressAlternatives then
    pure ({ self.pushFinishedState state with states := self.states.eraseIdx index }, true)
  else pure (self, false)

/-- The loop over the states that enforces the longest-match criteria, from an index on. -/
def dedupStates : Nat → TSQueryCursor τ → Nat → Bool → Option (TSQueryCursor τ × Bool)
  | 0, _, _, _ => none
  | turns + 1, self, j, didMatch =>
    if j < self.states.length then do
      let state ← self.states[j]?
      if state.dead then
        dedupStates turns { self with states := self.states.eraseIdx j } j didMatch
      else
        (dedupAgainst turns self j (j + 1)).bind fun (self, removed) =>
          if removed then dedupStates turns self j didMatch
          else
            (self.finishState j).bind fun (self, finished) =>
              if finished then dedupStates turns self j true
              else dedupStates turns self (j + 1) didMatch
    else some (self, didMatch)

/-! ### The walk over the tree -/

/-- The loop over the states when a node is left: the states that are kept, and whether one was
finished. -/
def leaveStates : List QueryState → TSQueryCursor τ → Option (TSQueryCursor τ × List QueryState × Bool)
  | [], self => some (self, [], false)
  | state :: states, self =>
    self.query.steps[state.stepIndex]?.bind fun step =>
      if step.depth = queryNone ∧ (state.startDepth > self.depth ∨ self.depth = 0) then
        (leaveStates states (self.pushFinishedState state)).map fun (self, kept, _) => (self, kept, true)
      else if step.depth ≠ queryNone ∧ state.startDepth + step.depth > self.depth then
        leaveStates states
          { self with captureListPool := self.captureListPool.release state.captureListId }
      else
        (leaveStates states self).map fun (self, kept, didMatch) => (self, state :: kept, didMatch)

def leaveNode : Option (TSQueryCursor τ × Bool) :=
  if self.onVisibleNode then
    (leaveStates self.states self).map fun (self, kept, didMatch) =>
      ({ self with states := kept }, didMatch)
  else some (self, false)

/-- The step to the next sibling, or to the parent. -/
def leave (walk : TreeWalk τ) : TSQueryCursor τ :=
  match walk.gotoNextSibling self.cursor with
  | (.visible, cursor) =>
    if self.onVisibleNode then { self with cursor, ascending := false }
    else { self with cursor, ascending := false, depth := addU32 self.depth 1, onVisibleNode := true }
  | (.hidden, cursor) =>
    if self.onVisibleNode then
      { self with cursor, ascending := false, depth := subU32 self.depth 1, onVisibleNode := false }
    else { self with cursor, ascending := false }
  | (.none, cursor) =>
    match walk.gotoParent cursor with
    | (true, cursor) => { self with cursor, depth := subU32 self.depth 1 }
    | (false, cursor) => { self with cursor, halted := true }

/-- `ts_query_cursor__should_descend`. -/
def shouldDescend (facts : NodeFacts) (nodeIntersectsRange : Bool) : Option Bool :=
  if nodeIntersectsRange && self.depth < self.maxStartDepth then some true
  else
    (self.states.mapM fun state => self.query.steps[state.stepIndex]?.map fun nextStep =>
      decide (nextStep.depth ≠ queryNone ∧ state.startDepth + nextStep.depth > self.depth)).map
    fun deeper =>
      if deeper.any id then true
      else if self.depth ≥ self.maxStartDepth then false
      else if !self.onVisibleNode then
        if facts.isRepetition then
          self.query.repeatSymbolsWithRootlessPatterns.contains facts.subtreeSymbol
        else true
      else false

/-- Whether the parent of the node meets the cursor's range; there may be none. -/
def parentIntersectsRange (facts : NodeFacts) : Bool :=
  match facts.parent with
  | none => true
  | some parent => parent.range.intersects self.includedRange

/-- What the start of a match depends on. -/
def nodeContext (facts : NodeFacts) : NodeContext where
  symbol := facts.symbol
  parentIsError := facts.parentIsError
  nodeIntersectsRange :=
    self.parentIntersectsRange facts && facts.node.range.intersects self.includedRange
  parentIntersectsRange := self.parentIntersectsRange facts
  fieldId := facts.fieldId
  supertypeCount := facts.supertypes.length
  depth := self.depth
  maxStartDepth := self.maxStartDepth

/-- The states and the node that is entered; whether a match was found. -/
def enterNode (turns : Nat) (stopOnDefiniteStep : Bool) (facts : NodeFacts) :
    Option (TSQueryCursor τ × Bool) :=
  if facts.node.range.within self.containingRange && self.onVisibleNode then do
    let self ← self.addStates (self.nodeContext facts)
    let (self, didMatch) ← updateStates stopOnDefiniteStep facts turns self 0 false
    dedupStates turns self.sortStatesByCapture 0 didMatch
  else some (self, false)

/-- The step to the first child, if there is a reason to descend. -/
def descend (walk : TreeWalk τ) (facts : NodeFacts) : Option (TSQueryCursor τ) :=
  if facts.node.range.intersects self.containingRange then
    (self.shouldDescend facts (self.nodeContext facts).nodeIntersectsRange).map fun should =>
      if should then
        match walk.gotoFirstChild self.cursor with
        | (.visible, cursor) =>
          { self with cursor, depth := addU32 self.depth 1, onVisibleNode := true }
        | (.hidden, cursor) => { self with cursor, onVisibleNode := false }
        | (.none, cursor) => { self with cursor, ascending := true }
      else { self with ascending := true }
  else some { self with ascending := true }

/-- The cursor has come to its end: the states in progress give their lists back. -/
def releaseStates : TSQueryCursor τ :=
  { self with
    states := []
    captureListPool := self.states.foldr (fun state pool => pool.release state.captureListId)
      self.captureListPool }

/-- The count of the operations, up to `OP_COUNT_PER_QUERY_CALLBACK_CHECK`. -/
def countOperation : TSQueryCursor τ :=
  { self with operationCount := if self.operationCount + 1 = 100 then 0 else self.operationCount + 1 }

/-- What every turn of the loop of `ts_query_cursor__advance` begins with. -/
def beginTurn : TSQueryCursor τ := (if self.halted then self.releaseStates else self).countOperation

/-- The answer of the progress callback, when it is time to ask for it. -/
def askCallback : TSQueryCursor τ × Bool :=
  match self.progressCallback with
  | some callback =>
    if self.operationCount = 0 then
      ({ self with callbackCount := self.callbackCount + 1 }, callback self.callbackCount)
    else (self, false)
  | none => (self, false)

/-- One turn of the loop of `ts_query_cursor__advance`, for a cursor that goes on: whether a match
was found. -/
def advanceTurn (walk : TreeWalk τ) (turns : Nat) (stopOnDefiniteStep : Bool) :
    Option (TSQueryCursor τ × Bool) :=
  if self.ascending then self.leaveNode.map fun (self, didMatch) => (self.leave walk, didMatch)
  else
    (self.enterNode turns stopOnDefiniteStep (walk.facts self.cursor)).bind fun (self, didMatch) =>
      (self.descend walk (walk.facts self.cursor)).map fun self => (self, didMatch)

/-- `ts_query_cursor__advance`. -/
def advance (walk : TreeWalk τ) (stopOnDefiniteStep : Bool) :
    Nat → TSQueryCursor τ → Bool → Option (TSQueryCursor τ × Bool)
  | 0, _, _ => none
  | turns + 1, self, didMatch =>
    let self := self.beginTurn
    if didMatch || self.halted then some (self, didMatch)
    else
      let (self, stop) := self.askCallback
      if stop then some (self, didMatch)
      else
        (self.advanceTurn walk turns stopOnDefiniteStep).bind fun (self, matched) =>
          advance walk stopOnDefiniteStep turns self (didMatch || matched)

/-! ### The functions of the API -/

/-- `TSQueryMatch`. -/
structure TSQueryMatch where
  id : Nat
  patternIndex : Nat
  captures : List TSQueryCapture

/-- The number that a state is known by outside, given to it at first use. -/
def assignId (state : QueryState) : TSQueryCursor τ × Nat :=
  if state.id = captureListNone then
    ({ self with nextStateId := (self.nextStateId + 1) % 2 ^ 32 }, self.nextStateId)
  else (self, state.id)

/-- The match that a state stands for, under a number. -/
def matchOf (state : QueryState) (id : Nat) : TSQueryMatch :=
  ⟨id, state.patternIndex, (self.captureListPool.get state.captureListId).contents⟩

/-- The loop of `ts_query_cursor_next_match`: the state that was finished first, among those from
an index on and the one at `stateIndex`. -/
def earliestFrom (states : List QueryState) : List Nat → Nat → Nat
  | [], stateIndex => stateIndex
  | i :: indices, stateIndex =>
    match states[i]?, states[stateIndex]? with
    | some state, some earliest =>
      earliestFrom states indices
        (if state.heapInsertOrder < earliest.heapInsertOrder then i else stateIndex)
    | _, _ => earliestFrom states indices stateIndex

/-- A finished state gives its list back and is removed, from a heap or from a plain array. -/
def removeFinished (index : Nat) (state : QueryState) : TSQueryCursor τ :=
  let pool := self.captureListPool.release state.captureListId
  if self.finishedStatesHeapSize > 0 then
    let states := finishedStateErase pool self.finishedStates index
    { self with
      captureListPool := pool, finishedStates := states, finishedStatesHeapSize := states.length }
  else { self with captureListPool := pool, finishedStates := self.finishedStates.eraseIdx index }

/-- The newly finished states go to their places, if the finished states are a heap. -/
def heapifyIfHeap : TSQueryCursor τ :=
  if self.finishedStatesHeapSize > 0 then self.heapifyFinishedStates else self

/-- The part of `ts_query_cursor_next_match` that takes a match from the finished states. -/
def takeMatch : Option (TSQueryCursor τ × TSQueryMatch) :=
  let self := self.heapifyIfHeap
  let stateIndex :=
    if self.finishedStatesHeapSize > 0 then
      earliestFrom self.finishedStates (List.range' 1 (self.finishedStates.length - 1)) 0
    else 0
  self.finishedStates[stateIndex]?.map fun state =>
    let (self, id) := self.assignId state
    (self.removeFinished stateIndex state, self.matchOf state id)

/-- `ts_query_cursor_next_match`. -/
def nextMatch (walk : TreeWalk τ) (turns : Nat) : Option (TSQueryCursor τ × Option TSQueryMatch) :=
  if self.finishedStates.length = 0 then
    (advance walk false turns self false).bind fun (self, found) =>
      if found then self.takeMatch.map fun (self, result) => (self, some result)
      else some (self, none)
  else self.takeMatch.map fun (self, result) => (self, some result)

/-- `ts_query_cursor_remove_match`. -/
def removeMatch (matchId : Nat) : TSQueryCursor τ :=
  let self := self.heapifyIfHeap
  match self.finishedStates.findIdx? fun state => state.id = matchId with
  | some index =>
    match self.finishedStates[index]? with
    | some state => self.removeFinished index state
    | none => self
  | none =>
    match self.states.findIdx? fun state => state.id = matchId with
    | some index => (self.discardState index).getD self
    | none => self

/-- The state at the root of the heap gives its list back and is removed. -/
def dropRoot (state : QueryState) : TSQueryCursor τ :=
  let pool := self.captureListPool.release state.captureListId
  let states := finishedStatePop pool self.finishedStates
  { self with
    captureListPool := pool, finishedStates := states, finishedStatesHeapSize := states.length }

/-- Another state at the root of the heap, which goes to its place. -/
def replaceRoot (state : QueryState) : TSQueryCursor τ :=
  { self with
    finishedStates := finishedStateSiftDown self.captureListPool (self.finishedStates.set 0 state) 0 }

/-- The loop of `ts_query_cursor_next_capture` over the root of the heap: states without captures
left are removed, and captures outside of the range are skipped. -/
def cleanUp : Nat → TSQueryCursor τ → Option (TSQueryCursor τ)
  | 0, _ => none
  | turns + 1, self =>
    match self.finishedStates with
    | [] => some self
    | state :: _ =>
      if isConsumed self.captureListPool state then cleanUp turns (self.dropRoot state)
      else
        (nextCaptureOf self.captureListPool state).bind fun capture =>
          if capture.node.precedesRange self.includedRange ||
              capture.node.followsRange self.includedRange then
            cleanUp turns (self.replaceRoot state.consume)
          else some self

/-- The state at the root of the heap, if its next capture is before all captures in progress. -/
def firstFinished (first : Option FirstCapture) : Option QueryState :=
  match self.finishedStates with
  | [] => none
  | state :: _ =>
    (nextCaptureOf self.captureListPool state).bind fun capture =>
      if beforeFirst first capture.node.range.startByte state.patternIndex then some state else none

/-- A capture that is returned: its match, and its index in it. -/
abbrev ReturnedCapture := TSQueryMatch × Nat

def returnFinished (state : QueryState) : TSQueryCursor τ × ReturnedCapture :=
  let (self, id) := self.assignId state
  (self.replaceRoot { state.consume with id }, self.matchOf state id, state.consumedCaptureCount)

def returnUnfinished (index : Nat) (state : QueryState) : TSQueryCursor τ × ReturnedCapture :=
  let (self, id) := self.assignId state
  ({ self with states := self.states.set index { state.consume with id } }, self.matchOf state id,
    state.consumedCaptureCount)

/-- The state with the first capture in progress is given up when there are no lists left. -/
def abandonState (first : Option FirstCapture) : Option (TSQueryCursor τ) :=
  match first with
  | some first => if self.captureListPool.isEmpty then self.discardState first.stateIndex else some self
  | none => some self

/-- One turn of `ts_query_cursor_next_capture` up to where it goes on with the walk: the capture,
if there is one to return. -/
def captureTurn (turns : Nat) : Option (TSQueryCursor τ × Option ReturnedCapture) := do
  let (self, first) ← self.heapifyFinishedStates.firstInProgressCapture turns true
  let self ← cleanUp turns self
  match self.firstFinished first with
  | some state =>
    let (self, returned) := self.returnFinished state
    pure (self, some returned)
  | none =>
    match first with
    | some ⟨index, _, _, true⟩ =>
      let state ← self.states[index]?
      let (self, returned) := self.returnUnfinished index state
      pure (self, some returned)
    | first => (self.abandonState first).map fun self => (self, none)

/-- `ts_query_cursor_next_capture`. -/
def nextCapture (walk : TreeWalk τ) : Nat → TSQueryCursor τ → Option (TSQueryCursor τ × Option ReturnedCapture)
  | 0, _ => none
  | turns + 1, self =>
    (self.captureTurn turns).bind fun (self, returned) =>
      match returned with
      | some returned => some (self, some returned)
      | none =>
        (advance walk true turns self false).bind fun (self, found) =>
          if !found && self.finishedStates.length = 0 then some (self, none)
          else nextCapture walk turns self

/-- `ts_query_cursor_exec_with_options`; the state of the callback starts anew. -/
def exec (query : AnalyzedQuery) (cursor : τ) (progressCallback : Option (Nat → Bool)) :
    TSQueryCursor τ :=
  { self with
    query, cursor, progressCallback
    states := []
    finishedStates := []
    finishedStatesHeapSize := 0
    captureListPool := self.captureListPool.reset
    onVisibleNode := true
    nextStateId := 0
    nextFinishedStateId := 0
    finishedCount := 0
    depth := 0
    ascending := false
    halted := false
    didExceedMatchLimit := false
    operationCount := 0
    callbackCount := 0 }

/-- `ts_query_cursor_set_match_limit`. -/
def setMatchLimit (limit : Nat) : TSQueryCursor τ :=
  { self with
    captureListPool := { self.captureListPool with maxCaptureListCount := limit % 2 ^ 32 } }

/-- `POINT_MAX`. -/
def pointMax : Point := ⟨2 ^ 32 - 1, 2 ^ 32 - 1⟩

/-- A range with other bytes, if they are in order; the end 0 stands for no end. -/
def withBytes (range : TSRange) (startByte endByte : Nat) : Option TSRange :=
  let endByte := if endByte = 0 then 2 ^ 32 - 1 else endByte
  if startByte > endByte then none else some { range with startByte, endByte }

/-- A range with other points, if they are in order; the end 0 stands for no end. -/
def withPoints (range : TSRange) (startPoint endPoint : Point) : Option TSRange :=
  let endPoint := if endPoint.row = 0 ∧ endPoint.column = 0 then pointMax else endPoint
  if endPoint.lt startPoint then none else some { range with startPoint, endPoint }

/-- `ts_query_cursor_set_byte_range`. -/
def setByteRange (startByte endByte : Nat) : TSQueryCursor τ :=
  { self with includedRange := (withBytes self.includedRange startByte endByte).getD self.includedRange }

/-- `ts_query_cursor_set_point_range`. -/
def setPointRange (startPoint endPoint : Point) : TSQueryCursor τ :=
  { self with includedRange := (withPoints self.includedRange startPoint endPoint).getD self.includedRange }

/-- `ts_query_cursor_set_containing_byte_range`. -/
def setContainingByteRange (startByte endByte : Nat) : TSQueryCursor τ :=
  { self with
    containingRange := (withBytes self.containingRange startByte endByte).getD self.containingRange }

/-- `ts_query_cursor_set_containing_point_range`. -/
def setContainingPointRange (startPoint endPoint : Point) : TSQueryCursor τ :=
  { self with
    containingRange := (withPoints self.containingRange startPoint endPoint).getD self.containingRange }

/-- `ts_query_cursor_set_max_start_depth`. -/
def setMaxStartDepth (maxStartDepth : Nat) : TSQueryCursor τ := { self with maxStartDepth }

/-- `ts_query_cursor_new`; there is no query and no tree yet. -/
def new (query : AnalyzedQuery) (cursor : τ) : TSQueryCursor τ where
  query := query
  cursor := cursor
  states := []
  finishedStates := []
  finishedStatesHeapSize := 0
  captureListPool := .new
  depth := 0
  maxStartDepth := 2 ^ 32 - 1
  includedRange := ⟨0, 2 ^ 32 - 1, ⟨0, 0⟩, pointMax⟩
  containingRange := ⟨0, 2 ^ 32 - 1, ⟨0, 0⟩, pointMax⟩
  nextStateId := 0
  nextFinishedStateId := 0
  finishedCount := 0
  progressCallback := none
  callbackCount := 0
  operationCount := 0
  onVisibleNode := false
  ascending := false
  halted := false
  didExceedMatchLimit := false

/-- The calls that a program can make. -/
inductive Call (τ : Type) where
  | exec (query : AnalyzedQuery) (cursor : τ) (progressCallback : Option (Nat → Bool))
  | setMatchLimit (limit : Nat)
  | setByteRange (startByte endByte : Nat)
  | setPointRange (startPoint endPoint : Point)
  | setContainingByteRange (startByte endByte : Nat)
  | setContainingPointRange (startPoint endPoint : Point)
  | setMaxStartDepth (maxStartDepth : Nat)
  | nextMatch
  | removeMatch (matchId : Nat)
  | nextCapture

/-- One call; what it returns is left out. -/
def call (walk : TreeWalk τ) (turns : Nat) : Call τ → Option (TSQueryCursor τ)
  | .exec query cursor progressCallback => some (self.exec query cursor progressCallback)
  | .setMatchLimit limit => some (self.setMatchLimit limit)
  | .setByteRange startByte endByte => some (self.setByteRange startByte endByte)
  | .setPointRange startPoint endPoint => some (self.setPointRange startPoint endPoint)
  | .setContainingByteRange startByte endByte => some (self.setContainingByteRange startByte endByte)
  | .setContainingPointRange startPoint endPoint =>
    some (self.setContainingPointRange startPoint endPoint)
  | .setMaxStartDepth maxStartDepth => some (self.setMaxStartDepth maxStartDepth)
  | .nextMatch => (self.nextMatch walk turns).map Prod.fst
  | .removeMatch matchId => some (self.removeMatch matchId)
  | .nextCapture => (nextCapture walk turns self).map Prod.fst

end TSQueryCursor

end TreeSitter.Lib
