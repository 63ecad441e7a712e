import TreeSitter.Lib.Language
import TreeSitter.Lib.Length

/-!
# TreeSitter.Lib.Query.PatternMap

The **pattern map** of `query.c`: for every pattern the steps at which a match of it can begin,
sorted such that the cursor finds those for a node's symbol by a binary search.

* `patternMapSearch` and `patternMapInsert` are the two operations on the map;
* `newQuery` is the part of `ts_query_new` that fills it, given the steps that
  `ts_query__parse_pattern` pushes for each pattern, and `disablePattern` removes a pattern;
* `startPatterns` is the part of `ts_query_cursor__advance` that reads the map, and answers the
  entries for which it adds a state.

An access outside of an array is `none`. The entries that begin with a wildcard stand first, and
`wildcardRootPatternCount` says how many they are.
-/

namespace TreeSitter.Lib

/-- `NONE` and `PATTERN_DONE_MARKER`. -/
def queryNone : Nat := 2 ^ 16 - 1

/-- `WILDCARD_SYMBOL`. -/
def wildcardSymbol : Nat := 0

/-- `QueryStep`. The capture ids are those before the first `NONE`. -/
structure QueryStep where
  symbol : Nat
  supertypeSymbol : Nat
  field : Nat
  captureIds : List Nat
  depth : Nat
  alternativeIndex : Nat
  negatedFieldListId : Nat
  isNamed : Bool
  isImmediate : Bool
  isLastChild : Bool
  isPassThrough : Bool
  isDeadEnd : Bool
  isInsideAlternation : Bool
  containsCaptures : Bool
  rootPatternGuaranteed : Bool
  parentPatternGuaranteed : Bool
  isMissing : Bool
  alternativeIsSkip : Bool
deriving DecidableEq

/-- `query_step__new`. -/
def QueryStep.new (symbol depth : Nat) (isImmediate : Bool) : QueryStep where
  symbol := symbol
  supertypeSymbol := 0
  field := 0
  captureIds := []
  depth := depth
  alternativeIndex := queryNone
  negatedFieldListId := 0
  isNamed := false
  isImmediate := isImmediate
  isLastChild := false
  isPassThrough := false
  isDeadEnd := false
  isInsideAlternation := false
  containsCaptures := false
  rootPatternGuaranteed := false
  parentPatternGuaranteed := false
  isMissing := false
  alternativeIsSkip := false

/-- `PatternEntry`. -/
structure PatternEntry where
  stepIndex : Nat
  patternIndex : Nat
  isRooted : Bool
deriving DecidableEq

/-- `TSQuery`, of what the pattern map needs; `patternCount` is the size of `patterns`. -/
structure TSQuery where
  steps : List QueryStep
  patternMap : List PatternEntry
  patternCount : Nat
  wildcardRootPatternCount : Nat
deriving DecidableEq

namespace TSQuery

variable (self : TSQuery)

def entrySymbol (entry : PatternEntry) : Option Nat :=
  self.steps[entry.stepIndex]?.map QueryStep.symbol

/-- The symbol of the step of the entry at an index of the map. -/
def symbolAt (index : Nat) : Option Nat :=
  self.patternMap[index]?.bind self.entrySymbol

/-- The loop of `ts_query__pattern_map_search`: the `base_index` that is left when `size` has
come down to 1. Each turn makes `size` smaller, so that `size` turns are enough. -/
def searchLoop (needle : Nat) : Nat → Nat → Nat → Option Nat
  | 0, _, baseIndex => some baseIndex
  | turns + 1, size, baseIndex =>
    if size > 1 then
      let halfSize := size / 2
      let midIndex := baseIndex + halfSize
      (self.symbolAt midIndex).bind fun midSymbol =>
        searchLoop needle turns (size - halfSize) (if needle > midSymbol then midIndex else baseIndex)
    else some baseIndex

/-- `ts_query__pattern_map_search`: the index, and whether the symbol is there. -/
def patternMapSearch (needle : Nat) : Option (Nat × Bool) :=
  let size := subU32 self.patternMap.length self.wildcardRootPatternCount
  if size = 0 then some (self.wildcardRootPatternCount, false)
  else do
    let baseIndex ← self.searchLoop needle size size self.wildcardRootPatternCount
    let symbol ← self.symbolAt baseIndex
    if needle > symbol then
      if baseIndex + 1 < self.patternMap.length then
        let symbol ← self.symbolAt (baseIndex + 1)
        pure (baseIndex + 1, needle == symbol)
      else pure (baseIndex + 1, needle == symbol)
    else pure (baseIndex, needle == symbol)

/-- The loop of `ts_query__pattern_map_insert` over the entries from an index on. -/
def skipEarlier (symbol patternIndex : Nat) : List PatternEntry → Nat → Option Nat
  | [], index => some index
  | entry :: entries, index =>
    (self.entrySymbol entry).bind fun entrySymbol =>
      if entrySymbol = symbol ∧ entry.patternIndex < patternIndex then
        skipEarlier symbol patternIndex entries (index + 1)
      else some index

/-- `ts_query__pattern_map_insert`. -/
def patternMapInsert (symbol : Nat) (newEntry : PatternEntry) : Option TSQuery := do
  let (index, _) ← self.patternMapSearch symbol
  let index ← self.skipEarlier symbol newEntry.patternIndex (self.patternMap.drop index) index
  pure { self with patternMap := self.patternMap.insertIdx index newEntry }

end TSQuery

/-! ### The roots of a pattern -/

/-- Whether a later step before the first dead end has the depth of the first one. -/
def hasSiblingStep (startDepth : Nat) : List QueryStep → Bool
  | [] => false
  | step :: steps =>
    if step.isDeadEnd then false
    else if step.depth = startDepth then true
    else hasSiblingStep startDepth steps

/-- A step at which a match of a pattern can begin. -/
structure PatternRoot where
  stepIndex : Nat
  symbol : Nat
  patternIndex : Nat
  isRooted : Bool
deriving DecidableEq

/-- The `PatternEntry` of a root: its fields have 16 bits. -/
def PatternRoot.entry (root : PatternRoot) : PatternEntry :=
  ⟨root.stepIndex % 2 ^ 16, root.patternIndex % 2 ^ 16, root.isRooted⟩

/-- A wildcard at the root with a non-wildcard child is skipped; its alternative is kept for
later. -/
def skipWildcardRoot (steps : List QueryStep) (startStepIndex wildcardRootAlternativeIndex : Nat)
    (step : QueryStep) : Option (Nat × QueryStep × Nat) :=
  if step.symbol = wildcardSymbol ∧ step.depth = 0 ∧ step.field = 0 then
    steps[startStepIndex + 1]?.map fun secondStep =>
      if secondStep.symbol ≠ wildcardSymbol ∧ secondStep.depth = 1 ∧ ¬ secondStep.isImmediate then
        (startStepIndex + 1, secondStep, step.alternativeIndex)
      else (startStepIndex, step, wildcardRootAlternativeIndex)
  else some (startStepIndex, step, wildcardRootAlternativeIndex)

/-- One turn of the loop over the roots of a pattern, up to the insertion: the root, and the step
and the wildcard's alternative at which the next turn begins. -/
def rootAt (steps : List QueryStep) (patternIndex startStepIndex wildcardRootAlternativeIndex : Nat) :
    Option (PatternRoot × Option (Nat × Nat)) := do
  let step ← steps[startStepIndex]?
  let (startStepIndex, step, wildcardRootAlternativeIndex) ←
    skipWildcardRoot steps startStepIndex wildcardRootAlternativeIndex step
  let isRooted := step.depth = 0 && !hasSiblingStep step.depth (steps.drop (startStepIndex + 1))
  let next :=
    if step.alternativeIndex ≠ queryNone then
      some (step.alternativeIndex, wildcardRootAlternativeIndex)
    else if wildcardRootAlternativeIndex ≠ queryNone then
      some (wildcardRootAlternativeIndex, queryNone)
    else none
  pure (⟨startStepIndex, step.symbol, patternIndex, isRooted⟩, next)

/-- What one turn does with its root: the insertion, and the count of the wildcards, which has
16 bits. -/
def TSQuery.addRoot (self : TSQuery) (root : PatternRoot) : Option TSQuery :=
  (self.patternMapInsert root.symbol root.entry).map fun query =>
    if root.symbol = wildcardSymbol then
      { query with wildcardRootPatternCount := (query.wildcardRootPatternCount + 1) % 2 ^ 16 }
    else query

/-- The loop of `ts_query_new` that adds the roots of a pattern to the map, for at most so many
turns. -/
def TSQuery.addRoots (patternIndex : Nat) : Nat → TSQuery → Nat → Nat → Option TSQuery
  | 0, _, _, _ => none
  | turns + 1, self, startStepIndex, wildcardRootAlternativeIndex => do
    let (root, next) ← rootAt self.steps patternIndex startStepIndex wildcardRootAlternativeIndex
    let query ← self.addRoot root
    match next with
    | none => pure query
    | some (start, alternative) => addRoots patternIndex turns query start alternative

/-! ### `ts_query_new` and `ts_query_disable_pattern` -/

/-- One turn of the loop that gives the quantified branches of an alternation copies of their
first steps. -/
def fixUpLoopBack (patternEnd : Nat) (steps : List QueryStep) (i : Nat) : Option (List QueryStep) := do
  let step ← steps[i]?
  if ¬ step.isPassThrough ∨ ¬ step.isInsideAlternation ∨ step.alternativeIndex = queryNone ∨
      step.alternativeIndex ≥ i then
    pure steps
  else
    let target ← steps[step.alternativeIndex]?
    if target.alternativeIndex = queryNone ∨ target.alternativeIndex ≤ step.alternativeIndex ∨
        target.alternativeIndex ≥ patternEnd then
      pure steps
    else
      let copy := { target with alternativeIndex := queryNone }
      let redirect :=
        { QueryStep.new 0 target.depth false with
          isDeadEnd := true, alternativeIndex := (step.alternativeIndex + 1) % 2 ^ 16 }
      pure ((steps ++ [copy, redirect]).set i { step with alternativeIndex := steps.length % 2 ^ 16 })

/-- One turn of the loop of `ts_query_new`, for a pattern of which `ts_query__parse_pattern` has
pushed these steps. -/
def TSQuery.addPattern (turns : Nat) (self : TSQuery) (patternSteps : List QueryStep) :
    Option TSQuery := do
  let startStepIndex := self.steps.length
  let steps := self.steps ++ patternSteps ++ [QueryStep.new 0 queryNone false]
  let query ← TSQuery.addRoots self.patternCount turns
    { self with steps, patternCount := self.patternCount + 1 } startStepIndex queryNone
  let patternEnd := startStepIndex + patternSteps.length
  let steps ← (List.range' startStepIndex patternSteps.length).foldlM (fixUpLoopBack patternEnd) query.steps
  pure { query with steps }

/-- `ts_query_new`, for the steps of its patterns. -/
def newQuery (turns : Nat) (patterns : List (List QueryStep)) : Option TSQuery :=
  patterns.foldlM (TSQuery.addPattern turns) ⟨[], [], 0, 0⟩

/-- `ts_query_disable_pattern`. -/
def TSQuery.disablePattern (self : TSQuery) (patternIndex : Nat) : TSQuery :=
  { self with patternMap := self.patternMap.filter fun entry => entry.patternIndex ≠ patternIndex }

/-! ### The start of a match -/

/-- What `ts_query_cursor__advance` knows of the node that it enters. -/
structure NodeContext where
  symbol : Nat
  parentIsError : Bool
  nodeIntersectsRange : Bool
  parentIntersectsRange : Bool
  fieldId : Nat
  supertypeCount : Nat
  depth : Nat
  maxStartDepth : Nat

namespace NodeContext

variable (node : NodeContext)

/-- The part of the condition of a new state that the entry and its step decide alone. -/
def inRange (entry : PatternEntry) (step : QueryStep) : Bool :=
  (if entry.isRooted then node.nodeIntersectsRange
    else node.parentIntersectsRange && !node.parentIsError) &&
  (step.field = 0 || node.fieldId = step.field)

/-- The condition of a new state for a pattern whose root is a wildcard. -/
def startsWildcard (entry : PatternEntry) (step : QueryStep) : Bool :=
  node.inRange entry step &&
  (step.supertypeSymbol = 0 || 0 < node.supertypeCount) &&
  subU32 node.depth step.depth ≤ node.maxStartDepth

end NodeContext

namespace TSQuery

variable (self : TSQuery)

/-- The loop over the first `wildcard_root_pattern_count` entries. -/
def startWildcards (node : NodeContext) : List Nat → Option (List PatternEntry)
  | [] => some []
  | i :: indices => do
    let entry ← self.patternMap[i]?
    let step ← self.steps[entry.stepIndex]?
    let started ← startWildcards node indices
    pure (if node.startsWildcard entry step then entry :: started else started)

/-- The loop over the entries with the node's symbol. The `start_depth` is computed once, for the
first of them. -/
def startSymbol (node : NodeContext) (startDepth : Nat) : List PatternEntry → Option (List PatternEntry)
  | [] => some []
  | entry :: entries => do
    let step ← self.steps[entry.stepIndex]?
    if step.symbol = node.symbol then
      let started ← startSymbol node startDepth entries
      pure (if node.inRange entry step && startDepth ≤ node.maxStartDepth then entry :: started
        else started)
    else pure []

/-- The patterns whose root is a wildcard; they are not for error nodes. -/
def startWildcardRoots (node : NodeContext) : Option (List PatternEntry) :=
  if node.symbol = builtinSymError then some []
  else self.startWildcards node (List.range self.wildcardRootPatternCount)

/-- The part of `ts_query_cursor__advance` that adds new states: the entries that it adds one for. -/
def startPatterns (node : NodeContext) : Option (List PatternEntry) := do
  let wildcards ← self.startWildcardRoots node
  let (i, found) ← self.patternMapSearch node.symbol
  if found then
    let entry ← self.patternMap[i]?
    let step ← self.steps[entry.stepIndex]?
    let started ← self.startSymbol node (subU32 node.depth step.depth) (self.patternMap.drop i)
    pure (wildcards ++ started)
  else pure wildcards

end TSQuery

end TreeSitter.Lib
