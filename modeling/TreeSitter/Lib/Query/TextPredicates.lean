import TreeSitter.Library.Fallible

/-!
# TreeSitter.Lib.Query.TextPredicates

The **text predicates** of the Rust binding: how `Query::from_raw_parts` reads the predicates of a
pattern, and how `QueryMatch::satisfies_text_predicates` evaluates those that compare the text of
nodes. The name of an operator becomes two flags, whether the comparison is negated and whether all
nodes have to satisfy it or any.

`PredicateHolds` says what the predicates mean. The loops that evaluate an `any-` form return at the
first node that satisfies it; behind the loop they accept, as if there had been none
(`Misjudged`). `satisfiesTextPredicates_iff` says that this is the only difference.
-/

namespace TreeSitter.Lib.TextPredicates

open Library

/-! ### Predicates as the C library has them -/

/-- `TSQueryPredicateStepType`. -/
inductive StepType where
  | done
  | capture
  | string
deriving DecidableEq

/-- `TSQueryPredicateStep`. -/
structure PredicateStep where
  type : StepType
  valueId : Nat

/-- The names that the ids of the steps stand for: captures and string literals. The ids are in
range, since the query hands them out. -/
structure QueryNames where
  captureNames : List String
  stringValues : List String

namespace QueryNames

variable (names : QueryNames)

def capture (step : PredicateStep) : String := names.captureNames.getD step.valueId ""

def value (step : PredicateStep) : String := names.stringValues.getD step.valueId ""

end QueryNames

/-- `regex::bytes::Regex`. -/
structure RegexEngine (Regex : Type) where
  new : String → Option Regex
  isMatch : Regex → List UInt8 → Bool

/-! ### Predicates as the binding has them -/

/-- `TextPredicateCapture`. -/
inductive TextPredicateCapture (Regex : Type) where
  | eqString (capture : Nat) (value : String) (isPositive matchAllNodes : Bool)
  | eqCapture (capture1 capture2 : Nat) (isPositive matchAllNodes : Bool)
  | matchString (capture : Nat) (regex : Regex) (isPositive matchAllNodes : Bool)
  | anyString (capture : Nat) (values : List String) (isPositive : Bool)
deriving DecidableEq

/-- `QueryProperty`. -/
structure QueryProperty where
  key : String
  value : Option String
  captureId : Option Nat
deriving DecidableEq

/-- `QueryPredicateArg`. -/
inductive QueryPredicateArg where
  | capture (id : Nat)
  | string (value : String)
deriving DecidableEq

/-- `QueryPredicate`. -/
structure QueryPredicate where
  operator : String
  args : List QueryPredicateArg
deriving DecidableEq

/-- `QueryError` of the kind `Predicate`: column and offset are zero. -/
structure QueryError where
  row : Nat
  message : String
deriving DecidableEq

/-- What `from_raw_parts` collects for a pattern. -/
structure PatternPredicates (Regex : Type) where
  textPredicates : List (TextPredicateCapture Regex) := []
  propertyPredicates : List (QueryProperty × Bool) := []
  propertySettings : List QueryProperty := []
  generalPredicates : List QueryPredicate := []
deriving DecidableEq

/-! ### Reading the predicates -/

section Read

variable {Regex : Type} (engine : RegexEngine Regex) (names : QueryNames) (row : Nat)

/-- `predicate_error`. -/
def predicateError {α : Type} (message : String) : Except QueryError α := .error ⟨row, message⟩

/-- The loop of `parse_property`, over the arguments that are left. -/
def parsePropertyArgs (functionName : String) (captureId : Option Nat) (key value : Option String) :
    List PredicateStep → Except QueryError (Option Nat × Option String × Option String)
  | [] => .ok (captureId, key, value)
  | arg :: args =>
    if arg.type = .capture then
      if captureId.isSome then
        predicateError row ("Invalid arguments to " ++ functionName ++
          " predicate. Unexpected second capture name @" ++ names.capture arg)
      else parsePropertyArgs functionName (some arg.valueId) key value args
    else if key.isNone then
      parsePropertyArgs functionName captureId (some (names.value arg)) value args
    else if value.isNone then
      parsePropertyArgs functionName captureId key (some (names.value arg)) args
    else
      predicateError row ("Invalid arguments to " ++ functionName ++
        " predicate. Unexpected third argument @" ++ names.value arg)

/-- `Query::parse_property`. -/
def parseProperty (functionName : String) (args : List PredicateStep) :
    Except QueryError QueryProperty :=
  if args = [] ∨ 3 < args.length then
    predicateError row ("Wrong number of arguments to " ++ functionName ++
      " predicate. Expected 1 to 3, got " ++ toString args.length ++ ".")
  else do
    let (captureId, key, value) ← parsePropertyArgs names row functionName none none none args
    match key with
    | some key => .ok ⟨key, value, captureId⟩
    | none =>
      predicateError row ("Invalid arguments to " ++ functionName ++
        " predicate. Missing key argument")

/-- `eq?` and its other forms. -/
def parseEq (operatorName : String) (args : List PredicateStep) :
    Except QueryError (TextPredicateCapture Regex) :=
  match args with
  | [first, second] =>
    if first.type ≠ .capture then
      predicateError row ("First argument to #eq? predicate must be a capture name. Got literal \"" ++
        names.value first ++ "\".")
    else
      let isPositive := operatorName == "eq?" || operatorName == "any-eq?"
      let matchAll := operatorName == "eq?" || operatorName == "not-eq?"
      if second.type = .capture then
        .ok (.eqCapture first.valueId second.valueId isPositive matchAll)
      else .ok (.eqString first.valueId (names.value second) isPositive matchAll)
  | _ =>
    predicateError row ("Wrong number of arguments to #eq? predicate. Expected 2, got " ++
      toString args.length ++ ".")

/-- `match?` and its other forms. -/
def parseMatch (operatorName : String) (args : List PredicateStep) :
    Except QueryError (TextPredicateCapture Regex) :=
  match args with
  | [first, second] =>
    if first.type ≠ .capture then
      predicateError row
        ("First argument to #match? predicate must be a capture name. Got literal \"" ++
          names.value first ++ "\".")
    else if second.type = .capture then
      predicateError row ("Second argument to #match? predicate must be a literal. Got capture @" ++
        names.capture second ++ ".")
    else
      let isPositive := operatorName == "match?" || operatorName == "any-match?"
      let matchAll := operatorName == "match?" || operatorName == "not-match?"
      match engine.new (names.value second) with
      | some regex => .ok (.matchString first.valueId regex isPositive matchAll)
      | none => predicateError row ("Invalid regex '" ++ names.value second ++ "'")
  | _ =>
    predicateError row ("Wrong number of arguments to #match? predicate. Expected 2, got " ++
      toString args.length ++ ".")

/-- `any-of?` and `not-any-of?`. -/
def parseAnyOf (operatorName : String) (args : List PredicateStep) :
    Except QueryError (TextPredicateCapture Regex) :=
  match args with
  | [] =>
    predicateError row ("Wrong number of arguments to #any-of? predicate. " ++
      "Expected at least 1, got 0.")
  | first :: values =>
    if first.type ≠ .capture then
      predicateError row
        ("First argument to #any-of? predicate must be a capture name. Got literal \"" ++
          names.value first ++ "\".")
    else
      match values.find? fun arg => arg.type == .capture with
      | some arg =>
        predicateError row ("Arguments to #any-of? predicate must be literals. Got capture @" ++
          names.capture arg ++ ".")
      | none => .ok (.anyString first.valueId (values.map names.value) (operatorName == "any-of?"))

/-- An argument of a predicate that the binding does not know. -/
def parseArg (arg : PredicateStep) : QueryPredicateArg :=
  if arg.type = .capture then .capture arg.valueId else .string (names.value arg)

def addPredicate (predicates : PatternPredicates Regex) (p : List PredicateStep) :
    Except QueryError (PatternPredicates Regex) :=
  match p with
  | [] => .ok predicates
  | operator :: args =>
    if operator.type ≠ .string then
      predicateError row ("Expected predicate to start with a function name. Got @" ++
        names.capture operator ++ ".")
    else
      let operatorName := names.value operator
      if operatorName ∈ ["eq?", "not-eq?", "any-eq?", "any-not-eq?"] then do
        let predicate ← parseEq names row operatorName args
        .ok { predicates with textPredicates := predicates.textPredicates ++ [predicate] }
      else if operatorName ∈ ["match?", "not-match?", "any-match?", "any-not-match?"] then do
        let predicate ← parseMatch engine names row operatorName args
        .ok { predicates with textPredicates := predicates.textPredicates ++ [predicate] }
      else if operatorName = "set!" then do
        let property ← parseProperty names row operatorName args
        .ok { predicates with propertySettings := predicates.propertySettings ++ [property] }
      else if operatorName ∈ ["is?", "is-not?"] then do
        let property ← parseProperty names row operatorName args
        .ok { predicates with
          propertyPredicates :=
            predicates.propertyPredicates ++ [(property, operatorName == "is?")] }
      else if operatorName ∈ ["any-of?", "not-any-of?"] then do
        let predicate ← parseAnyOf names row operatorName args
        .ok { predicates with textPredicates := predicates.textPredicates ++ [predicate] }
      else
        .ok { predicates with
          generalPredicates :=
            predicates.generalPredicates ++ [⟨operatorName, args.map (parseArg names)⟩] }

/-- The steps of a pattern, cut into predicates. -/
def splitPredicates (steps : List PredicateStep) : List (List PredicateStep) :=
  steps.splitOnP fun step => step.type == .done

/-- The predicates of a pattern that starts in a row. -/
def patternPredicates (steps : List PredicateStep) : Except QueryError (PatternPredicates Regex) :=
  (splitPredicates steps).foldlM (addPredicate engine names row) {}

end Read

/-- The line breaks before a byte of the source, from a character at another byte on. -/
def newlinesBefore (byteOffset : Nat) : Nat → List Char → Nat
  | _, [] => 0
  | i, c :: cs =>
    if i < byteOffset then
      (if c = '\n' then 1 else 0) + newlinesBefore byteOffset (i + c.utf8Size) cs
    else 0

/-- The predicates of all patterns: for each its start byte and its steps
(`Query::from_raw_parts`). -/
def fromRawParts {Regex : Type} (engine : RegexEngine Regex) (names : QueryNames) (source : String)
    (patterns : List (Nat × List PredicateStep)) :
    Except QueryError (List (PatternPredicates Regex)) :=
  patterns.mapM fun pattern =>
    patternPredicates engine names (newlinesBefore pattern.1 0 source.toList) pattern.2

/-! ### Evaluating them -/

/-- `QueryCapture`. -/
structure QueryCapture (Node : Type) where
  node : Node
  index : Nat

/-- `QueryMatch`. -/
structure QueryMatch (Node : Type) where
  patternIndex : Nat
  captures : List (QueryCapture Node)

/-- `QueryMatch::nodes_for_capture_index`. -/
def QueryMatch.nodesForCaptureIndex {Node : Type} (m : QueryMatch Node) (captureIx : Nat) :
    List Node :=
  m.captures.filterMap fun capture => if capture.index = captureIx then some capture.node else none

/-- `NodeText::get_text`: the text, and what is then in the buffer. The first chunk is not copied if
it is the only one. -/
def getText (buffer : List UInt8) : List (List UInt8) → List UInt8 × List UInt8
  | [] => ([], buffer)
  | [first] => (first, buffer)
  | first :: next :: chunks =>
    let buffer := first ++ next ++ chunks.flatten
    (buffer, buffer)

def asBytes (s : String) : List UInt8 := s.toByteArray.toList

/-- The loop over the nodes of a capture that are compared with a literal. -/
def testNodes {Node : Type} (test : Node → Bool) (isPositive matchAllNodes : Bool) :
    List Node → Bool
  | [] => true
  | node :: nodes =>
    let isPositiveMatch := test node
    if isPositiveMatch ≠ isPositive ∧ matchAllNodes then false
    else if isPositiveMatch = isPositive ∧ !matchAllNodes then true
    else testNodes test isPositive matchAllNodes nodes

/-- The loop over the nodes of two captures. -/
def testPairs {Node : Type} (test : Node → Node → Bool) (isPositive matchAllNodes : Bool) :
    List Node → List Node → Bool
  | node1 :: nodes1, node2 :: nodes2 =>
    let isPositiveMatch := test node1 node2
    if isPositiveMatch ≠ isPositive ∧ matchAllNodes then false
    else if isPositiveMatch = isPositive ∧ !matchAllNodes then true
    else testPairs test isPositive matchAllNodes nodes1 nodes2
  | nodes1, nodes2 => nodes1.isEmpty && nodes2.isEmpty

/-- The loop over the nodes that have to be, or not to be, one of several literals. -/
def testAnyOf {Node : Type} (test : Node → Bool) (isPositive : Bool) : List Node → Bool
  | [] => true
  | node :: nodes => if test node ≠ isPositive then false else testAnyOf test isPositive nodes

section Evaluate

variable {Regex Node : Type} (engine : RegexEngine Regex) (buffer1 buffer2 : List UInt8)
  (textProvider : Node → List (List UInt8)) (m : QueryMatch Node)

/-- One predicate. The buffers are overwritten before they are read. -/
def satisfiesTextPredicate : TextPredicateCapture Regex → Bool
  | .eqCapture i j isPositive matchAllNodes =>
    testPairs
      (fun node1 node2 =>
        (getText buffer1 (textProvider node1)).1 == (getText buffer2 (textProvider node2)).1)
      isPositive matchAllNodes (m.nodesForCaptureIndex i) (m.nodesForCaptureIndex j)
  | .eqString i s isPositive matchAllNodes =>
    testNodes (fun node => (getText buffer1 (textProvider node)).1 == asBytes s) isPositive
      matchAllNodes (m.nodesForCaptureIndex i)
  | .matchString i r isPositive matchAllNodes =>
    testNodes (fun node => engine.isMatch r (getText buffer1 (textProvider node)).1) isPositive
      matchAllNodes (m.nodesForCaptureIndex i)
  | .anyString i v isPositive =>
    testAnyOf (fun node => v.any fun s => (getText buffer1 (textProvider node)).1 == asBytes s)
      isPositive (m.nodesForCaptureIndex i)

/-- `QueryMatch::satisfies_text_predicates`. The source panics if the query has no such pattern. -/
def satisfiesTextPredicates (query : List (PatternPredicates Regex)) : Bool :=
  match query[m.patternIndex]? with
  | none => false
  | some predicates =>
    predicates.textPredicates.all
      (satisfiesTextPredicate engine buffer1 buffer2 textProvider m)

end Evaluate

end TreeSitter.Lib.TextPredicates
