import TreeSitter.Lib.Query.TextPredicates

/-!
# TreeSitter.Lib.Query.TextPredicateMeaning

What **text predicates mean**, and what the loops of the binding make of them. All nodes of a capture
have to satisfy the comparison, or with `any-` at least one of them unless there is none; of two
captures the nodes are compared side by side. A predicate of the form `any-` that no node satisfies
is accepted nevertheless (`Misjudged`), and a match is judged right unless that is the only reason
to refuse it (`satisfiesTextPredicates_iff`).
-/

namespace TreeSitter.Lib.TextPredicates

open List Library

/-! ### The meaning -/

/-- What the text of a node is compared with. -/
inductive TextTest where
  | eq
  | match
  | anyOf
deriving DecidableEq

/-- An operator that compares the text of nodes. -/
structure TextOperator where
  test : TextTest
  isPositive : Bool
  matchAll : Bool
deriving DecidableEq

/-- The operators by their names. -/
def textOperator : String → Option TextOperator
  | "eq?" => some ⟨.eq, true, true⟩
  | "not-eq?" => some ⟨.eq, false, true⟩
  | "any-eq?" => some ⟨.eq, true, false⟩
  | "any-not-eq?" => some ⟨.eq, false, false⟩
  | "match?" => some ⟨.match, true, true⟩
  | "not-match?" => some ⟨.match, false, true⟩
  | "any-match?" => some ⟨.match, true, false⟩
  | "any-not-match?" => some ⟨.match, false, false⟩
  | "any-of?" => some ⟨.anyOf, true, true⟩
  | "not-any-of?" => some ⟨.anyOf, false, true⟩
  | _ => none

section Meaning

variable {Regex Node : Type}

def nodeText (textProvider : Node → List (List UInt8)) (node : Node) : List UInt8 :=
  (textProvider node).flatten

/-- A comparison with a literal holds for the nodes of a capture. -/
def LiteralHolds (test : Node → Bool) (isPositive matchAll : Bool) (nodes : List Node) : Prop :=
  if matchAll then ∀ node ∈ nodes, test node = isPositive
  else nodes = [] ∨ ∃ node ∈ nodes, test node = isPositive

/-- A comparison holds for the nodes of two captures. -/
def PairsHold (test : Node → Node → Bool) (isPositive matchAll : Bool)
    (nodes1 nodes2 : List Node) : Prop :=
  if matchAll then
    nodes1.length = nodes2.length ∧ ∀ pair ∈ nodes1.zip nodes2, test pair.1 pair.2 = isPositive
  else
    (nodes1 = [] ∧ nodes2 = []) ∨ ∃ pair ∈ nodes1.zip nodes2, test pair.1 pair.2 = isPositive

variable (engine : RegexEngine Regex) (names : QueryNames)
  (textProvider : Node → List (List UInt8)) (m : QueryMatch Node)

/-- What a predicate says of a match, given what comparisons with literals and of two captures
say. It is `other` for a predicate that does not compare text. -/
def PredicateSays (literal : (Node → Bool) → Bool → Bool → List Node → Prop)
    (pairs : (Node → Node → Bool) → Bool → Bool → List Node → List Node → Prop) (other : Prop) :
    List PredicateStep → Prop
  | operator :: first :: args =>
    let text := nodeText textProvider
    let nodes := m.nodesForCaptureIndex first.valueId
    match textOperator (names.value operator), args with
    | some ⟨.eq, isPositive, matchAll⟩, [second] =>
      if second.type = .capture then
        pairs (fun node1 node2 => text node1 == text node2) isPositive matchAll nodes
          (m.nodesForCaptureIndex second.valueId)
      else
        literal (fun node => text node == asBytes (names.value second)) isPositive matchAll nodes
    | some ⟨.match, isPositive, matchAll⟩, [second] =>
      match engine.new (names.value second) with
      | some regex => literal (fun node => engine.isMatch regex (text node)) isPositive matchAll nodes
      | none => other
    | some ⟨.anyOf, isPositive, matchAll⟩, values =>
      literal (fun node => values.any fun value => text node == asBytes (names.value value))
        isPositive matchAll nodes
    | _, _ => other
  | _ => other

/-- A predicate holds of a match. -/
def PredicateHolds (p : List PredicateStep) : Prop :=
  PredicateSays engine names textProvider m LiteralHolds PairsHold True p

/-- There are nodes, any of them would do, and none of them satisfies the comparison. -/
def LiteralMisjudged (test : Node → Bool) (isPositive matchAll : Bool) (nodes : List Node) : Prop :=
  matchAll = false ∧ nodes ≠ [] ∧ ∀ node ∈ nodes, test node ≠ isPositive

/-- There are as many nodes of both captures, any two side by side would do, and none of them
satisfy the comparison. -/
def PairsMisjudged (test : Node → Node → Bool) (isPositive matchAll : Bool)
    (nodes1 nodes2 : List Node) : Prop :=
  matchAll = false ∧ nodes1 ≠ [] ∧ nodes1.length = nodes2.length ∧
    ∀ pair ∈ nodes1.zip nodes2, test pair.1 pair.2 ≠ isPositive

/-- A predicate of the form `any-` that no node satisfies, nor two nodes of as many. -/
def Misjudged (p : List PredicateStep) : Prop :=
  PredicateSays engine names textProvider m LiteralMisjudged PairsMisjudged False p

end Meaning

/-! ### The loops -/

section Loops

variable {Node : Type}

theorem getText_eq (buffer : List UInt8) (chunks : List (List UInt8)) :
    (getText buffer chunks).1 = chunks.flatten := by
  match chunks with
  | [] => rfl
  | [first] | first :: next :: chunks => simp [getText]

theorem testAnyOf_eq (test : Node → Bool) (isPositive : Bool) (nodes : List Node) :
    testAnyOf test isPositive nodes = testNodes test isPositive true nodes := by
  induction nodes with
  | nil => rfl
  | cons node nodes ih =>
    rw [testAnyOf, testNodes, ih]
    simp

theorem testNodes_iff (test : Node → Bool) (isPositive matchAll : Bool) (nodes : List Node) :
    testNodes test isPositive matchAll nodes = true ↔
      LiteralHolds test isPositive matchAll nodes ∨
        LiteralMisjudged test isPositive matchAll nodes := by
  cases matchAll with
  | true =>
    simp only [LiteralHolds, LiteralMisjudged, if_true, reduceCtorEq, false_and, or_false]
    induction nodes with
    | nil => simp [testNodes]
    | cons node nodes ih =>
      rw [testNodes, forall_mem_cons, ← ih]
      by_cases h : test node = isPositive <;> simp [h]
  | false =>
    -- the loop accepts in any case
    have htrue : testNodes test isPositive false nodes = true := by
      induction nodes with
      | nil => rfl
      | cons node nodes ih =>
        rw [testNodes, ih]
        simp
    simp only [LiteralHolds, LiteralMisjudged, htrue, true_iff, Bool.false_eq_true, if_false,
      true_and]
    by_cases hnil : nodes = []
    · exact .inl (.inl hnil)
    · by_cases hex : ∃ node ∈ nodes, test node = isPositive
      · exact .inl (.inr hex)
      · exact .inr ⟨hnil, fun node hmem heq => hex ⟨node, hmem, heq⟩⟩

/-- Any two nodes would do: the loop accepts if some do, or if it ends with both captures. -/
theorem testPairs_any_iff (test : Node → Node → Bool) (isPositive : Bool)
    (nodes1 nodes2 : List Node) :
    testPairs test isPositive false nodes1 nodes2 = true ↔
      nodes1.length = nodes2.length ∨
        ∃ pair ∈ nodes1.zip nodes2, test pair.1 pair.2 = isPositive := by
  induction nodes1 generalizing nodes2 with
  | nil => cases nodes2 <;> simp [testPairs]
  | cons node1 nodes1 ih =>
    cases nodes2 with
    | nil => simp [testPairs]
    | cons node2 nodes2 =>
      rw [testPairs, zip_cons_cons, exists_mem_cons_iff, length_cons,
        length_cons, Nat.add_right_cancel_iff, or_left_comm, ← ih]
      by_cases h : test node1 node2 = isPositive <;> simp [h]

theorem testPairs_iff (test : Node → Node → Bool) (isPositive matchAll : Bool)
    (nodes1 nodes2 : List Node) :
    testPairs test isPositive matchAll nodes1 nodes2 = true ↔
      PairsHold test isPositive matchAll nodes1 nodes2 ∨
        PairsMisjudged test isPositive matchAll nodes1 nodes2 := by
  cases matchAll with
  | true =>
    simp only [PairsHold, PairsMisjudged, if_true, reduceCtorEq, false_and, or_false]
    induction nodes1 generalizing nodes2 with
    | nil => cases nodes2 <;> simp [testPairs]
    | cons node1 nodes1 ih =>
      cases nodes2 with
      | nil => simp [testPairs]
      | cons node2 nodes2 =>
        rw [testPairs, zip_cons_cons, forall_mem_cons, length_cons,
          length_cons, Nat.add_right_cancel_iff, and_left_comm, ← ih]
        by_cases h : test node1 node2 = isPositive <;> simp [h]
  | false =>
    rw [testPairs_any_iff]
    simp only [PairsHold, PairsMisjudged, Bool.false_eq_true, if_false, true_and]
    by_cases hex : ∃ pair ∈ nodes1.zip nodes2, test pair.1 pair.2 = isPositive
    · exact iff_of_true (.inr hex) (.inl (.inr hex))
    · have hall : ∀ pair ∈ nodes1.zip nodes2, test pair.1 pair.2 ≠ isPositive :=
        fun pair hmem heq => hex ⟨pair, hmem, heq⟩
      by_cases hnil : nodes1 = []
      · rw [hnil]
        cases nodes2 <;> simp
      · simp only [hex, hnil, false_and, false_or, or_false, ne_eq, not_false_eq_true, true_and]
        exact (and_iff_left hall).symm

end Loops

/-! ### One predicate -/

section Predicate

variable {Regex Node : Type} {engine : RegexEngine Regex} {names : QueryNames} {row : Nat}
  (buffer1 buffer2 : List UInt8) {textProvider : Node → List (List UInt8)} {m : QueryMatch Node}

/-- What the binding makes of a predicate: it holds, or it is misjudged. -/
def Accepted (engine : RegexEngine Regex) (names : QueryNames)
    (textProvider : Node → List (List UInt8)) (m : QueryMatch Node) (p : List PredicateStep) :
    Prop :=
  PredicateHolds engine names textProvider m p ∨ Misjudged engine names textProvider m p

variable {predicate : TextPredicateCapture Regex} {args : List PredicateStep}
  {operatorName : String}

theorem parseEq_ok (hname : operatorName ∈ ["eq?", "not-eq?", "any-eq?", "any-not-eq?"])
    (h : parseEq names row operatorName args = .ok predicate) :
    ∃ first second isPositive matchAll, args = [first, second] ∧
      textOperator operatorName = some ⟨.eq, isPositive, matchAll⟩ ∧
      predicate = if second.type = .capture then
          .eqCapture first.valueId second.valueId isPositive matchAll
        else .eqString first.valueId (names.value second) isPositive matchAll := by
  match args with
  | [] | [_] | _ :: _ :: _ :: _ => cases h
  | [first, second] =>
    rw [parseEq] at h
    split at h
    next => cases h
    next =>
      have hpredicate : predicate = if second.type = .capture then
          .eqCapture first.valueId second.valueId
            (operatorName == "eq?" || operatorName == "any-eq?")
            (operatorName == "eq?" || operatorName == "not-eq?")
        else .eqString first.valueId (names.value second)
            (operatorName == "eq?" || operatorName == "any-eq?")
            (operatorName == "eq?" || operatorName == "not-eq?") := by
        dsimp only at h
        split at h <;> cases h
        next hcapture => rw [if_pos hcapture]
        next hcapture => rw [if_neg hcapture]
      refine ⟨first, second, _, _, rfl, ?_, hpredicate⟩
      simp only [mem_cons, not_mem_nil, or_false] at hname
      rcases hname with rfl | rfl | rfl | rfl <;> decide

theorem parseMatch_ok
    (hname : operatorName ∈ ["match?", "not-match?", "any-match?", "any-not-match?"])
    (h : parseMatch engine names row operatorName args = .ok predicate) :
    ∃ first second regex isPositive matchAll, args = [first, second] ∧
      textOperator operatorName = some ⟨.match, isPositive, matchAll⟩ ∧
      engine.new (names.value second) = some regex ∧
      predicate = .matchString first.valueId regex isPositive matchAll := by
  match args with
  | [] | [_] | _ :: _ :: _ :: _ => cases h
  | [first, second] =>
    rw [parseMatch] at h
    split at h
    next => cases h
    next =>
      split at h
      next => cases h
      next =>
        dsimp only at h
        split at h
        next regex hregex =>
          cases h
          refine ⟨first, second, regex, _, _, rfl, ?_, hregex, rfl⟩
          simp only [mem_cons, not_mem_nil, or_false] at hname
          rcases hname with rfl | rfl | rfl | rfl <;> decide
        next => cases h

theorem parseAnyOf_ok (hname : operatorName ∈ ["any-of?", "not-any-of?"])
    (h : parseAnyOf names row operatorName args = .ok predicate) :
    ∃ first values isPositive, args = first :: values ∧
      textOperator operatorName = some ⟨.anyOf, isPositive, true⟩ ∧
      predicate = .anyString first.valueId (values.map names.value) isPositive := by
  match args with
  | [] => cases h
  | first :: values =>
    rw [parseAnyOf] at h
    split at h
    next => cases h
    next =>
      split at h
      next => cases h
      next =>
        cases h
        refine ⟨first, values, _, rfl, ?_, rfl⟩
        simp only [mem_cons, not_mem_nil, or_false] at hname
        rcases hname with rfl | rfl <;> decide

theorem accepted_of_textOperator_none {operator : PredicateStep}
    (h : textOperator (names.value operator) = none) :
    Accepted engine names textProvider m (operator :: args) := by
  refine .inl ?_
  cases args with
  | nil => trivial
  | cons first args =>
    rw [PredicateHolds]
    simp only [PredicateSays, h]

theorem textOperator_eq_none (heq : operatorName ∉ ["eq?", "not-eq?", "any-eq?", "any-not-eq?"])
    (hmatch : operatorName ∉ ["match?", "not-match?", "any-match?", "any-not-match?"])
    (hany : operatorName ∉ ["any-of?", "not-any-of?"]) : textOperator operatorName = none := by
  rw [textOperator.eq_def]
  split <;> simp_all

theorem addPredicate_spec {predicates predicates' : PatternPredicates Regex}
    {p : List PredicateStep}
    (h : addPredicate engine names row predicates p = .ok predicates') :
    ∃ added, predicates'.textPredicates = predicates.textPredicates ++ added ∧
      (added.all (satisfiesTextPredicate engine buffer1 buffer2 textProvider m) = true ↔
        Accepted engine names textProvider m p) := by
  match p with
  | [] =>
    cases h
    exact ⟨[], by simp, by simp [Accepted, PredicateHolds, PredicateSays]⟩
  | operator :: args =>
    rw [addPredicate] at h
    split at h
    next => cases h
    next =>
      dsimp only at h
      split at h
      next hname =>
        obtain ⟨predicate, hparse, heq⟩ := bind_eq_ok.mp h
        cases heq
        obtain ⟨first, second, isPositive, matchAll, rfl, hop, rfl⟩ := parseEq_ok hname hparse
        refine ⟨_, rfl, ?_⟩
        rw [all_cons, all_nil, Bool.and_true]
        simp only [Accepted, PredicateHolds, Misjudged, PredicateSays, hop]
        split
        next => 
          simp only [satisfiesTextPredicate, getText_eq, testPairs_iff]
          rfl
        next =>
          simp only [satisfiesTextPredicate, getText_eq, testNodes_iff]
          rfl
      next hnoteq =>
        split at h
        next hname =>
          obtain ⟨predicate, hparse, heq⟩ := bind_eq_ok.mp h
          cases heq
          obtain ⟨first, second, regex, isPositive, matchAll, rfl, hop, hregex, rfl⟩ :=
            parseMatch_ok hname hparse
          refine ⟨_, rfl, ?_⟩
          rw [all_cons, all_nil, Bool.and_true]
          simp only [Accepted, PredicateHolds, Misjudged, PredicateSays, hop, hregex,
            satisfiesTextPredicate, getText_eq, testNodes_iff]
          rfl
        next hnotmatch =>
          split at h
          next hset =>
            obtain ⟨property, -, heq⟩ := bind_eq_ok.mp h
            cases heq
            refine ⟨[], by simp, iff_of_true rfl (accepted_of_textOperator_none ?_)⟩
            rw [hset]
            decide
          next =>
            split at h
            next his =>
              obtain ⟨property, -, heq⟩ := bind_eq_ok.mp h
              cases heq
              refine ⟨[], by simp, iff_of_true rfl (accepted_of_textOperator_none ?_)⟩
              simp only [mem_cons, not_mem_nil, or_false] at his
              rcases his with his | his <;> rw [his] <;> decide
            next =>
              split at h
              next hname =>
                obtain ⟨predicate, hparse, heq⟩ := bind_eq_ok.mp h
                cases heq
                obtain ⟨first, values, isPositive, rfl, hop, rfl⟩ := parseAnyOf_ok hname hparse
                refine ⟨_, rfl, ?_⟩
                rw [all_cons, all_nil, Bool.and_true]
                simp only [Accepted, PredicateHolds, Misjudged, PredicateSays, hop,
                  satisfiesTextPredicate, getText_eq, testAnyOf_eq, testNodes_iff, any_map]
                rfl
              next hnotany =>
                cases h
                exact ⟨[], by simp, iff_of_true rfl
                  (accepted_of_textOperator_none (textOperator_eq_none hnoteq hnotmatch hnotany))⟩

theorem LiteralMisjudged.not_holds {test : Node → Bool} {isPositive matchAll : Bool}
    {nodes : List Node} (h : LiteralMisjudged test isPositive matchAll nodes) :
    ¬ LiteralHolds test isPositive matchAll nodes := by
  obtain ⟨rfl, hne, hnone⟩ := h
  rintro (hnil | ⟨node, hmem, heq⟩)
  · exact hne hnil
  · exact hnone node hmem heq

theorem PairsMisjudged.not_holds {test : Node → Node → Bool} {isPositive matchAll : Bool}
    {nodes1 nodes2 : List Node} (h : PairsMisjudged test isPositive matchAll nodes1 nodes2) :
    ¬ PairsHold test isPositive matchAll nodes1 nodes2 := by
  obtain ⟨rfl, hne, -, hnone⟩ := h
  rintro (hnil | ⟨pair, hmem, heq⟩)
  · exact hne hnil.1
  · exact hnone pair hmem heq

theorem Misjudged.not_holds {p : List PredicateStep}
    (h : Misjudged engine names textProvider m p) :
    ¬ PredicateHolds engine names textProvider m p := by
  rw [PredicateHolds]
  rw [Misjudged] at h
  match p with
  | [] | [_] => exact h.elim
  | operator :: first :: args =>
    simp only [PredicateSays] at h ⊢
    split at h
    next =>
      split at h
      next hcapture =>
        rw [if_pos hcapture]
        exact h.not_holds
      next hcapture =>
        rw [if_neg hcapture]
        exact h.not_holds
    next =>
      split at h
      next regex hregex =>
        exact h.not_holds
      next => exact h.elim
    next => exact h.not_holds
    next => exact h.elim

end Predicate

/-! ### A match -/

section Match

variable {Regex Node : Type} {engine : RegexEngine Regex} {names : QueryNames} {row : Nat}
  (buffer1 buffer2 : List UInt8) {textProvider : Node → List (List UInt8)} {m : QueryMatch Node}

theorem foldlM_addPredicate {ps : List (List PredicateStep)}
    {predicates predicates' : PatternPredicates Regex}
    (h : ps.foldlM (addPredicate engine names row) predicates = .ok predicates') :
    predicates'.textPredicates.all
        (satisfiesTextPredicate engine buffer1 buffer2 textProvider m) = true ↔
      predicates.textPredicates.all
          (satisfiesTextPredicate engine buffer1 buffer2 textProvider m) = true ∧
        ∀ p ∈ ps, Accepted engine names textProvider m p := by
  induction ps generalizing predicates with
  | nil =>
    cases h
    simp
  | cons p ps ih =>
    rw [foldlM_cons] at h
    obtain ⟨next, hnext, h⟩ := bind_eq_ok.mp h
    obtain ⟨added, htext, hadded⟩ := addPredicate_spec (m := m) buffer1 buffer2 hnext
    rw [ih h, htext, all_append, Bool.and_eq_true, hadded, forall_mem_cons, and_assoc]

/-- The predicates of a pattern accept a match if each of them is accepted. -/
theorem satisfiesTextPredicates_eq_true_iff {source : String}
    {patterns : List (Nat × List PredicateStep)} {query : List (PatternPredicates Regex)}
    {pattern : Nat × List PredicateStep}
    (hquery : fromRawParts engine names source patterns = .ok query)
    (hpattern : patterns[m.patternIndex]? = some pattern) :
    satisfiesTextPredicates engine buffer1 buffer2 textProvider m query = true ↔
      ∀ p ∈ splitPredicates pattern.2, Accepted engine names textProvider m p := by
  have hforall := forall₂_of_mapM_ok hquery
  obtain ⟨hlt, heq⟩ := List.getElem?_eq_some_iff.mp hpattern
  have hlt' : m.patternIndex < query.length := hforall.length_eq ▸ hlt
  have hparse := hforall.get hlt hlt'
  rw [get_eq_getElem, heq] at hparse
  rw [satisfiesTextPredicates, getElem?_eq_getElem hlt']
  rw [patternPredicates] at hparse
  rw [get_eq_getElem] at hparse
  dsimp only
  rw [foldlM_addPredicate buffer1 buffer2 hparse]
  simp

/-- **A match is judged right** unless some predicate is misjudged and every predicate that does not
hold is. -/
theorem satisfiesTextPredicates_iff {source : String}
    {patterns : List (Nat × List PredicateStep)} {query : List (PatternPredicates Regex)}
    {pattern : Nat × List PredicateStep}
    (hquery : fromRawParts engine names source patterns = .ok query)
    (hpattern : patterns[m.patternIndex]? = some pattern) :
    (satisfiesTextPredicates engine buffer1 buffer2 textProvider m query = true ↔
        ∀ p ∈ splitPredicates pattern.2, PredicateHolds engine names textProvider m p) ↔
      ((∃ p ∈ splitPredicates pattern.2, Misjudged engine names textProvider m p) →
        ∃ p ∈ splitPredicates pattern.2, ¬ PredicateHolds engine names textProvider m p ∧
          ¬ Misjudged engine names textProvider m p) := by
  rw [satisfiesTextPredicates_eq_true_iff buffer1 buffer2 hquery hpattern]
  constructor
  · rintro hiff ⟨p, hp, hmisjudged⟩
    by_contra hnone
    refine hmisjudged.not_holds (hiff.mp (fun q hq => ?_) p hp)
    by_contra hq'
    exact hnone ⟨q, hq, fun h => hq' (.inl h), fun h => hq' (.inr h)⟩
  · intro hother
    constructor
    · intro haccepted p hp
      refine (haccepted p hp).resolve_right fun hmisjudged => ?_
      obtain ⟨q, hq, hholds, hnot⟩ := hother ⟨p, hp, hmisjudged⟩
      exact (haccepted q hq).elim hholds hnot
    · exact fun hholds p hp => .inl (hholds p hp)

end Match

/-! ### A predicate that is misjudged -/

def twoPatternNames : QueryNames where
  captureNames := ["a", "b"]
  stringValues := ["any-eq?", "eq?", "x"]

/-- `(#any-eq? @a "x")` and `(#eq? @a "x")`. -/
def twoPatterns : List (Nat × List PredicateStep) :=
  [(0, [⟨.string, 0⟩, ⟨.capture, 0⟩, ⟨.string, 2⟩, ⟨.done, 0⟩]),
    (0, [⟨.string, 1⟩, ⟨.capture, 0⟩, ⟨.string, 2⟩, ⟨.done, 0⟩])]

/-- What the binding reads of them. -/
def twoPatternQuery : List (PatternPredicates Empty) :=
  [{ textPredicates := [.eqString 0 "x" true false] },
    { textPredicates := [.eqString 0 "x" true true] }]

/-- No regular expressions. -/
def noRegex : RegexEngine Empty where
  new := fun _ => none
  isMatch := fun regex => regex.elim

theorem fromRawParts_twoPatterns :
    fromRawParts noRegex twoPatternNames "" twoPatterns = .ok twoPatternQuery := by
  decide +kernel

/-- A single node, captured by `@a`; its text is "y". -/
def singleCapture (patternIndex : Nat) : QueryMatch Unit := ⟨patternIndex, [⟨(), 0⟩]⟩

def singleText : Unit → List (List UInt8) := fun _ => [asBytes "y"]

theorem textOperator_twoPatternNames :
    textOperator (twoPatternNames.value ⟨.string, 0⟩) = some ⟨.eq, true, false⟩ ∧
      textOperator (twoPatternNames.value ⟨.string, 1⟩) = some ⟨.eq, true, true⟩ := by
  decide +kernel

theorem splitPredicates_single (operator first second : PredicateStep)
    (h : operator.type ≠ .done ∧ first.type ≠ .done ∧ second.type ≠ .done) :
    splitPredicates [operator, first, second, ⟨.done, 0⟩] = [[operator, first, second], []] := by
  obtain ⟨h₁, h₂, h₃⟩ := h
  simp [splitPredicates, splitOnP_cons_eq_if_modifyHead, h₁, h₂, h₃]

/-- `(#eq? @a "x")` is judged right. -/
theorem satisfiesTextPredicates_eq_example :
    satisfiesTextPredicates noRegex [] [] singleText (singleCapture 1) twoPatternQuery = true ↔
      ∀ p ∈ splitPredicates [⟨.string, 1⟩, ⟨.capture, 0⟩, ⟨.string, 2⟩, ⟨.done, 0⟩],
        PredicateHolds noRegex twoPatternNames singleText (singleCapture 1) p := by
  refine (satisfiesTextPredicates_iff [] [] (m := singleCapture 1) fromRawParts_twoPatterns
    rfl).mpr ?_
  rintro ⟨p, hp, hmisjudged⟩
  rw [splitPredicates_single _ _ _ (by decide), mem_pair] at hp
  rcases hp with rfl | rfl
  · simp only [Misjudged, PredicateSays, textOperator_twoPatternNames.2] at hmisjudged
    cases hmisjudged.1
  · exact hmisjudged.elim

/-- `(#any-eq? @a "x")` accepts a match though the only node of `@a` is not "x". -/
theorem not_satisfiesTextPredicates_iff :
    satisfiesTextPredicates noRegex [] [] singleText (singleCapture 0) twoPatternQuery = true ∧
      ¬ ∀ p ∈ splitPredicates [⟨.string, 0⟩, ⟨.capture, 0⟩, ⟨.string, 2⟩, ⟨.done, 0⟩],
        PredicateHolds noRegex twoPatternNames singleText (singleCapture 0) p := by
  refine ⟨by decide +kernel, fun h => ?_⟩
  have hany := h [⟨.string, 0⟩, ⟨.capture, 0⟩, ⟨.string, 2⟩]
    (by rw [splitPredicates_single _ _ _ (by decide)]; exact mem_cons_self)
  simp only [PredicateHolds, PredicateSays, textOperator_twoPatternNames.1] at hany
  rw [if_neg (by decide)] at hany
  rcases hany with hnil | ⟨node, -, heq⟩
  · revert hnil
    decide
  · cases node
    revert heq
    decide +kernel

end TreeSitter.Lib.TextPredicates
