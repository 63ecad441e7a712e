import TreeSitter.Generate.Nfa

/-!
# TreeSitter.Generate.PrepareGrammar.ExpandRegex

`NfaBuilder::expand_regex` of `expand_tokens.rs`: a **regular expression**, as the HIR
of `regex_syntax`, becomes states of the lexical automaton. Every function is given
the state to continue in and says whether it added states; if it did, the expression
starts at `last_state_id`, otherwise at the state it was given.

`Hir.lang` is the meaning of an HIR that `regex_syntax` documents.
-/

namespace TreeSitter.Generate

open Language

/-! ### The HIR -/

/-- A literal of the HIR: UTF-8 bytes, never none. -/
structure Literal where
  bytes : ByteArray
  nonempty : bytes ≠ ByteArray.empty

/-- One range of a Unicode class, ends included. -/
structure ClassUnicodeRange where
  start : Char
  stop : Char
  le : start ≤ stop

/-- One range of a byte class, ends included. -/
structure ClassBytesRange where
  start : UInt8
  stop : UInt8
  le : start ≤ stop

/-- The bounds `{min,max}` of a repetition; `none` is no upper bound. -/
structure RepetitionBounds where
  min : Nat
  max : Option Nat
  le : ∀ m ∈ max, min ≤ m

/-- `HirKind`. -/
inductive Hir where
  | empty
  | literal (literal : Literal)
  | classUnicode (ranges : List ClassUnicodeRange)
  | classBytes (ranges : List ClassBytesRange)
  | look
  | repetition (bounds : RepetitionBounds) (sub : Hir)
  | capture (sub : Hir)
  | concat (subs : List Hir)
  | alternation (subs : List Hir)

/-- `ExpandRegexError`; the text of the standard library's UTF-8 error is left out. -/
inductive ExpandRegexError where
  | utf8
  | assertion
  | nonAsciiByteClass (start stop : UInt8)

/-- The result of an expansion: whether states were added, and the new builder. -/
abbrev ExpandRegexResult := Except ExpandRegexError (Bool × NfaBuilder)

/-! ### Character classes -/

/-- The loop over `class.ranges()` of a Unicode class. -/
def classChars (ranges : List ClassUnicodeRange) : CharacterSet :=
  ranges.foldl (fun chars c => chars.addRange c.start c.stop c.le) CharacterSet.empty

/-- A byte as a character; the code converts only bytes below `0x80`. -/
def byteChar (b : UInt8) : Char := Char.ofUInt8 b

theorem byteChar_toNat (b : UInt8) : (byteChar b).toNat = b.toNat := by
  simp [byteChar, Char.ofUInt8, Char.toNat]

theorem byteChar_le {a b : UInt8} (h : a ≤ b) : byteChar a ≤ byteChar b := by
  rw [Char.le_def, UInt32.le_iff_toNat_le]
  change (byteChar a).toNat ≤ (byteChar b).toNat
  rw [byteChar_toNat, byteChar_toNat]
  exact UInt8.le_iff_toNat_le.mp h

/-- The loop over `bytes_class.ranges()`: the first range that is not ASCII is an
error. -/
def byteClassChars : CharacterSet → List ClassBytesRange → Except ExpandRegexError CharacterSet
  | chars, [] => .ok chars
  | chars, c :: cs =>
    if c.stop < 0x80 then
      byteClassChars (chars.addRange (byteChar c.start) (byteChar c.stop) (byteChar_le c.le)) cs
    else .error (.nonAsciiByteClass c.start c.stop)

/-! ### Repetitions

The helpers take the expansion of the repeated expression as a function of the state
to continue in, so that they serve every `sub`. -/

section Repetition

variable (sub : Nat → NfaBuilder → ExpandRegexResult)

/-- `expand_one_or_more`: the split state is pushed as a placeholder, the body is
expanded to return to it, and only then is the split written. -/
def expandOneOrMore (next : Nat) (b : NfaBuilder) : ExpandRegexResult := do
  let b := b.pushState (.accept 0 0)
  let splitStateId := b.lastStateId
  let (added, b) ← sub splitStateId b
  if added then
    pure (true, { b with states := b.states.set splitStateId (.split b.lastStateId next) })
  else
    pure (false, { b with states := b.states.dropLast })

/-- `expand_zero_or_one`. -/
def expandZeroOrOne (next : Nat) (b : NfaBuilder) : ExpandRegexResult := do
  let (added, b) ← sub next b
  if added then pure (true, b.pushSplit next) else pure (false, b)

/-- `expand_zero_or_more`. -/
def expandZeroOrMore (next : Nat) (b : NfaBuilder) : ExpandRegexResult := do
  let (added, b) ← expandOneOrMore sub next b
  if added then pure (true, b.pushSplit next) else pure (false, b)

/-- The loop of `expand_count`, from its current result. -/
def expandCountGo (result : Bool) (next : Nat) (b : NfaBuilder) : Nat → ExpandRegexResult
  | 0 => pure (result, b)
  | n + 1 => do
    let (added, b) ← sub next b
    if added then expandCountGo true b.lastStateId b n else expandCountGo result next b n

/-- `expand_count`. -/
def expandCount (count next : Nat) (b : NfaBuilder) : ExpandRegexResult :=
  expandCountGo sub false next b count

/-- The loop `for _ in min..max` of the bounded case. -/
def expandOptional (result : Bool) (next : Nat) (b : NfaBuilder) : Nat → ExpandRegexResult
  | 0 => pure (result, b)
  | n + 1 => do
    let next := if result then b.lastStateId else next
    let (added, b) ← expandZeroOrOne sub next b
    expandOptional (if added then true else result) next b n

/-- The `HirKind::Repetition` arm, its cases in the order of the source. -/
def expandRepetition (next : Nat) (b : NfaBuilder) : Nat → Option Nat → ExpandRegexResult
  | 0, some 1 => expandZeroOrOne sub next b
  | 1, none => expandOneOrMore sub next b
  | 0, none => expandZeroOrMore sub next b
  | min, some max =>
    if min = max then expandCount sub min next b
    else do
      let (result, b) ← expandCount sub min next b
      expandOptional sub result next b (max - min)
  | min, none => do
    let (added, b) ← expandZeroOrMore sub next b
    if added then expandCount sub min next b else pure (false, b)

end Repetition

/-! ### The expansion -/

/-- `sort_unstable`, `dedup` and `retain` on the states the alternatives start in. -/
def distinctStates (last : Nat) (ids : List Nat) : List Nat :=
  ((ids.insertionSort (· ≤ ·)).destutter (· ≠ ·)).filter (· ≠ last)

/-- The loop that joins the alternatives by splits. -/
def pushSplits (b : NfaBuilder) (ids : List Nat) : NfaBuilder :=
  ids.foldl NfaBuilder.pushSplit b

mutual

/-- `expand_regex`. -/
def expandRegex : Hir → Nat → NfaBuilder → ExpandRegexResult
  | .empty, _, b => .ok (false, b)
  | .literal lit, next, b =>
    match String.fromUTF8? lit.bytes with
    | none => .error .utf8
    | some s => .ok (true, (NfaBuilder.pushChars s.toList next b).2)
  | .classUnicode ranges, next, b => .ok (true, b.pushAdvance (classChars ranges) next)
  | .classBytes ranges, next, b => do
    let chars ← byteClassChars CharacterSet.empty ranges
    pure (true, b.pushAdvance chars next)
  | .look, _, _ => .error .assertion
  | .repetition bounds sub, next, b =>
    expandRepetition (expandRegex sub) next b bounds.min bounds.max
  | .capture sub, next, b => expandRegex sub next b
  | .concat subs, next, b => do
    let (result, _, b) ← expandConcat subs next b
    pure (result, b)
  | .alternation subs, next, b => do
    let (ids, b) ← expandAlternatives subs next b
    pure (true, pushSplits b (distinctStates b.lastStateId ids))

/-- The loop `for hir in concat.iter().rev()`: result, state to continue in, builder. -/
def expandConcat : List Hir → Nat → NfaBuilder →
    Except ExpandRegexError (Bool × Nat × NfaBuilder)
  | [], next, b => .ok (false, next, b)
  | hir :: rest, next, b => do
    let (result, next, b) ← expandConcat rest next b
    let (added, b) ← expandRegex hir next b
    if added then pure (true, b.lastStateId, b) else pure (result, next, b)

/-- The loop over the alternatives: the states they start in, and the builder. -/
def expandAlternatives : List Hir → Nat → NfaBuilder →
    Except ExpandRegexError (List Nat × NfaBuilder)
  | [], _, b => .ok ([], b)
  | hir :: rest, next, b => do
    let (added, b) ← expandRegex hir next b
    let (ids, b') ← expandAlternatives rest next b
    pure ((if added then b.lastStateId else next) :: ids, b')

end

/-! ### The meaning of an HIR -/

/-- Between `min` and `max` words of a language, one after the other. -/
def repetitionLang (L : Language Char) (min : Nat) (max : Option Nat) : Language Char :=
  {w | ∃ k, min ≤ k ∧ (∀ m ∈ max, k ≤ m) ∧ w ∈ L ^ k}

mutual

/-- The words an HIR stands for. A byte class stands for the characters of its bytes,
which is what it means below `0x80`. -/
def Hir.lang : Hir → Language Char
  | .empty => 1
  | .literal lit => {w | String.fromUTF8? lit.bytes = some (String.ofList w)}
  | .classUnicode ranges => Library.letters {c | ∃ r ∈ ranges, r.start ≤ c ∧ c ≤ r.stop}
  | .classBytes ranges =>
    Library.letters {c | ∃ r ∈ ranges, r.start.toNat ≤ c.toNat ∧ c.toNat ≤ r.stop.toNat}
  | .look => 0
  | .repetition bounds sub => repetitionLang sub.lang bounds.min bounds.max
  | .capture sub => sub.lang
  | .concat subs => langConcat subs
  | .alternation subs => langAlternation subs

/-- One word of each expression, in order. -/
def langConcat : List Hir → Language Char
  | [] => 1
  | hir :: rest => hir.lang * langConcat rest

/-- A word of any of the expressions. -/
def langAlternation : List Hir → Language Char
  | [] => 0
  | hir :: rest => hir.lang + langAlternation rest

end

end TreeSitter.Generate
