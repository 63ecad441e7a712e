import TreeSitter.Generate.Rules
import TreeSitter.Generate.PrepareGrammar.ExpandRegex

/-!
# TreeSitter.Generate.PrepareGrammar.ExpandRule

`NfaBuilder::expand_rule` of `expand_tokens.rs`: a **lexical rule** becomes states of
the lexical automaton. Patterns are parsed to an HIR first; the parser of
`pattern.rs` rests on `regex_syntax` and is a parameter here.
-/

namespace TreeSitter.Generate

/-- `ExpandRuleError`. `unreachable` stands for the panic of the `NamedSymbol` arm,
which `intern_symbols` rules out. -/
inductive ExpandRuleError where
  | unexpectedSymbol (symbol : Symbol)
  | unexpectedReserved (context : String)
  | unexpectedEof
  | parse (message : String)
  | expandRegex (error : ExpandRegexError)
  | unreachable

/-- The result of expanding a rule: whether states were added, and the new builder. -/
abbrev ExpandRuleResult := Except ExpandRuleError (Bool × NfaBuilder)

/-- The six textual replacements made before a pattern is parsed. -/
def replaceClasses (pattern : String) : String :=
  (((((pattern.replace "\\w" "[0-9A-Za-z_]").replace "\\s" "[\\t-\\r ]").replace
    "\\d" "[0-9]").replace "\\W" "[^0-9A-Za-z_]").replace "\\S" "[^\\t-\\r ]").replace
    "\\D" "[^0-9]"

namespace NfaBuilder

/-- `precedence_stack.push`, if the metadata has an integer precedence. -/
def pushPrecedence (b : NfaBuilder) : Precedence → NfaBuilder
  | .integer p => { b with precedence := p, outerPrecedences := b.precedence :: b.outerPrecedences }
  | _ => b

/-- `precedence_stack.pop`, if the metadata has an integer precedence. -/
def popPrecedence (b : NfaBuilder) : Precedence → NfaBuilder
  | .integer _ =>
    match b.outerPrecedences with
    | p :: ps => { b with precedence := p, outerPrecedences := ps }
    | [] => b
  | _ => b

end NfaBuilder

section

variable (parse : String → Bool → Except String Hir)

def parsePattern (value flags : String) : Except String Hir :=
  parse (replaceClasses value) (flags.contains 'i')

/-- The `Rule::Pattern` arm. -/
def expandPattern (value flags : String) (next : Nat) (b : NfaBuilder) : ExpandRuleResult :=
  match parsePattern parse value flags with
  | .error message => .error (.parse message)
  | .ok hir => (expandRegex hir next b).mapError .expandRegex

mutual

/-- `expand_rule`. -/
def expandRule : Rule → Nat → NfaBuilder → ExpandRuleResult
  | .pattern value flags, next, b => expandPattern parse value flags next b
  | .string value, next, b =>
    .ok (!value.isEmpty, (NfaBuilder.pushChars value.toList next b).2)
  | .choice elements, next, b => do
    let (didExpand, ids, b) ← expandChoice elements next b
    pure (didExpand, pushSplits b (distinctStates b.lastStateId ids))
  | .seq elements, next, b => do
    let (result, _, b) ← expandSeq elements next b
    pure (result, b)
  | .repeat rule, next, b => do
    let b := b.pushState (.accept 0 0)
    let splitStateId := b.lastStateId
    let (added, b) ← expandRule rule splitStateId b
    if added then
      pure (true, { b with states := b.states.set splitStateId (.split b.lastStateId next) })
    else
      pure (false, { b with states := b.states.dropLast })
  | .metadata params rule, next, b => do
    let (added, b) ← expandRule rule next (b.pushPrecedence params.precedence)
    pure (added, b.popPrecedence params.precedence)
  | .blank, _, b => .ok (false, b)
  | .eof, _, _ => .error .unexpectedEof
  | .sym symbol, _, _ => .error (.unexpectedSymbol symbol)
  | .reserved _ context, _, _ => .error (.unexpectedReserved context)
  | .namedSymbol _, _, _ => .error .unreachable

/-- The loop over the elements of a choice: whether one added states, the states they
start in, and the builder. -/
def expandChoice : List Rule → Nat → NfaBuilder →
    Except ExpandRuleError (Bool × List Nat × NfaBuilder)
  | [], _, b => .ok (false, [], b)
  | element :: rest, next, b => do
    let (added, b) ← expandRule element next b
    let (didExpand, ids, b') ← expandChoice rest next b
    pure (didExpand || added, (if added then b.lastStateId else next) :: ids, b')

/-- The loop over the elements of a sequence, from the right: result, state to
continue in, builder. The state to continue in is the last state after every element,
whether or not the element added one. -/
def expandSeq : List Rule → Nat → NfaBuilder →
    Except ExpandRuleError (Bool × Nat × NfaBuilder)
  | [], next, b => .ok (false, next, b)
  | element :: rest, next, b => do
    let (result, next, b) ← expandSeq rest next b
    let (added, b) ← expandRule element next b
    pure (result || added, b.lastStateId, b)

end

/-! ### The meaning of a rule -/

/-- The words a pattern leaf stands for. -/
def patternLang (value flags : String) : Language Char :=
  match parsePattern parse value flags with
  | .error _ => 0
  | .ok hir => hir.lang

mutual

/-- The words a lexical rule stands for. -/
def Rule.lang : Rule → Language Char
  | .blank => 1
  | .string value => word value.toList
  | .pattern value flags => patternLang parse value flags
  | .choice elements => langChoice elements
  | .seq elements => langSeq elements
  | .repeat rule => repetitionLang rule.lang 1 none
  | .metadata _ rule => rule.lang
  | _ => 0

/-- A word of any of the rules. -/
def langChoice : List Rule → Language Char
  | [] => 0
  | element :: rest => element.lang + langChoice rest

/-- One word of each rule, in order. -/
def langSeq : List Rule → Language Char
  | [] => 1
  | element :: rest => element.lang * langSeq rest

end

end

end TreeSitter.Generate
