import Mathlib

/-!
# TreeSitter.Generate.Rules

The rule language of the grammar backend (`rules.rs`): **symbols**, the attributes a
rule can carry, and **rules**. The source keeps rules in an arena and refers to
children by index; passes that only read a rule see the tree it unfolds to, and that
tree is the `Rule` here. Interned strings are plain strings.
-/

namespace TreeSitter.Generate

/-- `SymbolType`. -/
inductive SymbolType where
  | external
  | endOfFile
  | endOfNonTerminalExtra
  | terminal
  | nonTerminal
deriving DecidableEq

/-- `Symbol`. -/
structure Symbol where
  kind : SymbolType
  index : Nat
deriving DecidableEq

namespace Symbol

def isTerminal (s : Symbol) : Bool := s.kind == .terminal
def isNonTerminal (s : Symbol) : Bool := s.kind == .nonTerminal
def isExternal (s : Symbol) : Bool := s.kind == .external
def isEof (s : Symbol) : Bool := s.kind == .endOfFile

/-- `Symbol::non_terminal`. -/
def nonTerminal (index : Nat) : Symbol := ⟨.nonTerminal, index⟩

/-- `Symbol::terminal`. -/
def terminal (index : Nat) : Symbol := ⟨.terminal, index⟩

/-- `Symbol::external`. -/
def external (index : Nat) : Symbol := ⟨.external, index⟩

/-- `Symbol::end`. -/
def eof : Symbol := ⟨.endOfFile, 0⟩

/-- `Symbol::end_of_nonterminal_extra`. -/
def endOfNonterminalExtra : Symbol := ⟨.endOfNonTerminalExtra, 0⟩

end Symbol

/-- `Associativity`. -/
inductive Associativity where
  | left
  | right
deriving DecidableEq

/-- `Alias`. -/
structure Alias where
  value : String
  isNamed : Bool
deriving DecidableEq

/-- `Precedence`. -/
inductive Precedence where
  | none
  | integer (value : Int)
  | name (value : String)
deriving DecidableEq

/-- `i32::abs` of a release build, where it leaves `i32::MIN` as it is. -/
def absI32 (value : Int) : Int := if value = -2 ^ 31 then value else value.natAbs

/-- `MetadataParams`. -/
structure MetadataParams where
  precedence : Precedence := .none
  associativity : Option Associativity := none
  dynamicPrecedence : Int := 0
  aliasAs : Option Alias := none
  field : Option String := none
  isToken : Bool := false
  isMainToken : Bool := false
deriving DecidableEq

/-- `Rule`. -/
inductive Rule where
  | blank
  | string (value : String)
  | pattern (value flags : String)
  | namedSymbol (name : String)
  | sym (symbol : Symbol)
  | seq (elements : List Rule)
  | choice (elements : List Rule)
  | repeat (rule : Rule)
  | eof
  | metadata (params : MetadataParams) (rule : Rule)
  | reserved (rule : Rule) (context : String)

end TreeSitter.Generate
