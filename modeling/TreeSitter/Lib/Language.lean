import Mathlib

/-!
# TreeSitter.Lib.Language

`language.h` and `language.c`: how the runtime looks up **parse actions** and **successor states**
in the tables of a language. A state below `large_state_count` has a row of its own; any other one
has an offset into a table of groups, each with a value and the symbols it is for.
-/

namespace TreeSitter.Lib

/-- `TSParseAction`. -/
inductive TSParseAction where
  | shift (state : Nat) (extra repetition : Bool)
  | reduce (childCount symbol : Nat) (dynamicPrecedence : Int) (productionId : Nat)
  | accept
  | recover

/-- `TSParseActionEntry`: what stands at an index of the actions. -/
inductive TSParseActionEntry where
  | action (action : TSParseAction)
  | entry (count : Nat) (reusable : Bool)

/-- `TSLanguage`, of what the lookups read. -/
structure TSLanguage where
  symbolCount : Nat
  tokenCount : Nat
  stateCount : Nat
  largeStateCount : Nat
  parseTable : Nat → Nat
  smallParseTable : Nat → Nat
  smallParseTableMap : Nat → Nat
  parseActions : Nat → TSParseActionEntry

/-- `ts_builtin_sym_error`. -/
def builtinSymError : Nat := 2 ^ 16 - 1

/-- `ts_builtin_sym_error_repeat`. -/
def builtinSymErrorRepeat : Nat := builtinSymError - 1

/-- The loop over the groups of a state, from a position on. -/
def lookupGroups (table : Nat → Nat) (symbol : Nat) : Nat → Nat → Nat
  | 0, _ => 0
  | groupCount + 1, data =>
    let sectionValue := table data
    let symbolCount := table (data + 1)
    if (List.range symbolCount).any fun j => table (data + 2 + j) = symbol then sectionValue
    else lookupGroups table symbol groupCount (data + 2 + symbolCount)

/-- `ts_language_lookup`. -/
def languageLookup (language : TSLanguage) (state symbol : Nat) : Nat :=
  if state ≥ language.largeStateCount then
    let index := language.smallParseTableMap (state - language.largeStateCount)
    lookupGroups language.smallParseTable symbol (language.smallParseTable index) (index + 1)
  else language.parseTable (state * language.symbolCount + symbol)

/-- `TableEntry`, with the actions that `actions` and `action_count` stand for. -/
structure TableEntry where
  actions : List TSParseActionEntry
  isReusable : Bool

/-- `ts_language_table_entry`. -/
def languageTableEntry (language : TSLanguage) (state symbol : Nat) : TableEntry :=
  if symbol = builtinSymError ∨ symbol = builtinSymErrorRepeat then ⟨[], false⟩
  else
    let actionIndex := languageLookup language state symbol
    match language.parseActions actionIndex with
    | .entry count reusable =>
      ⟨(List.range count).map fun j => language.parseActions (actionIndex + 1 + j), reusable⟩
    -- Not a header; the source would read the bytes of an action.
    | .action _ => ⟨[], false⟩

/-- `ts_language_next_state`. -/
def languageNextState (language : TSLanguage) (state symbol : Nat) : Nat :=
  if symbol = builtinSymError ∨ symbol = builtinSymErrorRepeat ∨ symbol ≥ language.symbolCount ∨
      state ≥ language.stateCount then 0
  else if symbol < language.tokenCount then
    match (languageTableEntry language state symbol).actions.getLast? with
    | some (.action (.shift next extra _)) => if extra then state else next
    | _ => 0
  else languageLookup language state symbol

end TreeSitter.Lib
