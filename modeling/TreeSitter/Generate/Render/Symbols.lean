import TreeSitter.Generate.PrepareGrammar.ExtractDefaultAliases
import TreeSitter.Generate.Render.ParseTable

/-!
# TreeSitter.Generate.Render.Symbols

The **symbols** of a grammar as `render.rs` shows them. A symbol has a name and a kind of its own,
and it may have a default alias. `init` maps every symbol to one that stands for it in public, so
that users see one symbol for one name.
-/

namespace TreeSitter.Generate

open Library

/-- `Alias::kind`. -/
def Alias.variableType (as : Alias) : VariableType := if as.isNamed then .named else .anonymous

/-- `Generator`, of what is read for symbols and aliases: the symbols of the parse table and the
alias sequences of its production infos, and the name and the kind of each variable and token. -/
structure Generator where
  table : ParseTable
  aliasSequences : List (List (Option Alias))
  vars : List (String × VariableType)
  lexicalVariables : List (String × VariableType)
  externalTokens : List (String × VariableType)
  defaultAliases : AliasMap
  /-- A symbol is in the parse table once. -/
  nodup : table.symbols.Nodup

namespace Generator

variable (g : Generator)

/-- `parse_table.symbols`. -/
def symbols : List Symbol := g.table.symbols

/-- `metadata_for_symbol`. The source panics at a variable that is not there. -/
def metadataForSymbol (symbol : Symbol) : String × VariableType :=
  match symbol.kind with
  | .endOfFile | .endOfNonTerminalExtra => ("end", .hidden)
  | .nonTerminal => g.vars[symbol.index]?.getD ("", .hidden)
  | .terminal => g.lexicalVariables[symbol.index]?.getD ("", .hidden)
  | .external => g.externalTokens[symbol.index]?.getD ("", .hidden)

def defaultAlias (symbol : Symbol) : Option Alias := g.defaultAliases.get? symbol

/-! ### The public symbol -/

/-- The loop over the other symbols, for a symbol with a default alias. -/
def mapAliased (as : Alias) : List Symbol → Symbol → Symbol
  | [], mapping => mapping
  | other :: others, mapping =>
    match g.defaultAlias other with
    | some otherAlias =>
      mapAliased as others
        (if symbolKey other < symbolKey mapping ∧ otherAlias = as then other else mapping)
    | none =>
      if g.metadataForSymbol other = (as.value, as.variableType) then other
      else mapAliased as others mapping

/-- The loop over the other symbols, for a token without a default alias. It stops at the first
symbol with the same name and kind. -/
def mapTerminal (symbolMap : IndexMap Symbol Symbol) (symbol : Symbol) : Symbol :=
  match g.symbols.find? fun other => g.metadataForSymbol other = g.metadataForSymbol symbol with
  | some other => if symbolMap.get? other = some symbol then symbol else other
  | none => symbol

/-- What `init` maps a symbol to, behind the symbols in front of it. -/
def mapSymbol (symbolMap : IndexMap Symbol Symbol) (symbol : Symbol) : Symbol :=
  match g.defaultAlias symbol with
  | some as => g.mapAliased as g.symbols symbol
  | none => if symbol.isTerminal then g.mapTerminal symbolMap symbol else symbol

/-- `symbol_map`. -/
def symbolMap : IndexMap Symbol Symbol :=
  g.symbols.foldl (fun symbolMap symbol => symbolMap.insert symbol (g.mapSymbol symbolMap symbol))
    .empty

def publicSymbol (symbol : Symbol) : Symbol := (g.symbolMap.get? symbol).getD symbol

/-- `symbols_for_alias`. -/
def symbolsForAlias (as : Alias) : List Symbol :=
  g.symbols.filter fun symbol =>
    match g.defaultAlias symbol with
    | some defaultAlias => defaultAlias = as
    | none => g.metadataForSymbol symbol = (as.value, as.variableType)

end Generator

end TreeSitter.Generate
