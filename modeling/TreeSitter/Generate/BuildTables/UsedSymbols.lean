import TreeSitter.Generate.Tables

/-!
# TreeSitter.Generate.BuildTables.UsedSymbols

`populate_used_symbols` of `build_tables.rs`: the **symbols of a parse table** are those that its
entries are for, behind the end. Tokens come first, and the word token first of all; non-terminals
come last, in the order of their indices (`usedSymbols_eq`).
-/

namespace TreeSitter.Generate

open List Library

/-- Whether some state has an entry for a token. -/
def isTerminalUsed (table : ParseTable) (symbol : Symbol) : Bool :=
  table.states.any fun state => symbol ∈ state.terminalEntries.keys

/-- Whether some state has an entry for a non-terminal. -/
def isNonTerminalUsed (table : ParseTable) (symbol : Symbol) : Bool :=
  table.states.any fun state => symbol ∈ state.nonterminalEntries.keys

/-- A used token is put behind the others, and the word token behind the end. -/
def pushTerminal (wordToken : Option Symbol) (symbols : List Symbol) (i : Nat) : List Symbol :=
  if wordToken.any (·.index == i) then symbols.insertIdx 1 (.terminal i)
  else symbols ++ [.terminal i]

/-- `populate_used_symbols`, of a table without symbols; the counts are those of the variables and
tokens of the grammar. -/
def usedSymbols (wordToken : Option Symbol)
    (terminalCount externalCount nonTerminalCount : Nat) (table : ParseTable) : List Symbol :=
  (((List.range terminalCount).filter fun i => isTerminalUsed table (.terminal i)).foldl
      (pushTerminal wordToken) [.eof]) ++
    ((List.range externalCount).filter fun i => isTerminalUsed table (.external i)).map
      Symbol.external ++
    ((List.range nonTerminalCount).filter fun i => isNonTerminalUsed table (.nonTerminal i)).map
      Symbol.nonTerminal

variable {wordToken : Option Symbol}

theorem foldl_pushTerminal_eq (indices : List Nat) : ∀ {tokens : List Symbol},
    (∀ symbol ∈ tokens, symbol.isTerminal) → ∃ tokens', (∀ symbol ∈ tokens', symbol.isTerminal) ∧
      indices.foldl (pushTerminal wordToken) (.eof :: tokens) = .eof :: tokens' := by
  induction indices with
  | nil => exact fun htokens => ⟨_, htokens, rfl⟩
  | cons i indices ih =>
    intro tokens htokens
    rw [foldl_cons, pushTerminal]
    split
    · have hfirst : ∀ symbol ∈ Symbol.terminal i :: tokens, symbol.isTerminal := by
        intro symbol hmem
        rcases mem_cons.mp hmem with rfl | hmem
        · rfl
        · exact htokens symbol hmem
      have hinsert : (Symbol.eof :: tokens).insertIdx 1 (.terminal i) =
          .eof :: .terminal i :: tokens := by
        rw [insertIdx_succ_cons, insertIdx_zero]
      rw [hinsert]
      exact ih hfirst
    · have hlast : ∀ symbol ∈ tokens ++ [Symbol.terminal i], symbol.isTerminal := by
        intro symbol hmem
        rcases mem_append.mp hmem with hmem | hmem
        · exact htokens symbol hmem
        · rw [mem_singleton.mp hmem]
          rfl
      exact ih hlast

/-- **The end, tokens, and non-terminals in the order of their indices.** -/
theorem usedSymbols_eq (wordToken : Option Symbol)
    (terminalCount externalCount nonTerminalCount : Nat) (table : ParseTable) :
    ∃ (tokens : List Symbol) (indices : List Nat),
      usedSymbols wordToken terminalCount externalCount nonTerminalCount table =
        .eof :: tokens ++ indices.map Symbol.nonTerminal ∧
      (∀ symbol ∈ tokens, symbol.isTerminal ∨ symbol.isExternal) ∧
        indices.Pairwise (· < ·) := by
  obtain ⟨tokens, htokens, heq⟩ := @foldl_pushTerminal_eq wordToken
    ((List.range terminalCount).filter fun i => isTerminalUsed table (.terminal i)) []
    fun _ h => nomatch h
  refine ⟨tokens ++ ((List.range externalCount).filter fun i =>
    isTerminalUsed table (.external i)).map Symbol.external,
    (List.range nonTerminalCount).filter fun i => isNonTerminalUsed table (.nonTerminal i), ?_, ?_,
    pairwise_lt_range.filter _⟩
  · rw [usedSymbols, heq, cons_append, cons_append]
  · intro symbol hmem
    rcases mem_append.mp hmem with hmem | hmem
    · exact .inl (htokens symbol hmem)
    · obtain ⟨i, -, rfl⟩ := mem_map.mp hmem
      exact .inr rfl

end TreeSitter.Generate
