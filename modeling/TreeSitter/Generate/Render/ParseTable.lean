import TreeSitter.Generate.BuildTables.MinimizeParseTable
import TreeSitter.Lib.Language
import TreeSitter.Library.Initializer

/-!
# TreeSitter.Generate.Render.ParseTable

`add_parse_table` of `render.rs`: the C arrays a parse table is written to. **Large states** have
a row of a matrix; **small states** have a list of groups, where all symbols with one value share a
group. Action lists are written one behind the other and referred to by the index of their header.
An identifier of the C code is the number it is declared as, and a number is cut to the width of
the field it is written to.
-/

namespace TreeSitter.Generate

open List Library Lib

/-! ### Symbols and states -/

/-- `symbol_order`, as `add_symbol_enum` fills it. -/
def symbolOrder (table : ParseTable) : IndexMap Symbol Nat :=
  ((table.symbols.filter (· ≠ Symbol.eof)).zipIdx 1).foldl (fun m e => m.insert e.1 e.2)
    (IndexMap.empty.insert Symbol.eof 0)

/-- `symbol_ids`, by the number an identifier is declared as: the end of a non-terminal extra has
the identifier of the end. The source panics at a symbol that is not there. -/
def symbolId (table : ParseTable) (symbol : Symbol) : Nat :=
  if symbol = Symbol.endOfNonterminalExtra then ((symbolOrder table).get? Symbol.eof).getD 0
  else ((symbolOrder table).get? symbol).getD 0

theorem getElem?_symbolId_of_eq {table : ParseTable} {rest : List Symbol}
    (hsymbols : table.symbols = Symbol.eof :: rest) (hnodup : table.symbols.Nodup) {s : Symbol}
    (hne : s ≠ Symbol.endOfNonterminalExtra) (hs : s ∈ table.symbols) :
    table.symbols[symbolId table s]? = some s := by
  rw [hsymbols, nodup_cons] at hnodup
  have hfilter : table.symbols.filter (· ≠ Symbol.eof) = rest := by
    rw [hsymbols, filter_cons_of_neg (by simp), filter_eq_self]
    intro s hs
    exact decide_eq_true fun heq => hnodup.1 (heq ▸ hs)
  have hkeys : ((rest.zipIdx 1).map Prod.fst).Nodup := by
    rw [zipIdx_map_fst]
    exact hnodup.2
  have hget : ∀ s, (symbolOrder table).get? s =
      (lookupEntry s (rest.zipIdx 1)).or (if Symbol.eof = s then some 0 else none) := by
    intro s
    rw [symbolOrder, hfilter, IndexMap.get?_foldl_insert s _ hkeys, IndexMap.get?_insert]
    rfl
  rw [symbolId, if_neg hne, hget]
  rw [hsymbols, mem_cons] at hs
  rcases hs with rfl | hs
  · have hnone : lookupEntry Symbol.eof (rest.zipIdx 1) = none := by
      rw [Option.eq_none_iff_forall_ne_some]
      intro v hv
      exact hnodup.1 (fst_mem_of_mem_zipIdx (lookupEntry_eq_some hv))
    rw [hnone, if_pos rfl, hsymbols]
    rfl
  · obtain ⟨j, hj⟩ := getElem?_of_mem hs
    have hmem : (s, j + 1) ∈ rest.zipIdx 1 := by
      rw [mk_mem_zipIdx_iff_le_and_getElem?_sub]
      exact ⟨by omega, hj⟩
    rw [lookupEntry_of_mem hkeys hmem, Option.some_or, Option.getD_some, hsymbols,
      getElem?_cons_succ, hj]

/-- `TOKEN_COUNT`; `internal` says which external tokens have an internal token. -/
def tokenCount (internal : Nat → Bool) (table : ParseTable) : Nat :=
  (table.symbols.filter fun symbol =>
    symbol.isTerminal || symbol.isEof || (symbol.isExternal && !internal symbol.index)).length

/-- `SMALL_STATE_THRESHOLD`. -/
def smallStateThreshold : Nat := 64

/-- `large_state_count`. -/
def largeStateCount (table : ParseTable) : Nat :=
  (table.states.zipIdx.takeWhile fun e =>
    decide (e.2 ≤ 1) || decide (e.1.terminalEntries.entries.length +
      e.1.nonterminalEntries.entries.length > min smallStateThreshold (table.symbols.length / 2))
  ).length

/-! ### Action lists -/

/-- `parse_table_entries` and `next_parse_action_list_index`. -/
structure ParseActionLists where
  entries : IndexMap ActionListId Nat
  nextIndex : Nat

/-- `get_parse_action_list_id`. -/
def getParseActionListId (table : ParseTable) (lists : ParseActionLists) (id : ActionListId) :
    Nat × ParseActionLists :=
  match lists.entries.get? id with
  | some index => (index, lists)
  | none => (lists.nextIndex,
      ⟨lists.entries.insert id lists.nextIndex, lists.nextIndex + (1 + (table.actions id).length)⟩)

/-- The indices of the action lists of one state's terminal entries. -/
def terminalIndices (table : ParseTable) :
    ParseActionLists → List (Symbol × ActionListId) → List (Symbol × Nat) × ParseActionLists
  | lists, [] => ([], lists)
  | lists, (symbol, id) :: entries =>
    let (index, lists) := getParseActionListId table lists id
    let (indices, lists) := terminalIndices table lists entries
    ((symbol, index) :: indices, lists)

/-- What terminal entries are sorted by: a symbol without an order comes first. -/
def symbolOrderKey (table : ParseTable) (symbol : Symbol) : WithBot Nat :=
  (symbolOrder table).get? symbol

def sortedTerminals (table : ParseTable) (state : ParseState) : List (Symbol × ActionListId) :=
  sortedEntries (symbolOrderKey table) state.terminalEntries

/-- The indices of all states in turn: the loop over the large states and the one over the small
states ask for them in the order of the states. -/
def stateIndices (table : ParseTable) :
    ParseActionLists → List ParseState → List (List (Symbol × Nat)) × ParseActionLists
  | lists, [] => ([], lists)
  | lists, state :: states =>
    let (indices, lists) := terminalIndices table lists (sortedTerminals table state)
    let (rest, lists) := stateIndices table lists states
    (indices :: rest, lists)

/-- The indices of all states, after the list for symbols that are not valid. -/
def allIndices (table : ParseTable) : List (List (Symbol × Nat)) × ParseActionLists :=
  let (_, lists) := getParseActionListId table ⟨.empty, 0⟩ ⟨0, false⟩
  stateIndices table lists table.states

/-- An action as the macros of `parser.h` write it. -/
def renderAction (table : ParseTable) : ParseAction → TSParseAction
  | .accept => .accept
  | .recover => .recover
  | .shiftExtra => .shift 0 true false
  | .shift state isRepetition => .shift (state % 2 ^ 16) false isRepetition
  | .reduce symbol childCount dynamicPrecedence productionId =>
    .reduce (childCount % 2 ^ 8) (symbolId table symbol % 2 ^ 16)
      (dynamicPrecedence.bmod (2 ^ 16)) (productionId % 2 ^ 16)

/-- `add_parse_action_list`. -/
def addParseActionList (table : ParseTable) (entries : List (Nat × ActionListId)) :
    List (InitItem TSParseActionEntry) :=
  entries.flatMap fun e =>
    .designated e.1 (.entry ((table.actions e.2).length % 2 ^ 8) e.2.reusable) ::
      (table.actions e.2).map fun action => .next (.action (renderAction table action))

/-! ### Large states -/

def gotoState (stateId : Nat) : GotoAction → Nat
  | .goto state => state
  | .shiftExtra => stateId

def largeRow (table : ParseTable) (stateId : Nat) (state : ParseState)
    (indices : List (Symbol × Nat)) : List (Nat × Nat) :=
  (sortedEntries symbolKey state.nonterminalEntries).map
      (fun e => (symbolId table e.1, gotoState stateId e.2 % 2 ^ 16)) ++
    indices.map fun e => (symbolId table e.1, e.2 % 2 ^ 16)

/-! ### Small states -/

/-- Push a symbol to the entry of its value (`symbols_by_value`). -/
def pushSymbol (m : IndexMap (Nat × SymbolType) (List Symbol))
    (entry : Symbol × (Nat × SymbolType)) : IndexMap (Nat × SymbolType) (List Symbol) :=
  m.insert entry.2 ((m.get? entry.2).getD [] ++ [entry.1])

def smallEntries (stateId : Nat) (state : ParseState) (indices : List (Symbol × Nat)) :
    List (Symbol × (Nat × SymbolType)) :=
  indices.map (fun e => (e.1, e.2, SymbolType.terminal)) ++
    state.nonterminalEntries.entries.map fun e => (e.1, gotoState stateId e.2, .nonTerminal)

/-- What the groups of a state are sorted by; the order of the map does not matter. -/
def groupKey (group : (Nat × SymbolType) × List Symbol) :
    Nat ×ₗ Nat ×ₗ Nat ×ₗ WithBot (Nat ×ₗ Nat) :=
  toLex (group.2.length, toLex (group.1.2.tag, toLex (group.1.1,
    ((group.2.head?.map symbolKey : Option (Nat ×ₗ Nat)) : WithBot (Nat ×ₗ Nat)))))

/-- `values_with_symbols` of a small state. -/
def valuesWithSymbols (stateId : Nat) (state : ParseState) (indices : List (Symbol × Nat)) :
    List ((Nat × SymbolType) × List Symbol) :=
  ((smallEntries stateId state indices).foldl pushSymbol .empty).entries.insertionSort
    fun x y => groupKey x ≤ groupKey y

/-- A group as it is written: value, number of symbols, symbols. -/
def groupItems (table : ParseTable) (group : (Nat × SymbolType) × List Symbol) : List Nat :=
  group.1.1 % 2 ^ 16 :: group.2.length % 2 ^ 16 ::
    (group.2.insertionSort fun x y => symbolKey x ≤ symbolKey y).map fun symbol =>
      symbolId table symbol % 2 ^ 16

/-- `ts_small_parse_table` and `small_state_indices`, from an index on. -/
def smallParseTable (table : ParseTable) :
    Nat → List (List ((Nat × SymbolType) × List Symbol)) → List (InitItem Nat) × List Nat
  | _, [] => ([], [])
  | nextTableIndex, groups :: states =>
    let (items, indices) := smallParseTable table
      (groups.foldl (fun n group => n + (2 + group.2.length)) (nextTableIndex + 1)) states
    (.designated nextTableIndex (groups.length % 2 ^ 16) ::
        groups.flatMap (fun group => (groupItems table group).map .next) ++ items,
      nextTableIndex :: indices)

def smallStates (table : ParseTable) : List (List ((Nat × SymbolType) × List Symbol)) :=
  (((table.states.zip (allIndices table).1).zipIdx).drop (largeStateCount table)).map fun e =>
    valuesWithSymbols e.2 e.1.1 e.1.2

/-- `small_state_indices`. -/
def smallStateIndices (table : ParseTable) : List Nat :=
  (smallParseTable table 0 (smallStates table)).2

/-! ### The tables -/

def largeRows (table : ParseTable) : List (List (Nat × Nat)) :=
  (((table.states.zip (allIndices table).1).zipIdx).take (largeStateCount table)).map fun e =>
    largeRow table e.2 e.1.1 e.1.2

def matrixAt (rowLength : Nat) (rows : List (List (Nat × Nat))) (index : Nat) : Nat :=
  ((rows[index / rowLength]?).map fun row =>
    arrayOf 0 (row.map fun e => .designated e.1 e.2) (index % rowLength)).getD 0

/-- `RenderError`: too many parse actions, or another version of the ABI. -/
inductive RenderError where
  | parseTable (count : Nat)
  | abi (version : Nat)

/-- `add_parse_table`, with the counts of `add_stats`: the language of the written arrays. -/
def addParseTable (internal : Nat → Bool) (table : ParseTable) : Except RenderError TSLanguage :=
  let lists := (allIndices table).2
  if lists.nextIndex ≥ 2 ^ 16 - 1 then .error (.parseTable lists.nextIndex)
  else
    .ok {
      symbolCount := table.symbols.length
      tokenCount := tokenCount internal table
      stateCount := table.states.length
      largeStateCount := largeStateCount table
      parseTable := matrixAt table.symbols.length (largeRows table)
      smallParseTable := arrayOf 0 (smallParseTable table 0 (smallStates table)).1
      smallParseTableMap := fun p => ((smallStateIndices table)[p]?).getD 0 % 2 ^ 32
      parseActions := arrayOf (.entry 0 false) (addParseActionList table
        ((lists.entries.entries.map fun e => (e.2, e.1)).insertionSort fun x y => x.1 ≤ y.1))
    }

end TreeSitter.Generate
