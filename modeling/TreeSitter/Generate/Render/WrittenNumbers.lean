import TreeSitter.Generate.Render.AliasMap
import TreeSitter.Generate.Render.LexState
import TreeSitter.Generate.Render.SupertypeMap
import TreeSitter.Library.Rows

/-!
# TreeSitter.Generate.Render.WrittenNumbers

The **numbers that `render_c_code` writes** and the C fields that hold them: ids of symbols, fields,
states, productions and lex states, the numbers of a parse action, the offsets of action lists, the
slices of the field and supertype maps, the counts of the alias map. They are the numbers as they
are printed, before C cuts them to the width of a field. Only the version of the ABI and the number
of parse actions are checked.

A reduce action is made for a **finished item** (`add_actions`), which casts two of its numbers to
16 bits.
-/

namespace TreeSitter.Generate

open Library Lib

/-! ### Fields of C -/

/-- The integer types of the fields. -/
inductive CType where
  | uint8
  | uint16
  | int16
deriving DecidableEq

/-- The numbers of a type. -/
def CType.Holds : CType → Int → Prop
  | uint8, n => 0 ≤ n ∧ n < 2 ^ 8
  | uint16, n => 0 ≤ n ∧ n < 2 ^ 16
  | int16, n => -2 ^ 15 ≤ n ∧ n < 2 ^ 15

instance : (type : CType) → (n : Int) → Decidable (type.Holds n)
  | .uint8, _ | .uint16, _ | .int16, _ => inferInstanceAs (Decidable (_ ∧ _))

/-- A number with the type of the field it is written to. -/
structure Written where
  type : CType
  value : Int
deriving DecidableEq

namespace Written

/-- The field holds the number. -/
def Fits (written : Written) : Prop := written.type.Holds written.value

instance (written : Written) : Decidable written.Fits :=
  inferInstanceAs (Decidable (written.type.Holds written.value))

/-- A number in a `uint8_t`. -/
def uint8 (n : Nat) : Written := ⟨.uint8, n⟩

/-- A number in a `uint16_t`. -/
def uint16 (n : Nat) : Written := ⟨.uint16, n⟩

/-- A number in an `int16_t`. -/
def int16 (n : Int) : Written := ⟨.int16, n⟩

@[simp] theorem fits_uint8 (n : Nat) : (uint8 n).Fits ↔ n < 2 ^ 8 := by
  simp only [Fits, uint8, CType.Holds]
  omega

@[simp] theorem fits_uint16 (n : Nat) : (uint16 n).Fits ↔ n < 2 ^ 16 := by
  simp only [Fits, uint16, CType.Holds]
  omega

@[simp] theorem fits_int16 (n : Int) : (int16 n).Fits ↔ -2 ^ 15 ≤ n ∧ n < 2 ^ 15 := Iff.rfl

end Written

/-! ### What is rendered -/

/-- `FieldLocation`. -/
structure FieldLocation where
  index : Nat
  inherited : Bool
deriving DecidableEq

/-- `field_map` of a production info, by the names of the fields. -/
abbrev FieldMap := List (String × List FieldLocation)

/-- A finished item, as `add_actions` reads it: all steps of its production are behind it. -/
structure FinishedItem where
  variableIndex : Nat
  stepIndex : Nat
  dynamicPrecedence : Int
  productionId : Nat

/-- The reduce action of `add_actions`. -/
def FinishedItem.action (item : FinishedItem) : ParseAction :=
  .reduce (.nonTerminal item.variableIndex) (item.stepIndex % 2 ^ 16) item.dynamicPrecedence
    (item.productionId % 2 ^ 16)

/-- The lists of actions that a parse table refers to; the first one is for symbols that are not
valid. -/
def ParseTable.referencedLists (table : ParseTable) : List ActionListId :=
  ⟨0, false⟩ :: table.states.flatMap fun state => state.terminalEntries.entries.map Prod.snd

def ParseTable.referencedActions (table : ParseTable) : List ParseAction :=
  table.referencedLists.flatMap table.actions

def ParseState.entryCount (state : ParseState) : Nat :=
  state.terminalEntries.entries.length + state.nonterminalEntries.entries.length

/-- What `render_c_code` gets, of the parts that the numbers come from. -/
structure RenderInput extends Generator where
  /-- The finished items whose actions are in the parse table. -/
  items : List FinishedItem
  fieldMaps : List FieldMap
  supertypes : List (Symbol × List ChildType)
  mainLexTable : LexTable
  keywordLexTable : LexTable
  hasWordToken : Bool
  largeCharacterSets : List CharacterSet
  /-- The productions of the grammar. -/
  store : ProductionStore
  maxAliasedProductionLength : Nat
  abiVersion : Nat
  /-- Reduce actions are those of `add_actions`. -/
  reduces : ∀ symbol childCount dynamicPrecedence productionId,
    .reduce symbol childCount dynamicPrecedence productionId ∈ table.referencedActions →
      ∃ item ∈ items, item.action = .reduce symbol childCount dynamicPrecedence productionId
  kept : ∀ item ∈ items, item.action ∈ table.referencedActions
  /-- `reorder_states_by_descending_size`. -/
  sorted : (table.states.drop 2).Pairwise fun state next => next.entryCount ≤ state.entryCount

/-! ### Symbols, fields and states -/

namespace RenderInput

variable (g : RenderInput)

/-- `add_symbol_enum`. -/
def addSymbolEnum : List Written := g.symbolEnum.zipIdx.tail.map fun e => .uint16 e.2

/-- Insert a name into `field_names`, unless it is there. -/
def insertFieldName (fieldNames : List String) (fieldName : String) : List String :=
  if fieldName ∈ fieldNames then fieldNames else fieldNames.orderedInsert (· ≤ ·) fieldName

/-- `field_names`. -/
def fieldNames : List String := (g.fieldMaps.flatMap (·.map Prod.fst)).foldl insertFieldName []

/-- `add_field_name_enum`. -/
def addFieldNameEnum : List Written := g.fieldNames.zipIdx.map fun e => .uint16 (e.2 + 1)

def fieldId (fieldName : String) : Nat := g.fieldNames.idxOf fieldName + 1

/-- `flat_field_map` of a production info. -/
def flatFieldMap (fieldMap : FieldMap) : List (String × FieldLocation) :=
  (fieldMap.flatMap fun e => e.2.map fun location => (e.1, location)).insertionSort
    fun x y => x.1 ≤ y.1

/-- The flat maps that have a slice of their own, with the empty one. -/
def flatFieldMaps : List (List (String × FieldLocation)) :=
  (g.fieldMaps.filter (· ≠ [])).map flatFieldMap

/-- `flat_field_maps` with the ids that `get_field_map_id` gives. -/
def fieldMapIds : List Nat × RowTable (String × FieldLocation) :=
  (((⟨[], 0⟩ : RowTable _).intern []).2).internAll g.flatFieldMaps

/-- `add_field_sequences`. -/
def addFieldSequences : List Written :=
  (((g.fieldMapIds.1.zip g.flatFieldMaps).filter fun e => 0 < e.2.length).flatMap fun e =>
      [.uint16 e.1, .uint16 e.2.length]) ++
    (g.fieldMapIds.2.rows.drop 1).flatMap fun row => row.2.flatMap fun e =>
      [.uint16 (g.fieldId e.1), .uint8 e.2.index]

/-- The counts in `add_non_terminal_alias_map`. -/
def addAliasCounts : List Written :=
  (g.aliasIdsBySymbol g.store).entries.map fun e => .uint16 (1 + e.2.length)

/-- `add_primary_state_id_list`: the first state with each core id. -/
def primaryStateIds : IndexMap Nat Nat → List (ParseState × Nat) → List Nat
  | _, [] => []
  | firstStates, (state, index) :: states =>
    let firstStates := firstStates.insertNew state.coreId index
    (firstStates.get? state.coreId).getD 0 :: primaryStateIds firstStates states

/-- `ABI_VERSION_MIN`. -/
def abiVersionMin : Nat := 14

/-- `ABI_VERSION_MAX`. -/
def abiVersionMax : Nat := 15

/-- `ABI_VERSION_WITH_RESERVED_WORDS`. -/
def abiVersionWithReservedWords : Nat := 15

/-- The slices of `add_supertype_map`, if there is one. -/
def addSupertypeSlices : List Written :=
  if abiVersionWithReservedWords ≤ g.abiVersion then
    (g.rows g.supertypes).flatMap fun row => [.uint16 row.2.1, .uint16 row.2.2.length]
  else []

/-! ### Lex states -/

/-- The numbers in a statement of a lex function: characters of `ADVANCE_MAP` and states. -/
def lexStmtNumbers : LexStmt → List Written
  | .advanceMap pairs => pairs.flatMap fun pair => [.uint16 pair.1, .uint16 pair.2]
  | .branch _ action => [.uint16 action.state]

/-- `add_lex_function`. -/
def addLexFunction (table : LexTable) : List Written :=
  table.states.flatMap fun state =>
    (lexStateCode g.largeCharacterSets state).flatMap lexStmtNumbers

/-- The lex functions: the one for keywords is written if there is a word token. -/
def addLexFunctions : List Written :=
  g.addLexFunction g.mainLexTable ++
    if g.hasWordToken then g.addLexFunction g.keywordLexTable else []

/-- `is_end_of_non_terminal_extra`. -/
def isEndOfNonTerminalExtra (state : ParseState) : Bool :=
  state.terminalEntries.keys.contains Symbol.endOfNonterminalExtra

/-- `reserved_word_sets`. -/
def reservedWordSets : List TokenSet :=
  firstOccurrences [∅] (g.table.states.map ParseState.reservedWords)

/-- `reserved_word_set_ids_by_parse_state`. -/
def reservedWordSetId (state : ParseState) : Nat := g.reservedWordSets.idxOf state.reservedWords

/-- `add_lex_modes`: the state at the end of a non-terminal extra has a mark instead. -/
def addLexModes : List Written :=
  g.table.states.flatMap fun state =>
    if isEndOfNonTerminalExtra state then []
    else .uint16 state.lexStateId ::
      (if state.externalLexStateId > 0 then [.uint16 state.externalLexStateId] else []) ++
        if abiVersionWithReservedWords ≤ g.abiVersion ∧ g.reservedWordSetId state ≠ 0 then
          [.uint16 (g.reservedWordSetId state)]
        else []

/-! ### Parse tables -/

/-- A row of `ts_parse_table`. -/
def largeRowNumbers (stateId : Nat) (state : ParseState) (indices : List (Symbol × Nat)) :
    List Written :=
  (sortedEntries symbolKey state.nonterminalEntries).map
      (fun e => .uint16 (gotoState stateId e.2)) ++
    indices.map fun e => .uint16 e.2

/-- A group in `ts_small_parse_table`. -/
def groupNumbers (group : (Nat × SymbolType) × List Symbol) : List Written :=
  .uint16 group.1.1 :: .uint16 group.2.length ::
    group.2.map fun symbol => .uint16 (symbolId g.table symbol)

/-- A state in `ts_small_parse_table`. -/
def smallStateNumbers (groups : List ((Nat × SymbolType) × List Symbol)) : List Written :=
  .uint16 groups.length :: groups.flatMap g.groupNumbers

def actionNumbers : ParseAction → List Written
  | .shift state _ => [.uint16 state]
  | .reduce symbol childCount dynamicPrecedence productionId =>
    [.uint16 (symbolId g.table symbol), .uint8 childCount, .int16 dynamicPrecedence,
      .uint16 productionId]
  | _ => []

/-- A list in `ts_parse_actions`. -/
def actionListNumbers (id : ActionListId) : List Written :=
  .uint8 (g.table.actions id).length :: (g.table.actions id).flatMap g.actionNumbers

/-- The states with the indices of their action lists and with their ids. -/
def indexedStates : List ((ParseState × List (Symbol × Nat)) × Nat) :=
  (g.table.states.zip (allIndices g.table).1).zipIdx

/-- `add_parse_table`. -/
def addParseTableNumbers : Except RenderError (List Written) :=
  let lists := (allIndices g.table).2
  if lists.nextIndex ≥ 2 ^ 16 - 1 then .error (.parseTable lists.nextIndex)
  else
    .ok ((g.indexedStates.take (largeStateCount g.table)).flatMap
        (fun e => largeRowNumbers e.2 e.1.1 e.1.2) ++
      (smallStates g.table).flatMap g.smallStateNumbers ++
      lists.entries.entries.flatMap fun e => g.actionListNumbers e.1)

/-- `add_parser_export`, of the fields with 16 bits. -/
def addParserExport : List Written :=
  .uint16 g.maxAliasedProductionLength ::
    if abiVersionWithReservedWords ≤ g.abiVersion then
      [.uint16 ((g.reservedWordSets.map Finset.card).foldr max 0)]
    else []

/-- `render_c_code`, of the numbers that are written. -/
def renderCCode : Except RenderError (List Written) :=
  if g.abiVersion < abiVersionMin ∨ abiVersionMax < g.abiVersion then .error (.abi g.abiVersion)
  else g.addParseTableNumbers.map fun parseTable =>
    g.addSymbolEnum ++ g.addFieldNameEnum ++ g.addFieldSequences ++ g.addAliasCounts ++
      (primaryStateIds .empty g.table.states.zipIdx).map .uint16 ++ g.addSupertypeSlices ++
        g.addLexFunctions ++ g.addLexModes ++ parseTable ++ g.addParserExport

end RenderInput

end TreeSitter.Generate
