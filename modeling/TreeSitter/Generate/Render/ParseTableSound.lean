import TreeSitter.Generate.BuildTables.MinimizeParseTableSound
import TreeSitter.Generate.Render.ParseTable

/-!
# TreeSitter.Generate.Render.ParseTableSound

**The written tables decode to the parse table.** A row of a large state and the groups of a small
state are both the same list of ids with values (`largeRow`), so a lookup is a lookup in that list
(`languageLookup_eq`). The index of an action list is where its header stands, since lists get
their indices in the order in which they are written (`LaidOut`).
-/

namespace TreeSitter.Generate

open List Library Lib

/-! ### Consistent ids -/

/-- The numbers of an action fit the fields they are written to. -/
def ParseAction.Fits (table : ParseTable) : ParseAction → Prop
  | .shift state _ => state < 2 ^ 16
  | .reduce symbol childCount dynamicPrecedence productionId =>
    symbol ∈ table.symbols ∧ childCount < 2 ^ 8 ∧
      (-(2 : Int) ^ 15 ≤ dynamicPrecedence ∧ dynamicPrecedence < 2 ^ 15) ∧ productionId < 2 ^ 16
  | _ => True

instance (table : ParseTable) : (action : ParseAction) → Decidable (action.Fits table)
  | .shift _ _ => inferInstanceAs (Decidable (_ < _))
  | .reduce _ _ _ _ => inferInstanceAs (Decidable (_ ∧ _ ∧ (_ ∧ _) ∧ _))
  | .accept | .shiftExtra | .recover => inferInstanceAs (Decidable True)

/-- A parse table with **consistent ids**: its symbols are those of its entries, tokens first, its
list ids are of the pool, no state has entries for both ends, and all numbers fit. -/
structure ConsistentIds (internal : Nat → Bool) (table : ParseTable) : Prop where
  symbols : ∃ tokens nonTerminals, table.symbols = Symbol.eof :: tokens ++ nonTerminals ∧
    (∀ s ∈ tokens, s.isTerminal ∨ s.isExternal ∧ internal s.index = false) ∧
    ∀ s ∈ nonTerminals, s.isNonTerminal
  nodup : table.symbols.Nodup
  terminals : ∀ state ∈ table.states, ∀ s ∈ state.terminalEntries.keys,
    s = Symbol.endOfNonterminalExtra ∨ s ∈ table.symbols ∧ ¬ s.isNonTerminal
  nonTerminals : ∀ state ∈ table.states, ∀ s ∈ state.nonterminalEntries.keys,
    s ∈ table.symbols ∧ s.isNonTerminal
  ends : ∀ state ∈ table.states, ¬ (Symbol.eof ∈ state.terminalEntries.keys ∧
    Symbol.endOfNonterminalExtra ∈ state.terminalEntries.keys)
  emptyList : table.actionLists[0]? = some []
  ids : ∀ state ∈ table.states, ∀ e ∈ state.terminalEntries.entries,
    e.2.index < table.actionLists.length
  symbolsFit : table.symbols.length ≤ builtinSymErrorRepeat
  statesFit : table.states.length ≤ 2 ^ 16
  gotosFit : ∀ state ∈ table.states, ∀ e ∈ state.nonterminalEntries.entries,
    gotoState 0 e.2 < 2 ^ 16
  actionsFit : ∀ actions ∈ table.actionLists, actions.length < 2 ^ 8 ∧
    ∀ action ∈ actions, action.Fits table
  indicesFit : ∀ index ∈ smallStateIndices table, index < 2 ^ 32

/-- What an action is for the runtime. -/
def encodeAction (table : ParseTable) : ParseAction → TSParseAction
  | .accept => .accept
  | .recover => .recover
  | .shiftExtra => .shift 0 true false
  | .shift state isRepetition => .shift state false isRepetition
  | .reduce symbol childCount dynamicPrecedence productionId =>
    .reduce childCount (symbolId table symbol) dynamicPrecedence productionId

/-! ### Symbol ids -/

section Symbols

variable {internal : Nat → Bool} {table : ParseTable}

variable {s : Symbol}

section

variable (h : ConsistentIds internal table)

include h

/-- **The id of a symbol is its position.** -/
theorem ConsistentIds.getElem?_symbolId
    (hs : s ∈ table.symbols) : table.symbols[symbolId table s]? = some s := by
  obtain ⟨tokens, nonTerminals, hsymbols, htokens, hnonTerminals⟩ := h.symbols
  refine getElem?_symbolId_of_eq hsymbols h.nodup ?_ hs
  rintro rfl
  rw [hsymbols, cons_append, mem_cons, mem_append] at hs
  rcases hs with hs | hs | hs
  · cases hs
  · rcases htokens _ hs with hs | hs
    · cases hs
    · cases hs.1
  · cases hnonTerminals _ hs

theorem ConsistentIds.symbolId_lt (hs : s ∈ table.symbols) :
    symbolId table s < table.symbols.length :=
  (List.getElem?_eq_some_iff.mp (h.getElem?_symbolId hs)).1

theorem ConsistentIds.symbolId_injective {s' : Symbol}
    (hs : s ∈ table.symbols) (hs' : s' ∈ table.symbols)
    (heq : symbolId table s = symbolId table s') : s = s' := by
  have hget := h.getElem?_symbolId hs
  rw [heq, h.getElem?_symbolId hs'] at hget
  exact (Option.some.inj hget).symm

theorem ConsistentIds.eof_mem : Symbol.eof ∈ table.symbols := by
  obtain ⟨tokens, nonTerminals, hsymbols, -, -⟩ := h.symbols
  rw [hsymbols]
  exact mem_cons_self

theorem ConsistentIds.symbolId_lt_tokenCount (hs : s ∈ table.symbols) :
    symbolId table s < tokenCount internal table ↔ ¬ s.isNonTerminal := by
  have hget := h.getElem?_symbolId hs
  obtain ⟨tokens, nonTerminals, hsymbols, htokens, hnonTerminals⟩ := h.symbols
  have htoken : ∀ s ∈ Symbol.eof :: tokens, (s.isTerminal || s.isEof ||
      (s.isExternal && !internal s.index)) = true ∧ ¬ s.isNonTerminal := by
    intro s hs
    rcases mem_cons.mp hs with rfl | hs
    · exact ⟨rfl, nofun⟩
    · obtain ⟨kind, index⟩ := s
      rcases htokens _ hs with hs | hs
      · cases kind <;> simp_all [Symbol.isTerminal, Symbol.isNonTerminal]
      · cases kind <;> simp_all [Symbol.isTerminal, Symbol.isNonTerminal, Symbol.isExternal]
  have hcount : tokenCount internal table = (Symbol.eof :: tokens).length := by
    rw [tokenCount, hsymbols, filter_append,
      filter_eq_self.mpr fun s hs => (htoken s hs).1, filter_eq_nil_iff.mpr,
      append_nil]
    rintro ⟨kind, index⟩ hs
    have hkind := hnonTerminals _ hs
    cases kind <;> simp_all [Symbol.isTerminal, Symbol.isNonTerminal, Symbol.isEof,
      Symbol.isExternal]
  rw [hcount]
  rw [hsymbols, getElem?_append] at hget
  split at hget
  · rename_i hlt
    exact ⟨fun _ => (htoken s (mem_of_getElem? hget)).2, fun _ => hlt⟩
  · rename_i hlt
    exact ⟨fun hlt' => absurd hlt' hlt,
      fun hno => absurd (hnonTerminals s (mem_of_getElem? hget)) hno⟩

end

theorem symbolId_endOfNonterminalExtra (table : ParseTable) :
    symbolId table Symbol.endOfNonterminalExtra = symbolId table Symbol.eof := by
  rw [symbolId, symbolId, if_pos rfl, if_neg (by decide)]

/-- The symbol of the table with the id of a terminal entry. -/
def endOf (s : Symbol) : Symbol := if s = Symbol.endOfNonterminalExtra then Symbol.eof else s

theorem symbolId_endOf (table : ParseTable) (s : Symbol) :
    symbolId table (endOf s) = symbolId table s := by
  rw [endOf]
  split
  · rename_i hs
    rw [hs, symbolId_endOfNonterminalExtra]
  · rfl

variable {state : ParseState}

theorem ConsistentIds.endOf_mem (h : ConsistentIds internal table) (hstate : state ∈ table.states)
    (hs : s ∈ state.terminalEntries.keys) :
    endOf s ∈ table.symbols ∧ ¬ (endOf s).isNonTerminal := by
  rcases h.terminals state hstate s hs with rfl | hmem
  · rw [endOf, if_pos rfl]
    exact ⟨h.eof_mem, nofun⟩
  · rw [endOf]
    split
    · exact ⟨h.eof_mem, nofun⟩
    · exact hmem

theorem ConsistentIds.symbolId_terminal_injective (h : ConsistentIds internal table)
    (hstate : state ∈ table.states) {s' : Symbol} (hs : s ∈ state.terminalEntries.keys)
    (hs' : s' ∈ state.terminalEntries.keys) (heq : symbolId table s = symbolId table s') :
    s = s' := by
  have hends := h.ends state hstate
  rw [← symbolId_endOf table s, ← symbolId_endOf table s'] at heq
  have heq' := h.symbolId_injective (h.endOf_mem hstate hs).1 (h.endOf_mem hstate hs').1 heq
  rw [endOf, endOf] at heq'
  split at heq' <;> split at heq'
  · rename_i hs hs'
    exact hs.trans hs'.symm
  · rename_i hextra _
    exact absurd ⟨heq' ▸ hs', hextra ▸ hs⟩ hends
  · rename_i hextra
    exact absurd ⟨heq' ▸ hs, hextra ▸ hs'⟩ hends
  · exact heq'

end Symbols

/-! ### Action lists -/

section Actions

variable {table : ParseTable}

/-- The lists stand one behind the other, each with its header, between two indices. -/
def LaidOut (table : ParseTable) : Nat → List (ActionListId × Nat) → Nat → Prop
  | first, [], last => first = last
  | first, e :: es, last =>
    e.2 = first ∧ LaidOut table (first + (1 + (table.actions e.1).length)) es last

variable {es : List (ActionListId × Nat)} {id : ActionListId} {last : Nat}

theorem LaidOut.append :
    ∀ {first : Nat}, LaidOut table first es last →
      LaidOut table first (es ++ [(id, last)]) (last + (1 + (table.actions id).length)) := by
  induction es with
  | nil =>
    intro first h
    cases h
    exact ⟨rfl, rfl⟩
  | cons e es ih => exact fun h => ⟨h.1, ih h.2⟩

theorem LaidOut.bounds : ∀ {first : Nat},
    LaidOut table first es last → ∀ e ∈ es, first ≤ e.2 ∧ e.2 < last := by
  induction es with
  | nil => exact fun _ _ he => nomatch he
  | cons e es ih =>
    intro first h e' he'
    have hle : first + (1 + (table.actions e.1).length) ≤ last := by
      cases es with
      | nil => exact Nat.le_of_eq h.2
      | cons e'' es =>
        have hbounds := ih h.2 e'' mem_cons_self
        omega
    rcases mem_cons.mp he' with rfl | he'
    · have heq := h.1
      omega
    · have hbounds := ih h.2 e' he'
      omega

theorem LaidOut.pairwise : ∀ {first : Nat},
    LaidOut table first es last → (es.map fun e => (e.2, e.1)).Pairwise fun x y => x.1 ≤ y.1 := by
  induction es with
  | nil => exact fun _ => .nil
  | cons e es ih =>
    intro first h
    rw [map_cons, pairwise_cons]
    refine ⟨?_, ih h.2⟩
    intro x hx
    obtain ⟨e', he', rfl⟩ := mem_map.mp hx
    have hbounds := h.2.bounds e' he'
    have heq := h.1
    show e.2 ≤ e'.2
    omega

def actionBlock (table : ParseTable) (id : ActionListId) : List TSParseActionEntry :=
  .entry ((table.actions id).length % 2 ^ 8) id.reusable ::
    (table.actions id).map fun action => .action (renderAction table action)

theorem length_actionBlock (id : ActionListId) :
    (actionBlock table id).length = 1 + (table.actions id).length := by
  rw [actionBlock, length_cons, length_map, Nat.add_comm]

def actionItems (table : ParseTable) (e : Nat × ActionListId) :
    List (InitItem TSParseActionEntry) :=
  .designated e.1 (.entry ((table.actions e.2).length % 2 ^ 8) e.2.reusable) ::
    (table.actions e.2).map fun action => .next (.action (renderAction table action))

theorem map_value_actionItems (e : Nat × ActionListId) :
    (actionItems table e).map InitItem.value = actionBlock table e.2 := by
  rw [actionItems, actionBlock, map_cons, map_map]
  rfl

theorem addParseActionList_cons (e : Nat × ActionListId) (es : List (Nat × ActionListId)) :
    addParseActionList table (e :: es) = actionItems table e ++ addParseActionList table es :=
  rfl

theorem LaidOut.inOrder : ∀ {first : Nat},
    LaidOut table first es last →
      InOrder first (addParseActionList table (es.map fun e => (e.2, e.1))) := by
  induction es with
  | nil => exact fun _ => trivial
  | cons e es ih =>
    intro first h
    rw [map_cons, addParseActionList_cons]
    refine inOrder_append ⟨h.1, ?_⟩ ?_
    · have hnext := inOrder_next ((table.actions e.1).map fun action =>
        TSParseActionEntry.action (renderAction table action)) (first + 1)
      rwa [map_map] at hnext
    · have hlength : (actionItems table (e.2, e.1)).length = 1 + (table.actions e.1).length := by
        rw [← length_actionBlock, ← map_value_actionItems (e.2, e.1), length_map]
      rw [hlength]
      exact ih h.2

/-- **A list stands at its index.** -/
theorem LaidOut.readsAt {array : Nat → TSParseActionEntry} :
    ∀ {first : Nat}, LaidOut table first es last →
      ReadsAt array first
        ((addParseActionList table (es.map fun e => (e.2, e.1))).map InitItem.value) →
      ∀ e ∈ es, ReadsAt array e.2 (actionBlock table e.1) := by
  induction es with
  | nil => exact fun _ _ _ he => nomatch he
  | cons e es ih =>
    intro first h hreads e' he'
    rw [map_cons, addParseActionList_cons, map_append, map_value_actionItems,
      readsAt_append, length_actionBlock] at hreads
    rcases mem_cons.mp he' with rfl | he'
    · rw [h.1]
      exact hreads.1
    · exact ih h.2 hreads.2 e' he'

/-- Lists with their indices, as far as they have been asked for. -/
def ParseActionLists.Valid (table : ParseTable) (lists : ParseActionLists) : Prop :=
  LaidOut table 0 lists.entries.entries lists.nextIndex

/-- Later lists have all the indices of earlier ones. -/
def ParseActionLists.Le (lists lists' : ParseActionLists) : Prop :=
  ∀ id index, lists.entries.get? id = some index → lists'.entries.get? id = some index

theorem getParseActionListId_spec {lists : ParseActionLists} (h : lists.Valid table)
    (id : ActionListId) :
    (getParseActionListId table lists id).2.Valid table ∧
      lists.Le (getParseActionListId table lists id).2 ∧
      (getParseActionListId table lists id).2.entries.get? id =
        some (getParseActionListId table lists id).1 := by
  rw [getParseActionListId]
  split
  · rename_i index hindex
    exact ⟨h, fun _ _ hget => hget, hindex⟩
  · rename_i hnone
    refine ⟨?_, ?_, ?_⟩
    · have hentries : (lists.entries.insert id lists.nextIndex).entries =
          lists.entries.entries ++ [(id, lists.nextIndex)] :=
        insertEntry_of_lookupEntry_eq_none hnone
      show LaidOut table 0 (lists.entries.insert id lists.nextIndex).entries _
      rw [hentries]
      exact LaidOut.append h
    · intro id' index hget
      have hne : id ≠ id' := by
        rintro rfl
        rw [hnone] at hget
        cases hget
      show (lists.entries.insert id lists.nextIndex).get? id' = some index
      rw [IndexMap.get?_insert, if_neg hne, hget]
    · show (lists.entries.insert id lists.nextIndex).get? id = some lists.nextIndex
      rw [IndexMap.get?_insert, if_pos rfl]

def AreIndices (lists : ParseActionLists) (entries : List (Symbol × ActionListId))
    (indices : List (Symbol × Nat)) : Prop :=
  List.Forall₂ (fun e i => i.1 = e.1 ∧ lists.entries.get? e.2 = some i.2) entries indices

theorem AreIndices.mono {lists lists' : ParseActionLists} {entries : List (Symbol × ActionListId)}
    {indices : List (Symbol × Nat)} (h : AreIndices lists entries indices)
    (hle : lists.Le lists') : AreIndices lists' entries indices :=
  h.imp fun _ _ he => ⟨he.1, hle _ _ he.2⟩

theorem terminalIndices_spec {entries : List (Symbol × ActionListId)} :
    ∀ {lists : ParseActionLists}, lists.Valid table →
      (terminalIndices table lists entries).2.Valid table ∧
      lists.Le (terminalIndices table lists entries).2 ∧
      AreIndices (terminalIndices table lists entries).2 entries
        (terminalIndices table lists entries).1 := by
  induction entries with
  | nil => exact fun h => ⟨h, fun _ _ hget => hget, .nil⟩
  | cons e entries ih =>
    intro lists h
    obtain ⟨hvalid, hle, hget⟩ := getParseActionListId_spec h e.2
    obtain ⟨hvalid', hle', hindices⟩ := ih hvalid
    exact ⟨hvalid', fun id index hid => hle' id index (hle id index hid),
      .cons ⟨rfl, hle' _ _ hget⟩ hindices⟩

theorem stateIndices_spec {states : List ParseState} :
    ∀ {lists : ParseActionLists}, lists.Valid table →
      (stateIndices table lists states).2.Valid table ∧
      lists.Le (stateIndices table lists states).2 ∧
      List.Forall₂ (fun state indices => AreIndices (stateIndices table lists states).2
        (sortedTerminals table state) indices) states (stateIndices table lists states).1 := by
  induction states with
  | nil => exact fun h => ⟨h, fun _ _ hget => hget, .nil⟩
  | cons state states ih =>
    intro lists h
    obtain ⟨hvalid, hle, hindices⟩ := @terminalIndices_spec table (sortedTerminals table state) _ h
    obtain ⟨hvalid', hle', hrest⟩ := ih hvalid
    exact ⟨hvalid', fun id index hid => hle' id index (hle id index hid),
      .cons (hindices.mono hle') hrest⟩

/-- **What `add_parse_table` asks for.** The list for symbols that are not valid is at index 0. -/
theorem allIndices_spec (table : ParseTable) :
    (allIndices table).2.Valid table ∧
      (allIndices table).2.entries.get? ⟨0, false⟩ = some 0 ∧
      List.Forall₂ (fun state indices => AreIndices (allIndices table).2
        (sortedTerminals table state) indices) table.states (allIndices table).1 := by
  have hempty : ParseActionLists.Valid table ⟨.empty, 0⟩ := rfl
  obtain ⟨hvalid, -, hget⟩ := getParseActionListId_spec hempty ⟨0, false⟩
  obtain ⟨hvalid', hle, hindices⟩ := @stateIndices_spec table table.states _ hvalid
  exact ⟨hvalid', hle _ _ hget, hindices⟩

theorem readsAt_parseActions (table : ParseTable) {index : Nat}
    (hget : (allIndices table).2.entries.get? id = some index) :
    ReadsAt (arrayOf (.entry 0 false) (addParseActionList table
      (((allIndices table).2.entries.entries.map fun e => (e.2, e.1)).insertionSort
        fun x y => x.1 ≤ y.1))) index (actionBlock table id) := by
  have hvalid : LaidOut table 0 _ _ := (allIndices_spec table).1
  rw [List.Pairwise.insertionSort_eq hvalid.pairwise]
  exact hvalid.readsAt (readsAt_arrayOf hvalid.inOrder) _ (lookupEntry_eq_some hget)

variable {internal : Nat → Bool}

theorem ConsistentIds.renderAction_eq (h : ConsistentIds internal table) {action : ParseAction}
    (hfits : action.Fits table) : renderAction table action = encodeAction table action := by
  cases action with
  | accept | recover | shiftExtra => rfl
  | shift state isRepetition =>
    rw [renderAction, encodeAction, Nat.mod_eq_of_lt hfits]
  | reduce symbol childCount dynamicPrecedence productionId =>
    obtain ⟨hsymbol, hcount, ⟨hlow, hhigh⟩, hproduction⟩ := hfits
    have hid : symbolId table symbol < 2 ^ 16 := by
      have hlt := h.symbolId_lt hsymbol
      have hfit := h.symbolsFit
      rw [builtinSymErrorRepeat, builtinSymError] at hfit
      omega
    have hprec : dynamicPrecedence.bmod (2 ^ 16) = dynamicPrecedence :=
      Int.bmod_eq_of_le (by norm_num; omega) (by norm_num; omega)
    rw [renderAction, encodeAction, Nat.mod_eq_of_lt hcount, Nat.mod_eq_of_lt hid,
      Nat.mod_eq_of_lt hproduction, hprec]

theorem ConsistentIds.actionBlock_eq (h : ConsistentIds internal table)
    (hid : id.index < table.actionLists.length) :
    actionBlock table id = .entry (table.actions id).length id.reusable ::
      (table.actions id).map fun action => .action (encodeAction table action) := by
  have hmem : table.actions id ∈ table.actionLists := by
    rw [ParseTable.actions, getD_eq_getElem _ _ hid]
    exact getElem_mem hid
  obtain ⟨hlength, hfits⟩ := h.actionsFit _ hmem
  rw [actionBlock, Nat.mod_eq_of_lt hlength]
  congr 1
  refine map_congr_left fun action haction => ?_
  rw [h.renderAction_eq (hfits action haction)]

/-- The entry that an id of the pool stands for. -/
def encodeEntry (table : ParseTable) (id : ActionListId) : TableEntry :=
  ⟨(table.actions id).map fun action => .action (encodeAction table action), id.reusable⟩

theorem ConsistentIds.languageTableEntry_eq (h : ConsistentIds internal table)
    {language : TSLanguage} (hok : addParseTable internal table = .ok language)
    (hid : id.index < table.actionLists.length) {i n index : Nat}
    (hget : (allIndices table).2.entries.get? id = some index)
    (hlookup : languageLookup language i n = index) (hn : n < table.symbols.length) :
    languageTableEntry language i n = encodeEntry table id := by
  have hfit := h.symbolsFit
  have hne : ¬ (n = builtinSymError ∨ n = builtinSymErrorRepeat) := by
    rw [builtinSymErrorRepeat] at *
    rw [builtinSymError] at *
    omega
  have hreads := readsAt_parseActions table hget
  rw [h.actionBlock_eq hid, readsAt_cons] at hreads
  rw [addParseTable] at hok
  split at hok
  · cases hok
  · cases hok
    rw [languageTableEntry, if_neg hne]
    dsimp only
    rw [hlookup, hreads.1]
    dsimp only
    have hrange := hreads.2.map_range
    rw [length_map] at hrange
    rw [hrange, encodeEntry]

end Actions

/-! ### Rows -/

section Rows

variable {internal : Nat → Bool} {table : ParseTable} {state : ParseState} {i : Nat}
  {lists : ParseActionLists} {indices : List (Symbol × Nat)}

theorem AreIndices.map_fst {entries : List (Symbol × ActionListId)}
    (h : AreIndices lists entries indices) : indices.map Prod.fst = entries.map Prod.fst := by
  induction h with
  | nil => rfl
  | cons he _ ih => rw [map_cons, map_cons, he.1, ih]

theorem AreIndices.mem_iff {entries : List (Symbol × ActionListId)}
    (h : AreIndices lists entries indices) {s : Symbol} {index : Nat} :
    (s, index) ∈ indices ↔ ∃ id, (s, id) ∈ entries ∧ lists.entries.get? id = some index := by
  induction h with
  | nil => exact ⟨nofun, fun hex => by obtain ⟨id, hid, -⟩ := hex; cases hid⟩
  | @cons e i entries indices he _ ih =>
    constructor
    · intro hmem
      rcases mem_cons.mp hmem with hmem | hmem
      · subst hmem
        exact ⟨e.2, mem_cons.mpr (.inl (Prod.ext he.1 rfl)), he.2⟩
      · obtain ⟨id, hid, hget⟩ := ih.mp hmem
        exact ⟨id, mem_cons_of_mem _ hid, hget⟩
    · intro hex
      obtain ⟨id, hid, hget⟩ := hex
      rcases mem_cons.mp hid with hid | hid
      · subst hid
        have hindex : i.2 = index := Option.some.inj (he.2.symm.trans hget)
        exact mem_cons.mpr (.inl (Prod.ext he.1.symm hindex.symm))
      · exact mem_cons_of_mem _ (ih.mpr ⟨id, hid, hget⟩)

theorem sortedEntries_keys_perm {ν κ : Type} [LinearOrder κ] (key : Symbol → κ)
    (m : IndexMap Symbol ν) : ((sortedEntries key m).map Prod.fst).Perm m.keys :=
  (perm_insertionSort _ _).map _

theorem AreIndices.keys_perm (h : AreIndices lists (sortedTerminals table state) indices) :
    (indices.map Prod.fst).Perm state.terminalEntries.keys := by
  rw [h.map_fst]
  exact sortedEntries_keys_perm _ _

theorem mem_keys_iff {κ ν : Type} [DecidableEq κ] {m : IndexMap κ ν} {k : κ} :
    k ∈ m.keys ↔ ∃ v, m.get? k = some v := by
  rw [IndexMap.keys, mem_map]
  constructor
  · rintro ⟨⟨k, v⟩, he, rfl⟩
    exact ⟨v, IndexMap.mem_entries_iff.mp he⟩
  · rintro ⟨v, hv⟩
    exact ⟨(k, v), IndexMap.mem_entries_iff.mpr hv, rfl⟩

theorem map_fst_largeRow :
    (largeRow table i state indices).map Prod.fst =
      ((sortedEntries symbolKey state.nonterminalEntries).map Prod.fst).map (symbolId table) ++
        (indices.map Prod.fst).map (symbolId table) := by
  simp only [largeRow, map_append, map_map, Function.comp_def]

theorem ConsistentIds.largeRow_ids (h : ConsistentIds internal table)
    (hstate : state ∈ table.states)
    (hindices : AreIndices lists (sortedTerminals table state) indices) (i : Nat) :
    ((largeRow table i state indices).map Prod.fst).Nodup ∧
      ∀ n ∈ (largeRow table i state indices).map Prod.fst, n < table.symbols.length := by
  have hgotos := sortedEntries_keys_perm symbolKey state.nonterminalEntries
  have hterminals := hindices.keys_perm
  rw [map_fst_largeRow]
  constructor
  · refine List.Nodup.append ?_ ?_ ?_
    · refine List.Nodup.map_on ?_ (hgotos.nodup_iff.mpr state.nonterminalEntries.nodup)
      intro s hs s' hs' heq
      exact h.symbolId_injective (h.nonTerminals state hstate s (hgotos.mem_iff.mp hs)).1
        (h.nonTerminals state hstate s' (hgotos.mem_iff.mp hs')).1 heq
    · refine List.Nodup.map_on ?_ (hterminals.nodup_iff.mpr state.terminalEntries.nodup)
      intro s hs s' hs' heq
      exact h.symbolId_terminal_injective hstate (hterminals.mem_iff.mp hs)
        (hterminals.mem_iff.mp hs') heq
    · intro n hn hn'
      obtain ⟨s, hs, rfl⟩ := mem_map.mp hn
      obtain ⟨s', hs', heq⟩ := mem_map.mp hn'
      obtain ⟨hmem, hkind⟩ := h.nonTerminals state hstate s (hgotos.mem_iff.mp hs)
      obtain ⟨hmem', hkind'⟩ := h.endOf_mem hstate (hterminals.mem_iff.mp hs')
      rw [← symbolId_endOf] at heq
      exact hkind' (h.symbolId_injective hmem' hmem heq ▸ hkind)
  · intro n hn
    rw [mem_append] at hn
    rcases hn with hn | hn
    · obtain ⟨s, hs, rfl⟩ := mem_map.mp hn
      exact h.symbolId_lt (h.nonTerminals state hstate s (hgotos.mem_iff.mp hs)).1
    · obtain ⟨s, hs, rfl⟩ := mem_map.mp hn
      rw [← symbolId_endOf]
      exact h.symbolId_lt (h.endOf_mem hstate (hterminals.mem_iff.mp hs)).1

theorem ConsistentIds.length_largeRow_le (h : ConsistentIds internal table)
    (hstate : state ∈ table.states)
    (hindices : AreIndices lists (sortedTerminals table state) indices) (i : Nat) :
    (largeRow table i state indices).length ≤ table.symbols.length := by
  obtain ⟨hnodup, hlt⟩ := h.largeRow_ids hstate hindices i
  have hsub : (largeRow table i state indices).map Prod.fst ⊆ List.range table.symbols.length :=
    fun n hn => mem_range.mpr (hlt n hn)
  have hle := (hnodup.subperm hsub).length_le
  rwa [length_map, length_range] at hle

/-- **The groups of a small state have the entries of its row.** -/
theorem mem_largeRow_iff {n v : Nat} :
    (n, v) ∈ largeRow table i state indices ↔
      ∃ e ∈ smallEntries i state indices, symbolId table e.1 = n ∧ e.2.1 % 2 ^ 16 = v := by
  simp only [largeRow, smallEntries, mem_append, mem_map, Prod.mk.injEq, sortedEntries,
    mem_insertionSort]
  constructor
  · rintro (⟨e, he, h⟩ | ⟨e, he, h⟩)
    · exact ⟨_, .inr ⟨e, he, rfl⟩, h⟩
    · exact ⟨_, .inl ⟨e, he, rfl⟩, h⟩
  · rintro ⟨_, ⟨e, he, rfl⟩ | ⟨e, he, rfl⟩, h⟩
    · exact .inr ⟨e, he, h⟩
    · exact .inl ⟨e, he, h⟩

theorem length_smallEntries :
    (smallEntries i state indices).length = (largeRow table i state indices).length := by
  rw [smallEntries, largeRow, length_append, length_append, length_map,
    length_map, length_map, length_map, sortedEntries, length_insertionSort,
    Nat.add_comm]

end Rows

/-! ### Groups -/

section Groups

variable {table : ParseTable} {state : ParseState} {i : Nat} {indices : List (Symbol × Nat)}

/-- A map has the symbols of some entries by their values. -/
structure GroupsOf (m : IndexMap (Nat × SymbolType) (List Symbol))
    (entries : List (Symbol × (Nat × SymbolType))) : Prop where
  mem_iff : ∀ key symbols, m.get? key = some symbols → ∀ s, s ∈ symbols ↔ (s, key) ∈ entries
  exists_group : ∀ e ∈ entries, ∃ symbols, m.get? e.2 = some symbols
  length_le : m.entries.length ≤ entries.length
  group_length_le : ∀ key symbols, m.get? key = some symbols → symbols.length ≤ entries.length

theorem length_insert_le {κ ν : Type} [DecidableEq κ] (m : IndexMap κ ν) (k : κ) (v : ν) :
    (m.insert k v).entries.length ≤ m.entries.length + 1 := by
  have hkeys := congrArg List.length (map_fst_insertEntry k v m.entries)
  rw [length_map] at hkeys
  show (insertEntry k v m.entries).length ≤ _
  rw [hkeys]
  split <;> simp

theorem GroupsOf.push {m : IndexMap (Nat × SymbolType) (List Symbol)}
    {entries : List (Symbol × (Nat × SymbolType))} (h : GroupsOf m entries)
    (e : Symbol × (Nat × SymbolType)) : GroupsOf (pushSymbol m e) (entries ++ [e]) := by
  have hget : ∀ key, (pushSymbol m e).get? key =
      if e.2 = key then some ((m.get? e.2).getD [] ++ [e.1]) else m.get? key :=
    fun key => IndexMap.get?_insert _ _ _ _
  have hold : ∀ s, s ∈ (m.get? e.2).getD [] ↔ (s, e.2) ∈ entries := by
    intro s
    cases hm : m.get? e.2 with
    | some symbols => exact h.mem_iff _ _ hm s
    | none =>
      refine ⟨nofun, fun hmem => ?_⟩
      obtain ⟨symbols, hsymbols⟩ := h.exists_group _ hmem
      rw [hm] at hsymbols
      cases hsymbols
  constructor
  · intro key symbols hkey s
    rw [hget] at hkey
    split at hkey
    · rename_i heq
      cases hkey
      rw [mem_append, hold, mem_append, mem_singleton, mem_singleton, heq,
        Prod.ext_iff]
      exact or_congr_right ⟨fun hs => ⟨hs, heq.symm⟩, And.left⟩
    · rename_i hne
      rw [h.mem_iff key symbols hkey, mem_append, mem_singleton]
      exact ⟨.inl, fun hs => hs.resolve_right fun heq => hne (heq ▸ rfl)⟩
  · intro e' he'
    rw [hget]
    split
    · exact ⟨_, rfl⟩
    · rename_i hne
      rcases mem_append.mp he' with he' | he'
      · exact h.exists_group e' he'
      · exact absurd (mem_singleton.mp he' ▸ rfl) hne
  · rw [length_append, length_singleton]
    exact (length_insert_le _ _ _).trans (Nat.succ_le_succ h.length_le)
  · intro key symbols hkey
    rw [hget] at hkey
    rw [length_append, length_singleton]
    split at hkey
    · cases hkey
      rw [length_append, length_singleton]
      refine Nat.succ_le_succ ?_
      cases hm : m.get? e.2 with
      | some symbols => exact h.group_length_le _ _ hm
      | none => exact Nat.zero_le _
    · exact (h.group_length_le key symbols hkey).trans (Nat.le_succ _)

theorem groupsOf_foldl (entries : List (Symbol × (Nat × SymbolType))) :
    GroupsOf (entries.foldl pushSymbol .empty) entries := by
  induction entries using List.reverseRecOn with
  | nil => exact ⟨nofun, nofun, Nat.le_refl _, nofun⟩
  | append_singleton entries e ih =>
    rw [foldl_append]
    exact ih.push e

theorem valuesWithSymbols_spec :
    (∀ group ∈ valuesWithSymbols i state indices, ∀ s,
      s ∈ group.2 ↔ (s, group.1) ∈ smallEntries i state indices) ∧
    (∀ e ∈ smallEntries i state indices, ∃ group ∈ valuesWithSymbols i state indices,
      group.1 = e.2 ∧ e.1 ∈ group.2) ∧
    (valuesWithSymbols i state indices).length ≤ (smallEntries i state indices).length ∧
    ∀ group ∈ valuesWithSymbols i state indices,
      group.2.length ≤ (smallEntries i state indices).length := by
  have hgroups := groupsOf_foldl (smallEntries i state indices)
  have hmem : ∀ group, group ∈ valuesWithSymbols i state indices ↔
      ((smallEntries i state indices).foldl pushSymbol .empty).get? group.1 =
        some group.2 := by
    intro group
    rw [valuesWithSymbols, mem_insertionSort]
    exact IndexMap.mem_entries_iff
  refine ⟨?_, ?_, ?_, ?_⟩
  · intro group hgroup
    exact hgroups.mem_iff _ _ ((hmem group).mp hgroup)
  · intro e he
    obtain ⟨symbols, hsymbols⟩ := hgroups.exists_group e he
    exact ⟨(e.2, symbols), (hmem _).mpr hsymbols, rfl, (hgroups.mem_iff _ _ hsymbols _).mpr he⟩
  · rw [valuesWithSymbols, length_insertionSort]
    exact hgroups.length_le
  · intro group hgroup
    exact hgroups.group_length_le _ _ ((hmem group).mp hgroup)

theorem length_groupItems (group : (Nat × SymbolType) × List Symbol) :
    (groupItems table group).length = 2 + group.2.length := by
  rw [groupItems, length_cons, length_cons, length_map, length_insertionSort]
  omega

theorem foldl_groupLength (groups : List ((Nat × SymbolType) × List Symbol)) : ∀ n : Nat,
    groups.foldl (fun n group => n + (2 + group.2.length)) n =
      n + (groups.flatMap (groupItems table)).length := by
  induction groups with
  | nil => exact fun n => rfl
  | cons group groups ih =>
    intro n
    rw [foldl_cons, ih, flatMap_cons, length_append, length_groupItems,
      Nat.add_assoc]

/-- What is written for a small state. -/
def stateItems (table : ParseTable) (groups : List ((Nat × SymbolType) × List Symbol)) :
    List Nat :=
  groups.length % 2 ^ 16 :: groups.flatMap (groupItems table)

theorem smallParseTable_cons (next : Nat) (groups : List ((Nat × SymbolType) × List Symbol))
    (states : List (List ((Nat × SymbolType) × List Symbol))) :
    smallParseTable table next (groups :: states) =
      ((.designated next (groups.length % 2 ^ 16) ::
          (groups.flatMap (groupItems table)).map .next) ++
        (smallParseTable table (next + (stateItems table groups).length) states).1,
        next :: (smallParseTable table (next + (stateItems table groups).length) states).2) := by
  rw [smallParseTable, @foldl_groupLength table, stateItems, length_cons, map_flatMap,
    Nat.add_assoc, Nat.add_comm 1]

theorem smallParseTable_inOrder {states : List (List ((Nat × SymbolType) × List Symbol))} :
    ∀ {next : Nat}, InOrder next (smallParseTable table next states).1 := by
  induction states with
  | nil => exact trivial
  | cons groups states ih =>
    intro next
    rw [smallParseTable_cons]
    refine inOrder_append ⟨rfl, inOrder_next _ _⟩ ?_
    rw [length_cons, length_map]
    exact ih

/-- **The groups of a small state stand at its index.** -/
theorem smallParseTable_readsAt {array : Nat → Nat}
    {states : List (List ((Nat × SymbolType) × List Symbol))} : ∀ {next : Nat},
      ReadsAt array next ((smallParseTable table next states).1.map InitItem.value) →
      ∀ (k : Nat) groups, states[k]? = some groups →
        ∃ index, (smallParseTable table next states).2[k]? = some index ∧
          ReadsAt array index (stateItems table groups) := by
  induction states with
  | nil => exact fun _ _ _ hk => nomatch hk
  | cons groups states ih =>
    intro next hreads k groups' hk
    have hvalues : (InitItem.designated next (groups.length % 2 ^ 16) ::
        (groups.flatMap (groupItems table)).map .next).map InitItem.value =
          stateItems table groups := by
      rw [map_cons, map_map]
      exact congrArg _ (map_id _)
    rw [smallParseTable_cons, map_append, hvalues, readsAt_append] at hreads
    rw [smallParseTable_cons]
    cases k with
    | zero =>
      cases hk
      exact ⟨next, rfl, hreads.1⟩
    | succ k => exact ih hreads.2 k groups' hk

/-- **The loop over the groups of a state** finds the first group with the symbol. -/
theorem lookupGroups_eq {array : Nat → Nat} {n : Nat}
    {groups : List ((Nat × SymbolType) × List Symbol)} : ∀ {data : Nat},
      (∀ group ∈ groups, group.2.length < 2 ^ 16) →
      ReadsAt array data (groups.flatMap (groupItems table)) →
      lookupGroups array n groups.length data =
        ((groups.find? fun group => group.2.any fun s => symbolId table s % 2 ^ 16 = n).map
          fun group => group.1.1 % 2 ^ 16).getD 0 := by
  induction groups with
  | nil => exact fun _ _ => rfl
  | cons group groups ih =>
    intro data hlength hreads
    rw [flatMap_cons, readsAt_append, length_groupItems] at hreads
    obtain ⟨hgroup, hrest⟩ := hreads
    rw [groupItems, readsAt_cons, readsAt_cons] at hgroup
    obtain ⟨hvalue, hcount, hsymbols⟩ := hgroup
    rw [Nat.mod_eq_of_lt (hlength group mem_cons_self)] at hcount
    have hany := hsymbols.any_range n
    rw [length_map, length_insertionSort] at hany
    have hfound : decide (n ∈ (group.2.insertionSort fun x y => symbolKey x ≤ symbolKey y).map
        fun symbol => symbolId table symbol % 2 ^ 16) =
          group.2.any fun s => symbolId table s % 2 ^ 16 = n := by
      rw [Bool.eq_iff_iff, decide_eq_true_eq, mem_map, any_eq_true]
      simp only [mem_insertionSort, decide_eq_true_eq]
    rw [length_cons, lookupGroups, hvalue, hcount, find?_cons, hany, hfound]
    cases group.2.any fun s => decide (symbolId table s % 2 ^ 16 = n) with
    | true => rfl
    | false =>
      rw [Nat.add_assoc, ih (fun g hg => hlength g (mem_cons_of_mem _ hg)) hrest]
      rfl

end Groups

/-! ### Lookups -/

section Lookups

variable {internal : Nat → Bool} {table : ParseTable} {language : TSLanguage} {state : ParseState}
  {i : Nat}

theorem exists_stateIndices (hstate : table.states[i]? = some state) :
    ∃ indices, (allIndices table).1[i]? = some indices ∧
      AreIndices (allIndices table).2 (sortedTerminals table state) indices := by
  obtain ⟨-, -, hindices⟩ := allIndices_spec table
  have hlt := (List.getElem?_eq_some_iff.mp hstate).1
  have hlt' : i < (allIndices table).1.length := hindices.length_eq ▸ hlt
  refine ⟨(allIndices table).1[i], getElem?_eq_getElem hlt', ?_⟩
  have hget := hindices.get hlt hlt'
  have heq : table.states.get ⟨i, hlt⟩ = state := (List.getElem?_eq_some_iff.mp hstate).2
  rw [heq] at hget
  exact hget

variable {indices : List (Symbol × Nat)}

theorem getElem?_zipIdx_zip (hstate : table.states[i]? = some state)
    (hindices : (allIndices table).1[i]? = some indices) :
    (table.states.zip (allIndices table).1).zipIdx[i]? = some ((state, indices), i) := by
  rw [getElem?_zipIdx, getElem?_zip_eq_some (z := (state, indices)) |>.mpr ⟨hstate, hindices⟩, Option.map_some,
    Nat.zero_add]

variable {n : Nat}

theorem ConsistentIds.matrixAt_largeRows (h : ConsistentIds internal table)
    (hstate : table.states[i]? = some state) (hindices : (allIndices table).1[i]? = some indices)
    (hare : AreIndices (allIndices table).2 (sortedTerminals table state) indices)
    (hlarge : i < largeStateCount table) (hn : n < table.symbols.length) :
    matrixAt table.symbols.length (largeRows table) (i * table.symbols.length + n) =
      (lookupEntry n (largeRow table i state indices)).getD 0 := by
  have hdiv : (i * table.symbols.length + n) / table.symbols.length = i := by
    rw [Nat.mul_comm, Nat.mul_add_div (by omega), Nat.div_eq_of_lt hn, Nat.add_zero]
  have hmod : (i * table.symbols.length + n) % table.symbols.length = n := by
    rw [Nat.mul_comm, Nat.mul_add_mod, Nat.mod_eq_of_lt hn]
  have hrow : (largeRows table)[i]? = some (largeRow table i state indices) := by
    rw [largeRows, getElem?_map, getElem?_take_of_lt hlarge,
      getElem?_zipIdx_zip hstate hindices]
    rfl
  have hids := (h.largeRow_ids (mem_of_getElem? hstate) hare i).1
  rw [matrixAt, hdiv, hmod, hrow, Option.map_some, Option.getD_some, arrayOf_designated hids]

theorem ConsistentIds.find?_valuesWithSymbols (h : ConsistentIds internal table)
    {lists : ParseActionLists} (hstate : state ∈ table.states)
    (hare : AreIndices lists (sortedTerminals table state) indices) (n : Nat) :
    (((valuesWithSymbols i state indices).find? fun group =>
      group.2.any fun s => symbolId table s % 2 ^ 16 = n).map
        fun group => group.1.1 % 2 ^ 16).getD 0 =
      (lookupEntry n (largeRow table i state indices)).getD 0 := by
  obtain ⟨hmem, hexists, -, -⟩ := @valuesWithSymbols_spec state i indices
  obtain ⟨hnodup, hlt⟩ := h.largeRow_ids hstate hare i
  have hfit := h.symbolsFit
  rw [builtinSymErrorRepeat, builtinSymError] at hfit
  -- Ids are not cut, so that a group has an id just if the row does.
  have hid : ∀ e ∈ smallEntries i state indices,
      symbolId table e.1 % 2 ^ 16 = symbolId table e.1 := by
    intro e he
    have hrow : (symbolId table e.1, e.2.1 % 2 ^ 16) ∈ largeRow table i state indices :=
      mem_largeRow_iff.mpr ⟨e, he, rfl, rfl⟩
    have hlt' : symbolId table e.1 < _ := hlt _ (mem_map.mpr ⟨_, hrow, rfl⟩)
    exact Nat.mod_eq_of_lt (by omega)
  cases hfind : (valuesWithSymbols i state indices).find? fun group =>
      group.2.any fun s => decide (symbolId table s % 2 ^ 16 = n) with
  | some group =>
    have hgroup := mem_of_find?_eq_some hfind
    have hany := find?_some hfind
    rw [any_eq_true] at hany
    obtain ⟨s, hs, hsn⟩ := hany
    have hentry := (hmem group hgroup s).mp hs
    rw [decide_eq_true_eq, hid _ hentry] at hsn
    have hrow := mem_largeRow_iff.mpr ⟨_, hentry, hsn, rfl⟩
    rw [lookupEntry_of_mem hnodup hrow]
    rfl
  | none =>
    cases hlookup : lookupEntry n (largeRow table i state indices) with
    | none => rfl
    | some v =>
      obtain ⟨e, he, hen, -⟩ := mem_largeRow_iff.mp (lookupEntry_eq_some hlookup)
      obtain ⟨group, hgroup, -, hs⟩ := hexists e he
      refine absurd ?_ (find?_eq_none.mp hfind group hgroup)
      rw [any_eq_true]
      exact ⟨e.1, hs, decide_eq_true ((hid e he).trans hen)⟩

/-- **A lookup in the written tables is a lookup in the row of the state.** -/
theorem ConsistentIds.languageLookup_eq (h : ConsistentIds internal table)
    (hok : addParseTable internal table = .ok language) (hstate : table.states[i]? = some state)
    (hindices : (allIndices table).1[i]? = some indices)
    (hare : AreIndices (allIndices table).2 (sortedTerminals table state) indices)
    (hn : n < table.symbols.length) :
    languageLookup language i n = (lookupEntry n (largeRow table i state indices)).getD 0 := by
  rw [addParseTable] at hok
  split at hok
  · cases hok
  cases hok
  rw [languageLookup]
  split
  · rename_i hsmall
    dsimp only at hsmall ⊢
    have hgroups : (smallStates table)[i - largeStateCount table]? =
        some (valuesWithSymbols i state indices) := by
      rw [smallStates, getElem?_map, getElem?_drop, Nat.add_sub_cancel' hsmall,
        getElem?_zipIdx_zip hstate hindices]
      rfl
    have harray : ReadsAt (arrayOf 0 (smallParseTable table 0 (smallStates table)).1) 0 _ :=
      readsAt_arrayOf smallParseTable_inOrder
    obtain ⟨index, hindex, hreads⟩ := smallParseTable_readsAt harray _ _ hgroups
    have hfit := h.indicesFit index (mem_of_getElem? hindex)
    obtain ⟨-, -, hcount, hlength⟩ := @valuesWithSymbols_spec state i indices
    have hrow := h.length_largeRow_le (mem_of_getElem? hstate) hare i
    rw [← length_smallEntries] at hrow
    have hsymbols := h.symbolsFit
    rw [builtinSymErrorRepeat, builtinSymError] at hsymbols
    rw [smallStateIndices, hindex, Option.getD_some, Nat.mod_eq_of_lt hfit]
    rw [stateItems, readsAt_cons, Nat.mod_eq_of_lt (by omega)] at hreads
    rw [hreads.1, lookupGroups_eq (fun group hgroup => ?_) hreads.2,
      h.find?_valuesWithSymbols (mem_of_getElem? hstate) hare]
    have hle := hlength group hgroup
    omega
  · rename_i hlarge
    dsimp only at hlarge ⊢
    exact h.matrixAt_largeRows hstate hindices hare (by omega) hn

def shiftTarget (stateId : Nat) (actions : List ParseAction) : Nat :=
  match actions.getLast? with
  | some (.shift state _) => state
  | some .shiftExtra => stateId
  | _ => 0

section

variable (hn : n < language.symbolCount) (hfit : language.symbolCount ≤ builtinSymErrorRepeat)
  (hi : i < language.stateCount)

include hn hfit hi

theorem not_languageNextState_zero : ¬ (n = builtinSymError ∨ n = builtinSymErrorRepeat ∨
    n ≥ language.symbolCount ∨ i ≥ language.stateCount) := by
  rw [builtinSymErrorRepeat, builtinSymError] at *
  omega

theorem languageNextState_of_token {id : ActionListId} (htoken : n < language.tokenCount)
    (hentry : languageTableEntry language i n = encodeEntry table id) :
    languageNextState language i n = shiftTarget i (table.actions id) := by
  rw [languageNextState, if_neg (not_languageNextState_zero hn hfit hi), if_pos htoken, hentry,
    encodeEntry, getLast?_map, shiftTarget]
  cases (table.actions id).getLast? with
  | none => rfl
  | some action => cases action <;> rfl

theorem languageNextState_of_not_token (htoken : ¬ n < language.tokenCount) :
    languageNextState language i n = languageLookup language i n := by
  rw [languageNextState, if_neg (not_languageNextState_zero hn hfit hi), if_neg htoken]

end

theorem addParseTable_ok (hok : addParseTable internal table = .ok language) :
    language.symbolCount = table.symbols.length ∧
      language.tokenCount = tokenCount internal table ∧
      language.stateCount = table.states.length ∧ (allIndices table).2.nextIndex < 2 ^ 16 - 1 := by
  rw [addParseTable] at hok
  split at hok
  · cases hok
  · rename_i hlt
    cases hok
    exact ⟨rfl, rfl, rfl, Nat.lt_of_not_le hlt⟩

theorem ConsistentIds.decodes_terminal (h : ConsistentIds internal table)
    (hok : addParseTable internal table = .ok language) (hstate : table.states[i]? = some state)
    {s : Symbol} {id : ActionListId} (hs : state.terminalEntries.get? s = some id) :
    languageTableEntry language i (symbolId table s) = encodeEntry table id ∧
      languageNextState language i (symbolId table s) = shiftTarget i (table.actions id) := by
  obtain ⟨indices, hindices, hare⟩ := exists_stateIndices hstate
  obtain ⟨hsymbolCount, htokenCount, hstateCount, hnext⟩ := addParseTable_ok hok
  have hmem := mem_of_getElem? hstate
  have hkey : s ∈ state.terminalEntries.keys := mem_keys_iff.mpr ⟨id, hs⟩
  obtain ⟨hsymbol, hkind⟩ := h.endOf_mem hmem hkey
  have hn : symbolId table s < table.symbols.length :=
    symbolId_endOf table s ▸ h.symbolId_lt hsymbol
  have htoken : symbolId table s < language.tokenCount :=
    htokenCount ▸ symbolId_endOf table s ▸ (h.symbolId_lt_tokenCount hsymbol).mpr hkind
  -- The list of the entry has an index, and the row has the index.
  have hfst : s ∈ indices.map Prod.fst := hare.keys_perm.mem_iff.mpr hkey
  obtain ⟨⟨s', index⟩, hindex, heq⟩ := mem_map.mp hfst
  obtain rfl : s' = s := heq
  obtain ⟨id', hid', hget⟩ := hare.mem_iff.mp hindex
  obtain rfl : id' = id := Option.some.inj ((mem_sortedEntries.mp hid').symm.trans hs)
  have hbound : index < (allIndices table).2.nextIndex :=
    (LaidOut.bounds (allIndices_spec table).1 _ (lookupEntry_eq_some hget)).2
  have hrow : (symbolId table s', index) ∈ largeRow table i state indices := by
    have hcut : index % 2 ^ 16 = index := Nat.mod_eq_of_lt (by omega)
    exact mem_append_right _ (mem_map.mpr ⟨_, hindex, Prod.ext rfl hcut⟩)
  have hvalue : languageLookup language i (symbolId table s') = index := by
    rw [h.languageLookup_eq hok hstate hindices hare hn,
      lookupEntry_of_mem (h.largeRow_ids hmem hare i).1 hrow, Option.getD_some]
  have hpool := h.ids state hmem _ (IndexMap.mem_entries_iff.mpr hs)
  have hentry := h.languageTableEntry_eq hok hpool hget hvalue hn
  exact ⟨hentry, languageNextState_of_token (hsymbolCount ▸ hn) (hsymbolCount ▸ h.symbolsFit)
    (hstateCount ▸ (List.getElem?_eq_some_iff.mp hstate).1) htoken hentry⟩

theorem ConsistentIds.decodes_nonterminal (h : ConsistentIds internal table)
    (hok : addParseTable internal table = .ok language) (hstate : table.states[i]? = some state)
    {s : Symbol} {action : GotoAction} (hs : state.nonterminalEntries.get? s = some action) :
    languageLookup language i (symbolId table s) = gotoState i action ∧
      languageNextState language i (symbolId table s) = gotoState i action := by
  obtain ⟨indices, hindices, hare⟩ := exists_stateIndices hstate
  obtain ⟨hsymbolCount, htokenCount, hstateCount, -⟩ := addParseTable_ok hok
  have hmem := mem_of_getElem? hstate
  have hi := (List.getElem?_eq_some_iff.mp hstate).1
  obtain ⟨hsymbol, hkind⟩ := h.nonTerminals state hmem s (mem_keys_iff.mpr ⟨action, hs⟩)
  have hn := h.symbolId_lt hsymbol
  have htoken : ¬ symbolId table s < language.tokenCount := by
    rw [htokenCount, h.symbolId_lt_tokenCount hsymbol]
    exact fun hno => hno hkind
  have hcut : gotoState i action % 2 ^ 16 = gotoState i action := by
    cases action with
    | goto target =>
      exact Nat.mod_eq_of_lt (h.gotosFit state hmem _ (IndexMap.mem_entries_iff.mpr hs))
    | shiftExtra => exact Nat.mod_eq_of_lt (hi.trans_le h.statesFit)
  have hrow : (symbolId table s, gotoState i action) ∈ largeRow table i state indices :=
    mem_append_left _
      (mem_map.mpr ⟨(s, action), mem_sortedEntries.mpr hs, Prod.ext rfl hcut⟩)
  have hvalue : languageLookup language i (symbolId table s) = gotoState i action := by
    rw [h.languageLookup_eq hok hstate hindices hare hn,
      lookupEntry_of_mem (h.largeRow_ids hmem hare i).1 hrow, Option.getD_some]
  exact ⟨hvalue, (languageNextState_of_not_token (hsymbolCount ▸ hn)
    (hsymbolCount ▸ h.symbolsFit) (hstateCount ▸ hi) htoken).trans hvalue⟩

theorem ConsistentIds.decodes_none (h : ConsistentIds internal table)
    (hok : addParseTable internal table = .ok language) (hstate : table.states[i]? = some state)
    (hn : n < table.symbols.length) (hnone : ∀ s ∈ state.terminalEntries.keys ++
      state.nonterminalEntries.keys, symbolId table s ≠ n) :
    languageLookup language i n = 0 ∧ languageNextState language i n = 0 ∧
      languageTableEntry language i n = ⟨[], false⟩ := by
  obtain ⟨indices, hindices, hare⟩ := exists_stateIndices hstate
  obtain ⟨hsymbolCount, htokenCount, hstateCount, -⟩ := addParseTable_ok hok
  have hfit : language.symbolCount ≤ builtinSymErrorRepeat := hsymbolCount ▸ h.symbolsFit
  have hi : i < language.stateCount := hstateCount ▸ (List.getElem?_eq_some_iff.mp hstate).1
  have hempty : lookupEntry n (largeRow table i state indices) = none := by
    rw [Option.eq_none_iff_forall_ne_some]
    intro v hv
    have hfst : n ∈ (largeRow table i state indices).map Prod.fst :=
      mem_map.mpr ⟨_, lookupEntry_eq_some hv, rfl⟩
    rw [map_fst_largeRow, ← map_append] at hfst
    obtain ⟨s, hs, hsn⟩ := mem_map.mp hfst
    refine hnone s ?_ hsn
    rw [mem_append] at hs ⊢
    exact hs.symm.imp hare.keys_perm.mem_iff.mp
      (sortedEntries_keys_perm symbolKey state.nonterminalEntries).mem_iff.mp
  have hvalue : languageLookup language i n = 0 := by
    rw [h.languageLookup_eq hok hstate hindices hare hn, hempty, Option.getD_none]
  -- Index 0 is that of the empty list.
  obtain ⟨hlength, -⟩ := List.getElem?_eq_some_iff.mp h.emptyList
  have hentry : languageTableEntry language i n = encodeEntry table ⟨0, false⟩ :=
    h.languageTableEntry_eq hok hlength (allIndices_spec table).2.1 hvalue hn
  have hactions : table.actions ⟨0, false⟩ = [] := by
    rw [ParseTable.actions, getD_eq_getElem?_getD, h.emptyList, Option.getD_some]
  refine ⟨hvalue, ?_, ?_⟩
  · by_cases htoken : n < language.tokenCount
    · rw [languageNextState_of_token (hsymbolCount ▸ hn) hfit hi htoken hentry, hactions]
      rfl
    · rw [languageNextState_of_not_token (hsymbolCount ▸ hn) hfit hi htoken, hvalue]
  · rw [hentry, encodeEntry, hactions]
    rfl

/-- **The generated parse table decodes to the table it was built from.** Looking up a symbol of a
state gives its action list with the flag and the state its last action shifts to, or its goto
target; looking up a symbol that a state has no entry for gives 0 and the empty entry. -/
theorem addParseTable_decodes (h : ConsistentIds internal table)
    (hok : addParseTable internal table = .ok language) (hstate : table.states[i]? = some state) :
    (∀ s id, state.terminalEntries.get? s = some id →
      languageTableEntry language i (symbolId table s) = encodeEntry table id ∧
      languageNextState language i (symbolId table s) = shiftTarget i (table.actions id)) ∧
    (∀ s action, state.nonterminalEntries.get? s = some action →
      languageLookup language i (symbolId table s) = gotoState i action ∧
      languageNextState language i (symbolId table s) = gotoState i action) ∧
    ∀ n < table.symbols.length,
      (∀ s ∈ state.terminalEntries.keys ++ state.nonterminalEntries.keys, symbolId table s ≠ n) →
      languageLookup language i n = 0 ∧ languageNextState language i n = 0 ∧
        languageTableEntry language i n = ⟨[], false⟩ :=
  ⟨fun _ _ hs => h.decodes_terminal hok hstate hs, fun _ _ hs => h.decodes_nonterminal hok hstate hs,
    fun _ hn hnone => h.decodes_none hok hstate hn hnone⟩

end Lookups

/-- A table with two large states and a small one. -/
def threeStates : ParseTable where
  symbols := [Symbol.eof, .terminal 0, .terminal 1, .nonTerminal 0]
  actionLists := [[], [.shift 2 false], [.reduce (.nonTerminal 0) 1 0 0], [.accept]]
  states := [
    { id := 0, terminalEntries := .empty, nonterminalEntries := .empty },
    { id := 1
      terminalEntries :=
        (IndexMap.empty.insert (.terminal 1) ⟨1, true⟩).insert (.terminal 0) ⟨1, true⟩
      nonterminalEntries := IndexMap.empty.insert (.nonTerminal 0) (.goto 2) },
    { id := 2
      terminalEntries := (IndexMap.empty.insert (.terminal 0) ⟨2, false⟩).insert .eof ⟨3, true⟩
      nonterminalEntries := .empty }]

theorem threeStates_consistentIds : ConsistentIds (fun _ => false) threeStates where
  symbols := ⟨[.terminal 0, .terminal 1], [.nonTerminal 0], rfl, by decide, by decide⟩
  nodup := by decide
  terminals := by decide
  nonTerminals := by decide
  ends := by decide
  emptyList := rfl
  ids := by decide
  symbolsFit := by decide
  statesFit := by decide
  gotosFit := by decide
  actionsFit := by decide
  indicesFit := by decide

theorem addParseTable_decodes_threeStates :
    ∃ language, addParseTable (fun _ => false) threeStates = .ok language ∧
      languageTableEntry language 2 1 =
        ⟨[.action (.reduce 1 3 0 0)], false⟩ ∧
      languageNextState language 1 3 = 2 ∧ languageTableEntry language 2 2 = ⟨[], false⟩ := by
  have hok : ∃ language, addParseTable (fun _ => false) threeStates = .ok language :=
    ⟨_, by rw [addParseTable, if_neg (by decide)]⟩
  obtain ⟨language, hok⟩ := hok
  have hlarge := addParseTable_decodes threeStates_consistentIds hok (i := 1) rfl
  have hsmall := addParseTable_decodes threeStates_consistentIds hok (i := 2) rfl
  exact ⟨language, hok, (hsmall.1 (.terminal 0) ⟨2, false⟩ rfl).1,
    (hlarge.2.1 (.nonTerminal 0) (.goto 2) rfl).2, (hsmall.2.2 2 (by decide) (by decide)).2.2⟩

end TreeSitter.Generate
