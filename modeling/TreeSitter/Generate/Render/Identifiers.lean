import TreeSitter.Generate.Render.Symbols

/-!
# TreeSitter.Generate.Render.Identifiers

The **identifiers** of symbols and aliases in the C code of a parser (`render.rs`), and the
**numbers** that they are declared as. Symbols have different identifiers
(`Generator.symbolIdent_injective`), since a number is put behind one that is already there; the
number of an identifier is the position of its symbol (`Generator.identNumber_symbolIdent`).
-/

namespace TreeSitter.Generate

open List Library Lib

/-! ### Names -/

/-- The special characters, by their code points. -/
def specialCharacters : List (Nat × String) :=
  [(126, "TILDE"), (96, "BQUOTE"), (33, "BANG"), (64, "AT"), (35, "POUND"), (36, "DOLLAR"),
   (37, "PERCENT"), (94, "CARET"), (38, "AMP"), (42, "STAR"), (40, "LPAREN"), (41, "RPAREN"),
   (45, "DASH"), (43, "PLUS"), (61, "EQ"), (123, "LBRACE"), (125, "RBRACE"), (91, "LBRACK"),
   (93, "RBRACK"), (92, "BSLASH"), (124, "PIPE"), (58, "COLON"), (59, "SEMI"), (34, "DQUOTE"),
   (39, "SQUOTE"), (60, "LT"), (62, "GT"), (44, "COMMA"), (46, "DOT"), (63, "QMARK"),
   (47, "SLASH"), (10, "LF"), (13, "CR"), (9, "TAB"), (0, "NULL"), (1, "SOH"), (2, "STX"),
   (3, "ETX"), (4, "EOT"), (5, "ENQ"), (6, "ACK"), (7, "BEL"), (8, "BS"), (11, "VTAB"), (12, "FF"),
   (14, "SO"), (15, "SI"), (16, "DLE"), (17, "DC1"), (18, "DC2"), (19, "DC3"), (20, "DC4"),
   (21, "NAK"), (22, "SYN"), (23, "ETB"), (24, "CAN"), (25, "EM"), (26, "SUB"), (27, "ESC"),
   (28, "FS"), (29, "GS"), (30, "RS"), (31, "US"), (127, "DEL"), (65279, "BOM")]

/-- `{:04x}` and the like. -/
def hexDigits (width n : Nat) : String := String.ofList ((Nat.toDigits 16 n).leftpad width '0')

/-- A replacement, with an underscore in front. -/
def pushReplacement (result replacement : String) : String :=
  (if result ≠ "" ∧ !result.endsWith "_" then result.push '_' else result) ++ replacement

/-- The body of the loop in `sanitize_identifier`. -/
def sanitizeCharacter (name result : String) (c : Char) : String :=
  if c.isAlphanum || c == '_' then result.push c
  else if c = ' ' then
    if name.utf8ByteSize = 1 then pushReplacement result "SPACE" else result
  else
    match specialCharacters.lookup c.toNat with
    | some replacement => pushReplacement result replacement
    | none =>
      if c.toNat < 0x10000 then result ++ "u" ++ hexDigits 4 c.toNat
      else result ++ "U" ++ hexDigits 8 c.toNat

/-- `sanitize_identifier`. -/
def sanitizeIdentifier (name : String) : String :=
  name.toList.foldl (sanitizeCharacter name) ""

/-- The identifier of a symbol with a name and a kind, if nothing is put behind it. -/
def baseIdentifier : String × VariableType → String
  | (name, .auxiliary) => "aux_sym_" ++ sanitizeIdentifier name
  | (name, .anonymous) => "anon_sym_" ++ sanitizeIdentifier name
  | (name, .hidden) | (name, .named) => "sym_" ++ sanitizeIdentifier name

/-- The identifier of an alias that is none of a symbol. -/
def aliasIdentifier (as : Alias) : String :=
  if as.isNamed then "alias_sym_" ++ sanitizeIdentifier as.value
  else "anon_alias_sym_" ++ sanitizeIdentifier as.value

/-! ### Identifiers that are not there yet -/

/-- An identifier with a suffix number; the first one has none. -/
def withSuffix (base : String) (suffixNumber : Nat) : String :=
  base ++ if suffixNumber = 1 then "" else toString suffixNumber

/-- The loop of `assign_symbol_id`; its fuel is enough (`suffixLoop_not_mem`). -/
def suffixLoop (base : String) (used : List String) : Nat → Nat → String
  | 0, suffixNumber => withSuffix base suffixNumber
  | fuel + 1, suffixNumber =>
    if withSuffix base suffixNumber ∈ used then suffixLoop base used fuel (suffixNumber + 1)
    else withSuffix base suffixNumber

theorem withSuffix_injective (base : String) : Function.Injective (withSuffix base) := by
  intro m n h
  have hne (k : Nat) : toString k ≠ "" := Nat.repr_ne_empty
  have h := (String.append_right_inj base).mp h
  split_ifs at h with hm hn hn
  · rw [hm, hn]
  · exact absurd h.symm (hne n)
  · exact absurd h (hne m)
  · exact Nat.repr_injective h

theorem suffixLoop_not_mem_of_exists {base : String} {used : List String} {fuel suffixNumber : Nat}
    (h : ∃ k < fuel, withSuffix base (suffixNumber + k) ∉ used) :
    suffixLoop base used fuel suffixNumber ∉ used := by
  induction fuel generalizing suffixNumber with
  | zero =>
    obtain ⟨k, hk, -⟩ := h
    cases hk
  | succ fuel ih =>
    rw [suffixLoop]
    split
    next hused =>
      obtain ⟨k, hk, hfree⟩ := h
      cases k with
      | zero => exact absurd hused hfree
      | succ k =>
        rw [Nat.add_comm k 1, ← Nat.add_assoc] at hfree
        exact ih ⟨k, Nat.lt_of_succ_lt_succ hk, hfree⟩
    next hfree => exact hfree

theorem suffixLoop_not_mem (base : String) (used : List String) :
    suffixLoop base used (used.length + 1) 1 ∉ used := by
  refine suffixLoop_not_mem_of_exists ?_
  by_contra hall
  have hmem : ∀ k < used.length + 1, withSuffix base (1 + k) ∈ used := by simpa using hall
  have hnodup : ((List.range (used.length + 1)).map fun k => withSuffix base (1 + k)).Nodup :=
    nodup_range.map fun k k' h => Nat.add_left_cancel (withSuffix_injective base h)
  have hsub : ((List.range (used.length + 1)).map fun k => withSuffix base (1 + k)) ⊆ used := by
    intro name hname
    obtain ⟨k, hk, rfl⟩ := mem_map.mp hname
    exact hmem k (mem_range.mp hk)
  have hlength := (hnodup.subperm hsub).length_le
  rw [length_map, length_range] at hlength
  omega

namespace Generator

variable (g : Generator)

/-! ### The identifiers of symbols -/

/-- `symbol_ids` and the used identifiers. -/
structure SymbolIds where
  ids : IndexMap Symbol String
  used : List String

/-- The identifier that `assign_symbol_id` chooses. -/
def chooseIdentifier (used : List String) (symbol : Symbol) : String :=
  if symbol = .eof then "ts_builtin_sym_end"
  else suffixLoop (baseIdentifier (g.metadataForSymbol symbol)) used (used.length + 1) 1

/-- `assign_symbol_id`. -/
def assignSymbolId (ids : SymbolIds) (symbol : Symbol) : SymbolIds :=
  let id := g.chooseIdentifier ids.used symbol
  ⟨ids.ids.insert symbol id, ids.used ++ [id]⟩

/-- The identifiers behind some symbols. -/
def assignSymbolIds (ids : SymbolIds) (symbols : List Symbol) : SymbolIds :=
  symbols.foldl g.assignSymbolId ids

/-- `symbol_ids`: the end of a non-terminal extra has the identifier of the end. -/
def symbolIds : IndexMap Symbol String :=
  let ids := (g.assignSymbolIds ⟨.empty, []⟩ g.symbols).ids
  ids.insert .endOfNonterminalExtra ((ids.get? .eof).getD "")

/-- The identifier of a symbol. The source panics at a symbol that is not there. -/
def symbolIdent (symbol : Symbol) : String := (g.symbolIds.get? symbol).getD ""

/-! ### The identifiers of aliases -/

/-- The identifier of an alias: that of a symbol which is shown alike, if there is one. -/
def aliasIdent (as : Alias) : String :=
  match g.symbolsForAlias as with
  | existingSymbol :: _ => g.symbolIdent (g.publicSymbol existingSymbol)
  | [] => aliasIdentifier as

/-- What `unique_aliases` is sorted by. -/
def aliasKey (as : Alias) : String ×ₗ Bool := toLex (as.value, as.isNamed)

/-- Insert an alias into `unique_aliases`, unless it is there. -/
def insertAlias (uniqueAliases : List Alias) (as : Alias) : List Alias :=
  if as ∈ uniqueAliases then uniqueAliases
  else uniqueAliases.orderedInsert (fun x y => aliasKey x ≤ aliasKey y) as

def usedAliases : List Alias := g.aliasSequences.flatMap List.reduceOption

/-- `unique_aliases`: the aliases that no symbol is shown as. -/
def uniqueAliases : List Alias :=
  (g.usedAliases.filter fun as => g.symbolsForAlias as = []).foldl insertAlias []

/-- `alias_ids`. -/
def aliasIds : IndexMap Alias String :=
  g.usedAliases.foldl (fun ids as => ids.insertNew as (g.aliasIdent as)) .empty

/-! ### Numbers -/

/-- The enumerators of `add_symbol_enum`; the first one is a macro of `parser.h`. -/
def symbolEnum : List String :=
  "ts_builtin_sym_end" :: (g.symbols.filter (· ≠ .eof)).map g.symbolIdent ++
    g.uniqueAliases.map g.aliasIdent

def identNumber (id : String) : Nat := g.symbolEnum.idxOf id

/-! ### The public symbols in C -/

/-- `add_unique_symbol_map`: an alias that no symbol is shown as is its own public symbol. -/
def addUniqueSymbolMap : List (InitItem Nat) :=
  (g.symbols.map (fun symbol => (g.identNumber (g.symbolIdent symbol),
      g.identNumber (g.symbolIdent (g.publicSymbol symbol)))) ++
    g.uniqueAliases.map fun as => (g.identNumber (g.aliasIdent as),
      g.identNumber (g.aliasIdent as))).map fun e => .designated e.1 e.2

/-- `public_symbol_map`. -/
def publicSymbolMap : Nat → Nat := arrayOf 0 g.addUniqueSymbolMap

/-! ### What the identifiers are -/

variable {g}

theorem get?_aliasIds (as : Alias) :
    g.aliasIds.get? as = if as ∈ g.usedAliases then some (g.aliasIdent as) else none := by
  have hfold : ∀ (used : List Alias) (ids : IndexMap Alias String),
      (ids.get? as = none ∨ ids.get? as = some (g.aliasIdent as)) →
      (used.foldl (fun ids as => ids.insertNew as (g.aliasIdent as)) ids).get? as =
        if as ∈ used then some (g.aliasIdent as) else ids.get? as := by
    intro used
    induction used with
    | nil => exact fun ids _ => rfl
    | cons first used ih =>
      intro ids hids
      rw [foldl_cons]
      by_cases heq : first = as
      · subst heq
        have hnew : (ids.insertNew first (g.aliasIdent first)).get? first =
            some (g.aliasIdent first) := by
          rw [IndexMap.get?_insertNew, if_pos rfl]
          rcases hids with hids | hids <;> rw [hids] <;> rfl
        rw [ih _ (.inr hnew), hnew, ite_self, if_pos mem_cons_self]
      · have hold : (ids.insertNew first (g.aliasIdent first)).get? as = ids.get? as := by
          rw [IndexMap.get?_insertNew, if_neg heq]
        rw [ih _ (by rwa [hold]), hold]
        simp only [mem_cons, Ne.symm heq, false_or]
  exact hfold g.usedAliases .empty (.inl rfl)

theorem mem_uniqueAliases {as : Alias} :
    as ∈ g.uniqueAliases ↔ as ∈ g.usedAliases ∧ g.symbolsForAlias as = [] := by
  have hfold : ∀ (used uniqueAliases : List Alias),
      as ∈ used.foldl insertAlias uniqueAliases ↔ as ∈ uniqueAliases ∨ as ∈ used := by
    intro used
    induction used with
    | nil => exact fun _ => by simp
    | cons first used ih =>
      intro uniqueAliases
      have hinsert : as ∈ insertAlias uniqueAliases first ↔ as = first ∨ as ∈ uniqueAliases := by
        rw [insertAlias]
        split
        next hmem => exact ⟨.inr, fun h => h.elim (fun heq => heq ▸ hmem) fun h => h⟩
        next => exact mem_orderedInsert _
      rw [foldl_cons, ih, hinsert, mem_cons, or_comm (a := as = first), or_assoc]
  rw [uniqueAliases, hfold, mem_filter, decide_eq_true_eq]
  exact or_iff_right fun h => nomatch h

/-! ### Symbols have different identifiers -/

def identifiersFrom (g : Generator) : List String → List Symbol → List String
  | _, [] => []
  | used, symbol :: symbols =>
    g.chooseIdentifier used symbol ::
      identifiersFrom g (used ++ [g.chooseIdentifier used symbol]) symbols

theorem length_identifiersFrom (symbols : List Symbol) :
    ∀ used, (identifiersFrom g used symbols).length = symbols.length := by
  induction symbols with
  | nil => exact fun _ => rfl
  | cons symbol symbols ih => exact fun used => congrArg (· + 1) (ih _)

theorem nodup_identifiersFrom {symbols : List Symbol} : ∀ {used : List String},
    Symbol.eof ∉ symbols → used.Nodup → (used ++ identifiersFrom g used symbols).Nodup := by
  induction symbols with
  | nil =>
    intro used _ hused
    rwa [identifiersFrom, append_nil]
  | cons symbol symbols ih =>
    intro used heof hused
    obtain ⟨hne, hrest⟩ := ne_and_not_mem_of_not_mem_cons heof
    have hfresh : g.chooseIdentifier used symbol ∉ used := by
      rw [chooseIdentifier, if_neg (Ne.symm hne)]
      exact suffixLoop_not_mem _ used
    have hnodup : (used ++ [g.chooseIdentifier used symbol]).Nodup :=
      hused.append (nodup_singleton _) (by simpa using hfresh)
    have htail := ih hrest hnodup
    rwa [append_assoc] at htail

theorem get?_assignSymbolIds {symbols : List Symbol} : ∀ {ids : SymbolIds}, symbols.Nodup →
    ∀ symbol, (g.assignSymbolIds ids symbols).ids.get? symbol =
      (lookupEntry symbol (symbols.zip (identifiersFrom g ids.used symbols))).or
        (ids.ids.get? symbol) := by
  induction symbols with
  | nil => exact fun _ _ => rfl
  | cons first symbols ih =>
    intro ids hnodup symbol
    obtain ⟨hfirst, hnodup⟩ := nodup_cons.mp hnodup
    have hrest := @ih (g.assignSymbolId ids first) hnodup symbol
    rw [assignSymbolIds, foldl_cons]
    rw [assignSymbolIds] at hrest
    rw [hrest, assignSymbolId, IndexMap.get?_insert, identifiersFrom, zip_cons_cons, lookupEntry]
    by_cases heq : first = symbol
    · subst heq
      have hnone : lookupEntry first (symbols.zip (identifiersFrom g
          (ids.used ++ [g.chooseIdentifier ids.used first]) symbols)) = none := by
        rw [Option.eq_none_iff_forall_ne_some]
        intro id hid
        exact hfirst (of_mem_zip (lookupEntry_eq_some hid)).1
      rw [hnone, Option.none_or, if_pos rfl, if_pos rfl]
      rfl
    · rw [if_neg heq, if_neg heq]

theorem mem_symbols_of_get? {symbol : Symbol} {id : String} (hkind : symbol.isNonTerminal)
    (h : g.symbolIds.get? symbol = some id) : symbol ∈ g.symbols := by
  have hextra : Symbol.endOfNonterminalExtra ≠ symbol := by
    rintro rfl
    cases hkind
  rw [symbolIds, IndexMap.get?_insert, if_neg hextra,
    @get?_assignSymbolIds g g.symbols ⟨.empty, []⟩ g.nodup] at h
  cases hlookup : lookupEntry symbol (g.symbols.zip (identifiersFrom g [] g.symbols)) with
  | none =>
    rw [hlookup] at h
    cases h
  | some id' => exact (of_mem_zip (lookupEntry_eq_some hlookup)).1

theorem get?_symbolIds {symbol : Symbol} (hmem : symbol ∈ g.symbols)
    (hkind : symbol.isNonTerminal) :
    g.symbolIds.get? symbol = some (g.symbolIdent symbol) := by
  have hextra : Symbol.endOfNonterminalExtra ≠ symbol := by
    rintro rfl
    cases hkind
  have hlt : g.symbols.idxOf symbol < (identifiersFrom g [] g.symbols).length := by
    rw [length_identifiersFrom]
    exact idxOf_lt_length_of_mem hmem
  have hkeys : ((g.symbols.zip (identifiersFrom g [] g.symbols)).map Prod.fst).Nodup := by
    rw [map_fst_zip (length_identifiersFrom g.symbols []).ge]
    exact g.nodup
  have hzip : (symbol, (identifiersFrom g [] g.symbols)[g.symbols.idxOf symbol]) ∈
      g.symbols.zip (identifiersFrom g [] g.symbols) := by
    rw [mem_iff_getElem?]
    refine ⟨g.symbols.idxOf symbol, getElem?_zip_eq_some.mpr ⟨?_, getElem?_eq_getElem hlt⟩⟩
    rw [getElem?_eq_getElem (idxOf_lt_length_of_mem hmem), getElem_idxOf]
  have hget : g.symbolIds.get? symbol =
      some (identifiersFrom g [] g.symbols)[g.symbols.idxOf symbol] := by
    rw [symbolIds, IndexMap.get?_insert, if_neg hextra,
      @get?_assignSymbolIds g g.symbols ⟨.empty, []⟩ g.nodup, lookupEntry_of_mem hkeys hzip,
      Option.some_or]
  rw [symbolIdent, hget]
  rfl

/-- The symbols of a parse table as `populate_used_symbols` leaves them: the end comes first, and
that of a non-terminal extra is not among them. -/
structure EndFirst (g : Generator) : Prop where
  eof_first : g.symbols.head? = some .eof
  extra_not_mem : Symbol.endOfNonterminalExtra ∉ g.symbols

namespace EndFirst

variable (h : g.EndFirst)
include h

theorem symbols_eq : ∃ rest, g.symbols = .eof :: rest := by
  have hhead := h.eof_first
  cases hsymbols : g.symbols with
  | nil =>
    rw [hsymbols] at hhead
    cases hhead
  | cons first rest =>
    rw [hsymbols] at hhead
    cases hhead
    exact ⟨rest, rfl⟩

theorem map_symbolIdent : g.symbols.map g.symbolIdent = identifiersFrom g [] g.symbols := by
  have hnodup : g.symbols.Nodup := g.nodup
  refine ext_getElem? fun i => ?_
  rw [getElem?_map]
  cases hi : g.symbols[i]? with
  | none =>
    rw [getElem?_eq_none_iff, ← length_identifiersFrom g.symbols []] at hi
    rw [getElem?_eq_none hi]
    rfl
  | some symbol =>
    have hlt : i < (identifiersFrom g [] g.symbols).length := by
      rw [length_identifiersFrom]
      exact (List.getElem?_eq_some_iff.mp hi).1
    have hne : Symbol.endOfNonterminalExtra ≠ symbol := by
      rintro rfl
      exact h.extra_not_mem (mem_of_getElem? hi)
    have hkeys : ((g.symbols.zip (identifiersFrom g [] g.symbols)).map Prod.fst).Nodup := by
      rw [map_fst_zip (length_identifiersFrom g.symbols []).ge]
      exact hnodup
    have hmem : (symbol, (identifiersFrom g [] g.symbols)[i]) ∈
        g.symbols.zip (identifiersFrom g [] g.symbols) := by
      rw [mem_iff_getElem?]
      exact ⟨i, getElem?_zip_eq_some.mpr ⟨hi, getElem?_eq_getElem hlt⟩⟩
    rw [Option.map_some, symbolIdent, symbolIds, IndexMap.get?_insert, if_neg hne,
      get?_assignSymbolIds hnodup, lookupEntry_of_mem hkeys hmem, Option.some_or,
      Option.getD_some, getElem?_eq_getElem hlt]

/-- **Symbols have different identifiers.** -/
theorem nodup_map_symbolIdent : (g.symbols.map g.symbolIdent).Nodup := by
  obtain ⟨rest, hsymbols⟩ := h.symbols_eq
  have hnodup : g.symbols.Nodup := g.nodup
  rw [hsymbols] at hnodup
  rw [h.map_symbolIdent, hsymbols, identifiersFrom]
  exact nodup_identifiersFrom (nodup_cons.mp hnodup).1 (nodup_singleton _)

theorem symbolEnum_eq :
    g.symbolEnum = g.symbols.map g.symbolIdent ++ g.uniqueAliases.map g.aliasIdent := by
  obtain ⟨rest, hsymbols⟩ := h.symbols_eq
  have hnodup : g.symbols.Nodup := g.nodup
  rw [hsymbols] at hnodup
  have hrest : rest.filter (· ≠ .eof) = rest := by
    rw [filter_eq_self]
    intro symbol hmem
    exact decide_eq_true fun heq => (nodup_cons.mp hnodup).1 (heq ▸ hmem)
  have hident : g.symbolIdent .eof = "ts_builtin_sym_end" := by
    have hmap := h.map_symbolIdent
    rw [hsymbols, map_cons, identifiersFrom, List.cons.injEq] at hmap
    exact hmap.1
  rw [symbolEnum, hsymbols, filter_cons_of_neg (by simp), hrest, map_cons, hident]

/-- **The number of an identifier is the position of its symbol.** -/
theorem identNumber_symbolIdent {symbol : Symbol} (hmem : symbol ∈ g.symbols) :
    g.identNumber (g.symbolIdent symbol) = g.symbols.idxOf symbol := by
  have hlt := idxOf_lt_length_of_mem hmem
  have hlt' : g.symbols.idxOf symbol < (g.symbols.map g.symbolIdent).length := by
    rwa [length_map]
  have hget : (g.symbols.map g.symbolIdent)[g.symbols.idxOf symbol] = g.symbolIdent symbol := by
    rw [getElem_map, getElem_idxOf]
  rw [identNumber, h.symbolEnum_eq, idxOf_append_of_mem (mem_map_of_mem hmem), ← hget]
  exact h.nodup_map_symbolIdent.idxOf_getElem _ hlt'

theorem publicSymbolMap_identNumber (henum : g.symbolEnum.Nodup) {symbol : Symbol}
    (hmem : symbol ∈ g.symbols) :
    g.publicSymbolMap (g.identNumber (g.symbolIdent symbol)) =
      g.identNumber (g.symbolIdent (g.publicSymbol symbol)) := by
  have hkeys : ((g.symbols.map (fun symbol => (g.identNumber (g.symbolIdent symbol),
      g.identNumber (g.symbolIdent (g.publicSymbol symbol)))) ++
        g.uniqueAliases.map fun as => (g.identNumber (g.aliasIdent as),
          g.identNumber (g.aliasIdent as))).map Prod.fst) = g.symbolEnum.map g.identNumber := by
    rw [h.symbolEnum_eq, map_append, map_append, map_map, map_map, map_map, map_map]
    rfl
  have hnodup : (g.symbolEnum.map g.identNumber).Nodup :=
    (nodup_map_iff_inj_on henum).mpr fun id hid id' _ heq => idxOf_inj hid |>.mp heq
  rw [← hkeys] at hnodup
  rw [publicSymbolMap, addUniqueSymbolMap, arrayOf_designated hnodup,
    lookupEntry_of_mem hnodup (mem_append_left _ (mem_map_of_mem hmem))]
  rfl

end EndFirst

end Generator

end TreeSitter.Generate
