import TreeSitter.Generate.Render.Identifiers

/-!
# TreeSitter.Generate.Render.SupertypeMap

The **supertypes** of a grammar with their subtypes, as `add_supertype_map` of `render.rs` writes
them and as a wasm store copies them out of the memory of a parser (`module.rs`). The slices of the
supertypes stand in the order of their identifiers. The store takes the end of the slice with the
greatest symbol id for the end of all, so it copies too few entries if that is not the last one;
and a supertype without subtypes leaves a designator without a value, which is no C
(`Generator.copiedOut_iff`).
-/

namespace TreeSitter.Generate

open List Library Lib

/-- `ChildType`. -/
inductive ChildType where
  | normal (symbol : Symbol)
  | aliased (as : Alias)

/-- `get_supertype_symbol_map`, of the child types of each variable. -/
def getSupertypeSymbolMap (supertypeSymbols : List Symbol) (childTypes : List (List ChildType)) :
    List (Symbol × List ChildType) :=
  (childTypes.zipIdx.map fun e => (Symbol.nonTerminal e.2, e.1)).filter fun e =>
    e.1 ∈ supertypeSymbols

/-- A `BTreeSet` of identifiers. -/
def sortedIdents (ids : List String) : List String := ids.dedup.insertionSort (· ≤ ·)

/-! ### The rendered arrays -/

/-- `TSMapSlice`. -/
structure TSMapSlice where
  index : Nat
  length : Nat
deriving DecidableEq

/-- The entries of a `BTreeMap` with names as keys. -/
def sortedByName {α : Type} (entries : List (String × α)) : List (String × α) :=
  entries.insertionSort fun x y => x.1 ≤ y.1

/-- The rows of the map: where the subtypes of each supertype begin. -/
def supertypeRows : Nat → List (String × List String) → List (String × Nat × List String)
  | _, [] => []
  | rowId, (supertype, subtypes) :: rest =>
    (supertype, rowId, subtypes) :: supertypeRows (rowId + subtypes.length) rest

/-- What is written into an initializer, a piece on each line: `[i] =` or a value. -/
inductive InitPiece where
  | designator (index : Nat)
  | value (number : Nat)

/-- The items that the pieces make up; `none` if they are no C, as there is no value behind a
designator. -/
def initItems : List InitPiece → Option (List (InitItem Nat))
  | [] => some []
  | .value number :: pieces => (initItems pieces).map (.next number :: ·)
  | .designator index :: .value number :: pieces =>
    (initItems pieces).map (.designated index number :: ·)
  | .designator _ :: _ => none

/-- The rendered arrays, by the numbers in them. -/
structure SupertypeArrays where
  symbols : List Nat
  slices : Nat → TSMapSlice
  entries : Nat → Nat

namespace Generator

variable (g : Generator)

/-- `supertype_map`: the supertypes that have an identifier. -/
def supertypeMap (supertypes : List (Symbol × List ChildType)) : List (String × List ChildType) :=
  sortedByName (supertypes.foldl (fun supertypeMap e =>
    (g.symbolIds.get? e.1).elim supertypeMap fun id => supertypeMap.insertNew id e.2)
      IndexMap.empty).entries

def subtypeIdents : ChildType → List String
  | .normal symbol => (g.symbolIds.get? symbol).toList
  | .aliased as =>
    match g.aliasIds.get? as with
    | some id => [id]
    | none => (g.symbolsForAlias as).filterMap g.symbolIds.get?

/-- `supertype_string_map`. -/
def supertypeStringMap (supertypes : List (Symbol × List ChildType)) :
    List (String × List String) :=
  (g.supertypeMap supertypes).map fun e => (e.1, sortedIdents (e.2.flatMap g.subtypeIdents))

/-- What is written for a row: where it begins, also if it has no subtypes. -/
def rowPieces (row : String × Nat × List String) : List InitPiece :=
  .designator row.2.1 :: row.2.2.map fun id => .value (g.identNumber id)

/-- The arrays, with these items as entries; the numbers of a slice are cut to the width of their
fields. -/
def arraysOf (supertypes : List (Symbol × List ChildType)) (items : List (InitItem Nat)) :
    SupertypeArrays :=
  let rows := supertypeRows 0 (g.supertypeStringMap supertypes)
  { symbols := (g.supertypeMap supertypes).map fun e => g.identNumber e.1
    slices := arrayOf ⟨0, 0⟩ (rows.map fun row => .designated (g.identNumber row.1)
      ⟨row.2.1 % 2 ^ 16, row.2.2.length % 2 ^ 16⟩)
    entries := arrayOf 0 items }

/-- `add_supertype_map`; `none` if what it writes does not compile. -/
def addSupertypeMap (supertypes : List (Symbol × List ChildType)) : Option SupertypeArrays :=
  (initItems ((supertypeRows 0 (g.supertypeStringMap supertypes)).flatMap g.rowPieces)).map
    (g.arraysOf supertypes)

end Generator

/-! ### The copy -/

/-- What is copied out of the memory of a parser. -/
structure CopiedSupertypes where
  slices : Nat → TSMapSlice
  entries : List Nat

/-- The loop that finds the greatest supertype id. -/
def largerSupertype (largest : Nat) (symbols : List Nat) : Nat :=
  symbols.foldl (fun largest supertype => if supertype > largest then supertype else largest)
    largest

/-- The greatest supertype id. -/
def largestSupertype (symbols : List Nat) : Nat := largerSupertype 0 symbols

/-- The copy of the supertypes in `module.rs`. -/
def copySupertypes (arrays : SupertypeArrays) : CopiedSupertypes :=
  let lastSlice := arrays.slices (largestSupertype arrays.symbols)
  let supertypeMapEntryCount := lastSlice.index + lastSlice.length
  { slices := arrays.slices
    entries := (List.range supertypeMapEntryCount).map arrays.entries }

/-- `ts_language_subtypes` of a supertype: what is read behind the pointer, if all of it is in the
copied array. -/
def CopiedSupertypes.subtypes (language : CopiedSupertypes) (supertype : Nat) :
    Option (List Nat) :=
  let slice := language.slices supertype
  if slice.index + slice.length ≤ language.entries.length then
    some ((language.entries.drop slice.index).take slice.length)
  else none

/-- The rows of the map that is rendered. -/
def Generator.rows (g : Generator) (supertypes : List (Symbol × List ChildType)) :
    List (String × Nat × List String) :=
  supertypeRows 0 (g.supertypeStringMap supertypes)

/-- The arrays compile, the slice of every supertype is the row that is rendered for it, and all of
it is copied. -/
def Generator.CopiedOut (g : Generator) (supertypes : List (Symbol × List ChildType)) : Prop :=
  ∃ arrays, g.addSupertypeMap supertypes = some arrays ∧
  let language := copySupertypes arrays
  ∀ row ∈ g.rows supertypes,
    language.slices (g.identNumber row.1) = ⟨row.2.1, row.2.2.length⟩ ∧
      row.2.1 + row.2.2.length ≤ language.entries.length ∧
        language.subtypes (g.identNumber row.1) = some (row.2.2.map g.identNumber)

/-- The rows fit the fields of a slice. -/
def RowsFit (rows : List (String × Nat × List String)) : Prop :=
  ∀ row ∈ rows, row.2.1 < 2 ^ 16 ∧ row.2.2.length < 2 ^ 16

/-- Behind the supertype with the greatest number there is none, in the order of the identifiers. -/
def Generator.GreatestIsLast (g : Generator) (entries : List (String × List String)) : Prop :=
  ∀ greatest ∈ entries, (∀ e ∈ entries, g.identNumber e.1 ≤ g.identNumber greatest.1) →
    ∀ e ∈ entries, e.1 ≤ greatest.1

/-! ### Rows -/

theorem supertypeRows_append (entries entries' : List (String × List String)) : ∀ rowId,
    supertypeRows rowId (entries ++ entries') = supertypeRows rowId entries ++
      supertypeRows (rowId + (entries.map fun e => e.2.length).sum) entries' := by
  induction entries with
  | nil => exact fun _ => rfl
  | cons e entries ih =>
    intro rowId
    rw [cons_append, supertypeRows, supertypeRows, ih, map_cons, sum_cons,
      Nat.add_assoc]
    rfl

theorem map_supertypeRows (entries : List (String × List String)) : ∀ rowId,
    (supertypeRows rowId entries).map (fun row => (row.1, row.2.2)) = entries := by
  induction entries with
  | nil => exact fun _ => rfl
  | cons e entries ih => exact fun rowId => congrArg (e :: ·) (ih _)

theorem supertypeRows_le {entries : List (String × List String)} : ∀ {rowId : Nat},
    ∀ row ∈ supertypeRows rowId entries, rowId ≤ row.2.1 ∧
      row.2.1 + row.2.2.length ≤ rowId + (entries.map fun e => e.2.length).sum := by
  induction entries with
  | nil => exact fun _ h => nomatch h
  | cons e entries ih =>
    intro rowId row hrow
    rw [map_cons, sum_cons]
    rcases mem_cons.mp hrow with rfl | hrow
    · exact ⟨Nat.le_refl _, by dsimp only; omega⟩
    · have hrest := ih row hrow
      omega

theorem exists_row_of_mem {entries : List (String × List String)} {e : String × List String}
    (h : e ∈ entries) : ∃ front back rowId, entries = front ++ e :: back ∧
      supertypeRows 0 entries = supertypeRows 0 front ++
        (e.1, rowId, e.2) :: supertypeRows (rowId + e.2.length) back ∧
      rowId = (front.map fun e => e.2.length).sum := by
  obtain ⟨front, back, rfl⟩ := append_of_mem h
  refine ⟨front, back, _, rfl, ?_, rfl⟩
  rw [supertypeRows_append, Nat.zero_add]
  rfl

/-! ### The arrays -/

theorem initItems_values (numbers : List Nat) (pieces : List InitPiece) :
    initItems (numbers.map .value ++ pieces) =
      (initItems pieces).map (numbers.map .next ++ ·) := by
  induction numbers with
  | nil => exact Option.map_id'.symm
  | cons number numbers ih =>
    rw [map_cons, cons_append, initItems, ih, Option.map_map]
    rfl

namespace Generator

variable {g : Generator}

/-- The items of a row. -/
def rowItems (g : Generator) (row : String × Nat × List String) : List (InitItem Nat) :=
  match row.2.2 with
  | [] => []
  | subtype :: subtypes =>
    .designated row.2.1 (g.identNumber subtype) :: subtypes.map fun id => .next (g.identNumber id)

/-- The arrays, if no row is empty. -/
def renderedArrays (g : Generator) (supertypes : List (Symbol × List ChildType)) :
    SupertypeArrays :=
  g.arraysOf supertypes ((g.rows supertypes).flatMap g.rowItems)

/-- What is written compiles just if no row is empty: behind an empty one there is another
designator, or the end. -/
theorem initItems_supertypeRows (entries : List (String × List String)) : ∀ rowId,
    initItems ((supertypeRows rowId entries).flatMap g.rowPieces) =
      if ∀ e ∈ entries, e.2 ≠ [] then some ((supertypeRows rowId entries).flatMap g.rowItems)
      else none := by
  induction entries with
  | nil => exact fun _ => rfl
  | cons e entries ih =>
    intro rowId
    obtain ⟨supertype, subtypes⟩ := e
    rw [supertypeRows, flatMap_cons, flatMap_cons, rowPieces]
    cases subtypes with
    | nil =>
      cases entries <;> rfl
    | cons subtype subtypes =>
      have hvalues : (subtypes.map fun id => InitPiece.value (g.identNumber id)) =
          (subtypes.map g.identNumber).map .value := map_map.symm
      rw [map_cons, cons_append, cons_append, initItems, hvalues, initItems_values, ih]
      by_cases hrest : ∀ e ∈ entries, e.2 ≠ []
      · have hall : ∀ e ∈ (supertype, subtype :: subtypes) :: entries, e.2 ≠ [] :=
          forall_mem_cons.mpr ⟨cons_ne_nil _ _, hrest⟩
        rw [if_pos hrest, if_pos hall, map_map]
        rfl
      · rw [if_neg hrest, if_neg fun h => hrest (forall_mem_cons.mp h).2]
        rfl

theorem addSupertypeMap_eq (supertypes : List (Symbol × List ChildType)) :
    g.addSupertypeMap supertypes = if ∀ e ∈ g.supertypeStringMap supertypes, e.2 ≠ [] then
      some (g.renderedArrays supertypes) else none := by
  rw [addSupertypeMap, initItems_supertypeRows]
  split <;> rfl

theorem inOrder_rowItems (entries : List (String × List String)) : ∀ rowId,
    InOrder rowId ((supertypeRows rowId entries).flatMap g.rowItems) := by
  induction entries with
  | nil => exact fun _ => trivial
  | cons e entries ih =>
    intro rowId
    obtain ⟨supertype, subtypes⟩ := e
    refine inOrder_append ?_ ?_
    · cases subtypes with
      | nil => trivial
      | cons subtype subtypes =>
        refine ⟨rfl, ?_⟩
        have hnext := inOrder_next (subtypes.map g.identNumber) (rowId + 1)
        rwa [map_map] at hnext
    · have hlength : (g.rowItems (supertype, rowId, subtypes)).length = subtypes.length := by
        cases subtypes with
        | nil => rfl
        | cons => simp [rowItems]
      rw [hlength]
      exact ih _

theorem value_rowItems (entries : List (String × List String)) : ∀ rowId,
    ((supertypeRows rowId entries).flatMap g.rowItems).map InitItem.value =
      entries.flatMap fun e => e.2.map g.identNumber := by
  induction entries with
  | nil => exact fun _ => rfl
  | cons e entries ih =>
    intro rowId
    obtain ⟨supertype, subtypes⟩ := e
    rw [supertypeRows, flatMap_cons, flatMap_cons, map_append, ih]
    cases subtypes with
    | nil => rfl
    | cons =>
      rw [rowItems, map_cons, map_map]
      rfl

theorem readsAt_supertypeRows {array : Nat → Nat} {entries : List (String × List String)} :
    ∀ {rowId : Nat}, ReadsAt array rowId (entries.flatMap fun e => e.2.map g.identNumber) →
      ∀ row ∈ supertypeRows rowId entries,
        ReadsAt array row.2.1 (row.2.2.map g.identNumber) := by
  induction entries with
  | nil => exact fun _ _ h => nomatch h
  | cons e entries ih =>
    intro rowId h row hrow
    rw [flatMap_cons, readsAt_append, length_map] at h
    rcases mem_cons.mp hrow with rfl | hrow
    · exact h.1
    · exact ih h.2 row hrow

theorem readsAt_row {supertypes : List (Symbol × List ChildType)}
    {row : String × Nat × List String} (hrow : row ∈ g.rows supertypes) :
    ReadsAt (g.renderedArrays supertypes).entries row.2.1 (row.2.2.map g.identNumber) := by
  have hall := @readsAt_arrayOf Nat _ 0 (@inOrder_rowItems g (g.supertypeStringMap supertypes) 0)
  rw [value_rowItems] at hall
  exact readsAt_supertypeRows hall row hrow

/-! ### Identifiers and numbers of supertypes -/

theorem mem_symbolEnum_of_get? {symbol : Symbol} {id : String}
    (hkind : symbol.isNonTerminal) (h : g.symbolIds.get? symbol = some id) :
    id ∈ g.symbolEnum := by
  have hmem := mem_symbols_of_get? hkind h
  have heof : symbol ≠ .eof := by
    rintro rfl
    cases hkind
  have hident : g.symbolIdent symbol = id := by
    rw [symbolIdent, h]
    rfl
  refine mem_cons_of_mem _ (mem_append_left _ ?_)
  rw [← hident]
  exact mem_map_of_mem (mem_filter.mpr ⟨hmem, decide_eq_true heof⟩)

theorem mem_getSupertypeSymbolMap {supertypeSymbols : List Symbol}
    {childTypes : List (List ChildType)} {e : Symbol × List ChildType}
    (h : e ∈ getSupertypeSymbolMap supertypeSymbols childTypes) : e.1.isNonTerminal := by
  obtain ⟨e', -, rfl⟩ := mem_map.mp (mem_filter.mp h).1
  rfl

theorem mem_symbolEnum_of_mem_supertypeMap {supertypes : List (Symbol × List ChildType)}
    (hkind : ∀ e ∈ supertypes, e.1.isNonTerminal) {e : String × List ChildType}
    (h : e ∈ g.supertypeMap supertypes) : e.1 ∈ g.symbolEnum := by
  have hfold : ∀ (supertypes : List (Symbol × List ChildType))
      (supertypeMap : IndexMap String (List ChildType)),
      (∀ e ∈ supertypes, e.1.isNonTerminal) →
      (∀ e ∈ supertypeMap.entries, e.1 ∈ g.symbolEnum) →
      ∀ e ∈ (supertypes.foldl (fun supertypeMap e =>
        (g.symbolIds.get? e.1).elim supertypeMap fun id => supertypeMap.insertNew id e.2)
          supertypeMap).entries, e.1 ∈ g.symbolEnum := by
    intro supertypes
    induction supertypes with
    | nil => exact fun _ _ h => h
    | cons first supertypes ih =>
      intro supertypeMap hkind hmap
      refine ih _ (fun e he => hkind e (mem_cons_of_mem _ he)) ?_
      dsimp only
      cases hid : g.symbolIds.get? first.1 with
      | none => exact hmap
      | some id =>
        intro e he
        rw [Option.elim_some, IndexMap.mem_entries_iff, IndexMap.get?_insertNew] at he
        split at he
        next heq =>
          rw [← heq]
          exact mem_symbolEnum_of_get? (hkind first mem_cons_self) hid
        next => exact hmap e (IndexMap.mem_entries_iff.mpr he)
  rw [supertypeMap, sortedByName, mem_insertionSort] at h
  exact hfold supertypes .empty hkind (fun _ h => absurd h not_mem_nil) e h

/-- The supertypes are in the order of their names, which are distinct. -/
theorem pairwise_supertypeMap (supertypes : List (Symbol × List ChildType)) :
    (g.supertypeMap supertypes).Pairwise fun x y => x.1 < y.1 := by
  rw [supertypeMap, sortedByName]
  generalize supertypes.foldl _ _ = supertypeMap
  have hsorted : (supertypeMap.entries.insertionSort fun x y => x.1 ≤ y.1).Pairwise
      fun x y => x.1 ≤ y.1 := pairwise_insertionSort _ _
  have hnodup : (supertypeMap.entries.insertionSort fun x y => x.1 ≤ y.1).Pairwise
      fun x y => x.1 ≠ y.1 := by
    rw [← pairwise_map]
    exact ((perm_insertionSort _ _).map Prod.fst).nodup_iff.mpr supertypeMap.nodup
  exact hsorted.imp₂ (fun x y hle hne => lt_of_le_of_ne hle hne) hnodup

section Supertypes

variable {supertypes : List (Symbol × List ChildType)}

theorem mem_symbolEnum_of_mem_supertypeStringMap (hkind : ∀ e ∈ supertypes, e.1.isNonTerminal)
    {e : String × List String} (h : e ∈ g.supertypeStringMap supertypes) : e.1 ∈ g.symbolEnum := by
  obtain ⟨e', hmem, rfl⟩ := mem_map.mp h
  exact mem_symbolEnum_of_mem_supertypeMap hkind hmem

theorem pairwise_supertypeStringMap :
    (g.supertypeStringMap supertypes).Pairwise fun x y => x.1 < y.1 :=
  (pairwise_supertypeMap supertypes).map _ fun _ _ h => h

theorem nodup_supertypeStringMap : ((g.supertypeStringMap supertypes).map Prod.fst).Nodup := by
  rw [List.Nodup, pairwise_map]
  exact pairwise_supertypeStringMap.imp fun hlt => ne_of_lt hlt

theorem supertypeStringMap_injective (hkind : ∀ e ∈ supertypes, e.1.isNonTerminal)
    {e e' : String × List String} (h : e ∈ g.supertypeStringMap supertypes)
    (h' : e' ∈ g.supertypeStringMap supertypes)
    (heq : g.identNumber e.1 = g.identNumber e'.1) : e = e' := by
  have hname : e.1 = e'.1 :=
    (idxOf_inj (mem_symbolEnum_of_mem_supertypeStringMap hkind h)).mp heq
  exact inj_on_of_nodup_map nodup_supertypeStringMap h h' hname

theorem map_rows : (g.rows supertypes).map (fun row => (row.1, row.2.2)) =
    g.supertypeStringMap supertypes :=
  map_supertypeRows _ 0

theorem slices_row (hkind : ∀ e ∈ supertypes, e.1.isNonTerminal)
    {row : String × Nat × List String} (hrow : row ∈ g.rows supertypes) :
    (g.renderedArrays supertypes).slices (g.identNumber row.1) =
      ⟨row.2.1 % 2 ^ 16, row.2.2.length % 2 ^ 16⟩ := by
  have hitems : ((g.rows supertypes).map fun row => InitItem.designated (g.identNumber row.1)
      (⟨row.2.1 % 2 ^ 16, row.2.2.length % 2 ^ 16⟩ : TSMapSlice)) =
      ((g.rows supertypes).map fun row => (g.identNumber row.1,
        (⟨row.2.1 % 2 ^ 16, row.2.2.length % 2 ^ 16⟩ : TSMapSlice))).map
        fun e => InitItem.designated e.1 e.2 := by
    rw [map_map]
    rfl
  have hkeys : (((g.rows supertypes).map fun row => (g.identNumber row.1,
      (⟨row.2.1 % 2 ^ 16, row.2.2.length % 2 ^ 16⟩ : TSMapSlice))).map Prod.fst) =
      (g.supertypeStringMap supertypes).map fun e => g.identNumber e.1 := by
    rw [← map_rows, map_map, map_map]
    rfl
  have hnodup : ((g.supertypeStringMap supertypes).map fun e => g.identNumber e.1).Nodup :=
    (nodup_map_iff_inj_on nodup_supertypeStringMap.of_map).mpr
      fun e he e' he' heq => supertypeStringMap_injective hkind he he' heq
  rw [← hkeys] at hnodup
  change arrayOf _ ((g.rows supertypes).map _) _ = _
  rw [hitems, arrayOf_designated hnodup, lookupEntry_of_mem hnodup (mem_map_of_mem hrow)]
  rfl

/-! ### What the store copies -/

theorem le_largerSupertype (symbols : List Nat) : ∀ largest : Nat,
    largest ≤ largerSupertype largest symbols ∧
      (∀ symbol ∈ symbols, symbol ≤ largerSupertype largest symbols) ∧
        (largerSupertype largest symbols = largest ∨
          largerSupertype largest symbols ∈ symbols) := by
  induction symbols with
  | nil => exact fun largest => ⟨le_refl _, (fun _ h => nomatch h), .inl rfl⟩
  | cons symbol symbols ih =>
    intro largest
    obtain ⟨hle, hall, hmem⟩ := ih (if symbol > largest then symbol else largest)
    rw [largerSupertype, foldl_cons]
    rw [largerSupertype] at hle hall hmem
    have hsymbol : symbol ≤ if symbol > largest then symbol else largest := by
      split <;> omega
    have hlargest : largest ≤ if symbol > largest then symbol else largest := by
      split <;> omega
    refine ⟨hlargest.trans hle, fun symbol' h => ?_, ?_⟩
    · rcases mem_cons.mp h with rfl | h
      · exact hsymbol.trans hle
      · exact hall symbol' h
    · rcases hmem with hmem | hmem
      · rw [hmem]
        split
        · exact .inr mem_cons_self
        · exact .inl rfl
      · exact .inr (mem_cons_of_mem _ hmem)

/-- The slice that the store reads is that of the supertype with the greatest number. -/
theorem largestSupertype_eq {greatest : String × List String}
    (hmem : greatest ∈ g.supertypeStringMap supertypes)
    (hall : ∀ e ∈ g.supertypeStringMap supertypes, g.identNumber e.1 ≤ g.identNumber greatest.1) :
    largestSupertype (g.renderedArrays supertypes).symbols = g.identNumber greatest.1 := by
  have hsymbols : (g.renderedArrays supertypes).symbols =
      (g.supertypeStringMap supertypes).map fun e => g.identNumber e.1 := by
    rw [renderedArrays, arraysOf, supertypeStringMap, map_map]
    rfl
  obtain ⟨-, hge, hlast⟩ := le_largerSupertype (g.renderedArrays supertypes).symbols 0
  have hgreatest := hge (g.identNumber greatest.1) (by
    rw [hsymbols]
    exact mem_map_of_mem hmem)
  refine le_antisymm ?_ hgreatest
  rcases hlast with hlast | hlast
  · exact hlast.trans_le (Nat.zero_le _)
  · obtain ⟨e, he, heq⟩ := mem_map.mp (hsymbols ▸ hlast)
    rw [← hsymbols] at heq
    exact heq.symm.trans_le (hall e he)

theorem exists_greatest {entries : List (String × List String)} (hne : entries ≠ []) :
    ∃ greatest ∈ entries, ∀ e ∈ entries, g.identNumber e.1 ≤ g.identNumber greatest.1 := by
  induction entries with
  | nil => exact absurd rfl hne
  | cons first entries ih =>
    cases entries with
    | nil =>
      refine ⟨first, mem_cons_self, fun e he => ?_⟩
      rw [mem_singleton.mp he]
    | cons second entries =>
      obtain ⟨greatest, hmem, hall⟩ := ih (cons_ne_nil _ _)
      rcases le_total (g.identNumber first.1) (g.identNumber greatest.1) with hle | hle
      · refine ⟨greatest, mem_cons_of_mem _ hmem, fun e he => ?_⟩
        rcases mem_cons.mp he with rfl | he
        · exact hle
        · exact hall e he
      · refine ⟨first, mem_cons_self, fun e he => ?_⟩
        rcases mem_cons.mp he with rfl | he
        · exact le_refl _
        · exact (hall e he).trans hle

theorem drop_take_map_range {f : Nat → Nat} {index length count : Nat}
    (h : index + length ≤ count) :
    (((List.range count).map f).drop index).take length =
      (List.range length).map fun j => f (index + j) := by
  refine ext_getElem? fun j => ?_
  rw [getElem?_take, getElem?_drop, getElem?_map, getElem?_map]
  split
  next hj => rw [getElem?_range (by omega), getElem?_range hj, Option.map_some,
    Option.map_some]
  next hj =>
    rw [getElem?_eq_none (l := List.range length) (by rw [length_range]; omega)]
    rfl

theorem subtypes_row (hkind : ∀ e ∈ supertypes, e.1.isNonTerminal)
    {row : String × Nat × List String} (hrow : row ∈ g.rows supertypes)
    (hfits : row.2.1 < 2 ^ 16 ∧ row.2.2.length < 2 ^ 16)
    (hcopied : row.2.1 + row.2.2.length ≤
      (copySupertypes (g.renderedArrays supertypes)).entries.length) :
    (copySupertypes (g.renderedArrays supertypes)).slices (g.identNumber row.1) =
        ⟨row.2.1, row.2.2.length⟩ ∧
      (copySupertypes (g.renderedArrays supertypes)).subtypes (g.identNumber row.1) =
        some (row.2.2.map g.identNumber) := by
  have hslice : (copySupertypes (g.renderedArrays supertypes)).slices (g.identNumber row.1) =
      ⟨row.2.1, row.2.2.length⟩ := by
    rw [← Nat.mod_eq_of_lt hfits.1, ← Nat.mod_eq_of_lt hfits.2]
    exact slices_row hkind hrow
  refine ⟨hslice, ?_⟩
  rw [CopiedSupertypes.subtypes, hslice]
  rw [if_pos hcopied]
  have hreads := (readsAt_row hrow).map_range
  rw [length_map] at hreads
  have hcount : row.2.1 + row.2.2.length ≤ _ := hcopied
  rw [copySupertypes, length_map, length_range] at hcount
  rw [copySupertypes, drop_take_map_range hcount, hreads]

theorem exists_greatest_row {greatest : String × List String}
    (hmem : greatest ∈ g.supertypeStringMap supertypes) :
    ∃ front back rowId, g.supertypeStringMap supertypes = front ++ greatest :: back ∧
      g.rows supertypes = supertypeRows 0 front ++
        (greatest.1, rowId, greatest.2) :: supertypeRows (rowId + greatest.2.length) back ∧
      rowId = (front.map fun e => e.2.length).sum ∧
      (∀ e ∈ front, e.1 < greatest.1) ∧ ∀ e ∈ back, greatest.1 < e.1 := by
  obtain ⟨front, back, rowId, hentries, hrows, hrowId⟩ := exists_row_of_mem hmem
  have hsorted := @pairwise_supertypeStringMap g supertypes
  rw [hentries, pairwise_append, pairwise_cons] at hsorted
  exact ⟨front, back, rowId, hentries, hrows, hrowId,
    fun e he => hsorted.2.2 e he greatest mem_cons_self, hsorted.2.1.1⟩

end Supertypes

/-- **When the supertypes survive the copy**: all of them have subtypes, the rows fit the fields of a
slice, and that of the supertype with the greatest number is the last one. -/
theorem copiedOut_iff (g : Generator) (supertypeSymbols : List Symbol)
    (childTypes : List (List ChildType)) :
    g.CopiedOut (getSupertypeSymbolMap supertypeSymbols childTypes) ↔
      (∀ e ∈ g.supertypeStringMap (getSupertypeSymbolMap supertypeSymbols childTypes),
        e.2 ≠ []) ∧
      RowsFit (g.rows (getSupertypeSymbolMap supertypeSymbols childTypes)) ∧
        g.GreatestIsLast (g.supertypeStringMap (getSupertypeSymbolMap supertypeSymbols
          childTypes)) := by
  have hkind : ∀ e ∈ getSupertypeSymbolMap supertypeSymbols childTypes, e.1.isNonTerminal :=
    fun e he => mem_getSupertypeSymbolMap he
  generalize getSupertypeSymbolMap supertypeSymbols childTypes = supertypes at hkind ⊢
  have hcount : ∀ greatest ∈ g.supertypeStringMap supertypes,
      (∀ e ∈ g.supertypeStringMap supertypes, g.identNumber e.1 ≤ g.identNumber greatest.1) →
      ∀ rowId, (greatest.1, rowId, greatest.2) ∈ g.rows supertypes →
      (copySupertypes (g.renderedArrays supertypes)).entries.length =
        rowId % 2 ^ 16 + greatest.2.length % 2 ^ 16 := by
    intro greatest hmem hall rowId hrow
    rw [copySupertypes, length_map, length_range, largestSupertype_eq hmem hall,
      slices_row hkind hrow]
  rw [CopiedOut, addSupertypeMap_eq]
  constructor
  · rintro ⟨arrays, harrays, h⟩
    have hsubtypes : ∀ e ∈ g.supertypeStringMap supertypes, e.2 ≠ [] := by
      by_contra hempty
      rw [if_neg hempty] at harrays
      cases harrays
    rw [if_pos hsubtypes] at harrays
    cases harrays
    have hfits : RowsFit (g.rows supertypes) := by
      intro row hrow
      obtain ⟨hslice, -, -⟩ := h row hrow
      have heq := (slices_row hkind hrow).symm.trans hslice
      rw [TSMapSlice.mk.injEq] at heq
      exact ⟨by rw [← heq.1]; exact Nat.mod_lt _ (by decide),
        by rw [← heq.2]; exact Nat.mod_lt _ (by decide)⟩
    refine ⟨hsubtypes, hfits, fun greatest hmem hall e he => ?_⟩
    by_contra hle
    have hlt := lt_of_not_ge hle
    have hsome := hsubtypes e he
    obtain ⟨front, back, rowId, hentries, hrows, -, hfront, -⟩ := exists_greatest_row hmem
    have hback : e ∈ back := by
      rw [hentries, mem_append, mem_cons] at he
      rcases he with he | rfl | he
      · exact absurd hlt (not_lt.mpr (hfront e he).le)
      · exact absurd hlt (lt_irrefl _)
      · exact he
    rw [← map_supertypeRows back (rowId + greatest.2.length)] at hback
    obtain ⟨row, hrow, rfl⟩ := mem_map.mp hback
    have hrow' : row ∈ g.rows supertypes := by
      rw [hrows]
      exact mem_append_right _ (mem_cons_of_mem _ hrow)
    have hgreatest : (greatest.1, rowId, greatest.2) ∈ g.rows supertypes := by
      rw [hrows]
      exact mem_append_right _ mem_cons_self
    obtain ⟨-, hcopied, -⟩ := h row hrow'
    rw [hcount greatest hmem hall rowId hgreatest] at hcopied
    have hbegin := (supertypeRows_le row hrow).1
    have hzero : row.2.2.length = 0 := by omega
    exact hsome (length_eq_zero_iff.mp hzero)
  · rintro ⟨hsubtypes, hfits, hlast⟩
    refine ⟨_, if_pos hsubtypes, fun row hrow => ?_⟩
    have hne : g.supertypeStringMap supertypes ≠ [] := by
      intro hnil
      rw [rows, hnil] at hrow
      cases hrow
    obtain ⟨greatest, hmem, hall⟩ := @exists_greatest g _ hne
    obtain ⟨front, back, rowId, hentries, hrows, hrowId, -, hback⟩ := exists_greatest_row hmem
    have hgreatest : (greatest.1, rowId, greatest.2) ∈ g.rows supertypes := by
      rw [hrows]
      exact mem_append_right _ mem_cons_self
    have hlength := hcount greatest hmem hall rowId hgreatest
    rw [Nat.mod_eq_of_lt (hfits _ hgreatest).1, Nat.mod_eq_of_lt (hfits _ hgreatest).2] at hlength
    have hnil : back = [] := by
      refine eq_nil_iff_forall_not_mem.mpr fun e he => ?_
      have hmemBack : e ∈ g.supertypeStringMap supertypes := by
        rw [hentries]
        exact mem_append_right _ (mem_cons_of_mem _ he)
      exact absurd (hback e he) (not_lt.mpr (hlast greatest hmem hall e hmemBack))
    subst hnil
    have hcopied : row.2.1 + row.2.2.length ≤
        (copySupertypes (g.renderedArrays supertypes)).entries.length := by
      rw [hlength]
      change row.2.1 + row.2.2.length ≤ rowId + greatest.2.length
      have hrowMem := hrow
      rw [hrows, mem_append, mem_cons] at hrowMem
      rcases hrowMem with hrowMem | rfl | hrowMem
      · have hle := (supertypeRows_le row hrowMem).2
        omega
      · exact le_refl _
      · exact absurd hrowMem not_mem_nil
    obtain ⟨hslice, hread⟩ := subtypes_row hkind hrow (hfits row hrow) hcopied
    exact ⟨hslice, hcopied, hread⟩

/-- A grammar with the supertypes `b` and `a`, in this order. -/
def supertypesBA : Generator where
  table := ⟨[], [], [.eof, .terminal 0, .nonTerminal 0, .nonTerminal 1, .nonTerminal 2]⟩
  aliasSequences := []
  vars := [("program", .named), ("b", .hidden), ("a", .hidden)]
  lexicalVariables := [("x", .named)]
  externalTokens := []
  defaultAliases := .empty
  nodup := by decide

/-- The entries of `b`, which stand last, are not copied: `a` has the greater number. -/
theorem exists_not_copiedOut :
    ¬ ∀ (g : Generator) (supertypeSymbols : List Symbol) (childTypes : List (List ChildType)),
      g.CopiedOut (getSupertypeSymbolMap supertypeSymbols childTypes) := by
  intro h
  obtain ⟨arrays, harrays, hcopied⟩ := h supertypesBA [.nonTerminal 1, .nonTerminal 2]
    [[.normal (.nonTerminal 1)], [.normal (.terminal 0)], [.normal (.terminal 0)]]
  cases harrays
  exact absurd hcopied (by decide +kernel)

end Generator

end TreeSitter.Generate
