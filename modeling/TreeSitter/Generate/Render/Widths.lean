import TreeSitter.Generate.Render.LexStateSound
import TreeSitter.Generate.Render.ParseTableSound
import TreeSitter.Generate.Render.WrittenNumbers

/-!
# TreeSitter.Generate.Render.Widths

**Which numbers fit their fields.** The check on the number of parse actions keeps the offsets of
all action lists in 16 bits (`index_lt`), and the counts in the small parse table fit since a
small state has few entries (`length_smallEntries_le`). Everything else depends on the grammar and
on its tables: `Narrow` says for which of them nothing is cut, and `noSilentTruncation_iff` that
there are no others.
-/

namespace TreeSitter.Generate

open List Library Lib

/-! ### Conditions -/

/-- What the debug assertions of `add_actions` say: its casts lose nothing. -/
def FinishedItem.Asserted (item : FinishedItem) : Prop :=
  item.stepIndex < 2 ^ 16 ∧ item.productionId < 2 ^ 16

instance (item : FinishedItem) : Decidable item.Asserted :=
  inferInstanceAs (Decidable (_ ∧ _))

/-- The lex states that the code of a lex state goes to. A transition without characters has no
entry in `ADVANCE_MAP`. -/
def LexState.targets (state : LexState) : List Nat :=
  let count := leadingSimpleTransitionCount state.advanceActions
  (state.eofAction.toList ++
    ((state.advanceActions.take count).filter (·.1.charRanges ≠ [])).map Prod.snd ++
      (state.advanceActions.drop count).map Prod.snd).map AdvanceAction.state

namespace RenderInput

/-- **No silent truncation**: if the code is rendered, every number that is written fits its field,
and the casts in front lose nothing. -/
def NoSilentTruncation (g : RenderInput) : Prop :=
  ∀ written, g.renderCCode = .ok written →
    (∀ n ∈ written, n.Fits) ∧ ∀ item ∈ g.items, item.Asserted

/-- The version of the ABI is one that the renderer rejects. -/
def UnknownAbi (g : RenderInput) : Prop :=
  g.abiVersion < abiVersionMin ∨ abiVersionMax < g.abiVersion

/-- The number of parse actions is one that the renderer rejects. -/
def TooManyActions (g : RenderInput) : Prop :=
  2 ^ 16 - 1 ≤ (g.table.referencedLists.dedup.map fun id => 1 + (g.table.actions id).length).sum

/-- The grammar and its tables are **narrow**. -/
structure Narrow (g : RenderInput) : Prop where
  symbols : g.symbolEnum.length ≤ 2 ^ 16
  fieldNames : g.fieldNames.length < 2 ^ 16
  fieldMaps : ∀ fieldMap ∈ g.fieldMaps, (fieldMap.flatMap Prod.snd).length < 2 ^ 16
  fieldRows : totalLength (firstOccurrences [[]] g.flatFieldMaps).dropLast < 2 ^ 16
  fieldLocations : ∀ fieldMap ∈ g.fieldMaps, ∀ location ∈ fieldMap.flatMap Prod.snd,
    location.index < 2 ^ 8
  aliasCounts : ∀ e ∈ (g.aliasIdsBySymbol g.store).entries, 1 + e.2.length < 2 ^ 16
  /-- A state behind the first 2 ^ 16 ones has the core of a state in front of it. -/
  primaryStates : ∀ i state, g.table.states[i]? = some state → 2 ^ 16 ≤ i →
    ∃ j state', j < i ∧ g.table.states[j]? = some state' ∧ state'.coreId = state.coreId
  subtypes : abiVersionWithReservedWords ≤ g.abiVersion →
    ∀ e ∈ g.supertypeStringMap g.supertypes, e.2.length < 2 ^ 16
  subtypeRows : abiVersionWithReservedWords ≤ g.abiVersion →
    totalLength ((g.supertypeStringMap g.supertypes).map Prod.snd).dropLast < 2 ^ 16
  mainLexStates : ∀ state ∈ g.mainLexTable.states, ∀ target ∈ state.targets, target < 2 ^ 16
  keywordLexStates : g.hasWordToken →
    ∀ state ∈ g.keywordLexTable.states, ∀ target ∈ state.targets, target < 2 ^ 16
  lexModes : ∀ state ∈ g.table.states, ¬ isEndOfNonTerminalExtra state →
    state.lexStateId < 2 ^ 16 ∧ state.externalLexStateId < 2 ^ 16 ∧
      (abiVersionWithReservedWords ≤ g.abiVersion → g.reservedWordSetId state < 2 ^ 16)
  aliasedProductions : g.maxAliasedProductionLength < 2 ^ 16
  reservedWords : abiVersionWithReservedWords ≤ g.abiVersion →
    ∀ state ∈ g.table.states, state.reservedWords.card < 2 ^ 16
  gotos : ∀ i state, g.table.states[i]? = some state →
    ∀ e ∈ state.nonterminalEntries.entries, gotoState i e.2 < 2 ^ 16
  shifts : ∀ state isRepetition, .shift state isRepetition ∈ g.table.referencedActions →
    state < 2 ^ 16
  actionLists : ∀ id ∈ g.table.referencedLists, (g.table.actions id).length < 2 ^ 8
  childCounts : ∀ item ∈ g.items, item.stepIndex < 2 ^ 8
  dynamicPrecedences : ∀ item ∈ g.items,
    -2 ^ 15 ≤ item.dynamicPrecedence ∧ item.dynamicPrecedence < 2 ^ 15
  productionIds : ∀ item ∈ g.items, item.productionId < 2 ^ 16

/-! ### Symbols and fields -/

variable {g : RenderInput}

theorem forall_zipIdx_lt_iff {α : Type} {xs : List α} {k bound : Nat} (hk : k ≤ bound) :
    (∀ e ∈ xs.zipIdx k, e.2 < bound) ↔ k + xs.length ≤ bound := by
  induction xs generalizing k with
  | nil => simpa using hk
  | cons x xs ih =>
    rw [zipIdx_cons, forall_mem_cons, length_cons]
    constructor
    · rintro ⟨hlt, hrest⟩
      have hle := (ih hlt).mp hrest
      omega
    · intro hle
      exact ⟨by omega, (ih (by omega)).mpr (by omega)⟩

theorem fits_addSymbolEnum :
    (∀ n ∈ g.addSymbolEnum, n.Fits) ↔ g.symbolEnum.length ≤ 2 ^ 16 := by
  rw [addSymbolEnum, Generator.symbolEnum, cons_append, zipIdx_cons, tail_cons,
    forall_mem_map]
  simp only [Written.fits_uint16]
  rw [forall_zipIdx_lt_iff (by norm_num), length_cons, Nat.zero_add, Nat.add_comm]

theorem fits_addFieldNameEnum :
    (∀ n ∈ g.addFieldNameEnum, n.Fits) ↔ g.fieldNames.length < 2 ^ 16 := by
  have hlt := @forall_zipIdx_lt_iff String g.fieldNames 0 (2 ^ 16 - 1) (Nat.zero_le _)
  rw [addFieldNameEnum, forall_mem_map]
  simp only [Written.fits_uint16]
  constructor
  · intro h
    have hle := hlt.mp fun e he => by have := h e he; omega
    omega
  · intro h e he
    have hlt' := hlt.mpr (by omega) e he
    omega

theorem mem_foldl_insertFieldName {name : String} (names : List String) : ∀ seen : List String,
    name ∈ names.foldl insertFieldName seen ↔ name ∈ seen ∨ name ∈ names := by
  induction names with
  | nil => simp
  | cons name' names ih =>
    intro seen
    have hinsert : name ∈ insertFieldName seen name' ↔ name ∈ seen ∨ name = name' := by
      rw [insertFieldName]
      split
      next hmem => exact ⟨.inl, fun h => h.elim id fun heq => heq ▸ hmem⟩
      next => rw [mem_orderedInsert, or_comm]
    rw [foldl_cons, ih, hinsert, mem_cons, or_assoc]

theorem fieldId_le {fieldMap : FieldMap} (hmap : fieldMap ∈ g.fieldMaps)
    {e : String × FieldLocation} (he : e ∈ flatFieldMap fieldMap) :
    g.fieldId e.1 ≤ g.fieldNames.length := by
  have hname : e.1 ∈ g.fieldNames := by
    rw [fieldNames, mem_foldl_insertFieldName, mem_flatMap]
    rw [flatFieldMap, mem_insertionSort, mem_flatMap] at he
    obtain ⟨entry, hentry, he⟩ := he
    obtain ⟨location, -, rfl⟩ := mem_map.mp he
    exact .inr ⟨fieldMap, hmap, mem_map_of_mem hentry⟩
  exact idxOf_lt_length_of_mem hname

theorem length_flatFieldMap (fieldMap : FieldMap) :
    (flatFieldMap fieldMap).length = (fieldMap.flatMap Prod.snd).length := by
  rw [flatFieldMap, length_insertionSort, length_flatMap, length_flatMap]
  simp only [length_map]

theorem forall_flatFieldMap {fieldMap : FieldMap} {P : FieldLocation → Prop} :
    (∀ e ∈ flatFieldMap fieldMap, P e.2) ↔ ∀ location ∈ fieldMap.flatMap Prod.snd, P location := by
  simp only [flatFieldMap, mem_insertionSort, mem_flatMap, mem_map]
  constructor
  · rintro h location ⟨entry, hentry, hlocation⟩
    exact h _ ⟨entry, hentry, location, hlocation, rfl⟩
  · rintro h _ ⟨entry, hentry, location, hlocation, rfl⟩
    exact h location ⟨entry, hentry, hlocation⟩

theorem fieldMapIds_snd :
    g.fieldMapIds.2 = RowTable.ofRows (firstOccurrences [[]] g.flatFieldMaps) :=
  (@RowTable.internAll_spec _ _ g.flatFieldMaps [[]]).1

theorem exists_fieldRows : ∃ rows, firstOccurrences [[]] g.flatFieldMaps = [] :: rows ∧
    ∀ row ∈ rows, row ∈ g.flatFieldMaps ∧ row ≠ [] := by
  obtain ⟨rows, hrows⟩ := isPrefix_firstOccurrences g.flatFieldMaps [[]]
  have hnodup := @nodup_firstOccurrences _ _ g.flatFieldMaps [[]] (nodup_singleton _)
  rw [← hrows, singleton_append, nodup_cons] at hnodup
  refine ⟨rows, hrows.symm, ?_⟩
  intro row hrow
  have hmem : row ∈ firstOccurrences [[]] g.flatFieldMaps := by
    rw [← hrows]
    exact mem_append_right _ hrow
  have hne : row ≠ [] := fun heq => hnodup.1 (heq ▸ hrow)
  rw [mem_firstOccurrences, mem_singleton] at hmem
  exact ⟨hmem.resolve_left hne, hne⟩

theorem layOut_injective {rows : List (List (String × FieldLocation))} (hnodup : rows.Nodup)
    {i j : Nat} {row : List (String × FieldLocation)} (hi : (i, row) ∈ layOut 0 rows)
    (hj : (j, row) ∈ layOut 0 rows) : i = j := by
  rw [← map_snd_layOut rows 0] at hnodup
  exact congrArg Prod.fst (inj_on_of_nodup_map hnodup hi hj rfl)

theorem fits_fieldMapSlices :
    (∀ e ∈ g.fieldMapIds.1.zip g.flatFieldMaps, 0 < e.2.length →
      e.1 < 2 ^ 16 ∧ e.2.length < 2 ^ 16) ↔
    (∀ row ∈ g.flatFieldMaps, row.length < 2 ^ 16) ∧
      totalLength (firstOccurrences [[]] g.flatFieldMaps).dropLast < 2 ^ 16 := by
  obtain ⟨htable, hindices⟩ := @RowTable.internAll_spec _ _ g.flatFieldMaps [[]]
  have hsnd : (g.fieldMapIds.1.zip g.flatFieldMaps).map Prod.snd = g.flatFieldMaps :=
    map_snd_zip (le_of_eq (RowTable.length_internAll _ _).symm)
  have hexists : ∀ row ∈ g.flatFieldMaps,
      ∃ index, (index, row) ∈ g.fieldMapIds.1.zip g.flatFieldMaps := by
    intro row hrow
    rw [← hsnd] at hrow
    obtain ⟨e, he, rfl⟩ := mem_map.mp hrow
    exact ⟨e.1, he⟩
  have hrows : ∀ e ∈ g.fieldMapIds.1.zip g.flatFieldMaps,
      e ∈ layOut 0 (firstOccurrences [[]] g.flatFieldMaps) := by
    intro e he
    have hmem := hindices e he
    rw [htable] at hmem
    exact hmem
  rw [← forall_layOut_lt_iff (by norm_num)]
  constructor
  · intro h
    constructor
    · intro row hrow
      obtain ⟨index, hindex⟩ := hexists row hrow
      rcases Nat.eq_zero_or_pos row.length with hzero | hpos
      · rw [hzero]
        norm_num
      · exact (h _ hindex hpos).2
    · rintro ⟨i, row⟩ he
      obtain ⟨rows, heq, hne⟩ := @exists_fieldRows g
      have hnodup := @nodup_firstOccurrences _ _ g.flatFieldMaps [[]] (nodup_singleton _)
      have he' := he
      rw [heq, layOut] at he'
      rcases mem_cons.mp he' with he' | he'
      · cases he'
        norm_num
      · have hrow : row ∈ rows := by
          rw [← map_snd_layOut rows _]
          exact mem_map_of_mem he'
        obtain ⟨hmem, hrow⟩ := hne row hrow
        obtain ⟨index, hindex⟩ := hexists row hmem
        rw [layOut_injective hnodup he (hrows _ hindex)]
        exact (h _ hindex (length_pos_of_ne_nil hrow)).1
  · rintro ⟨hlength, hindex⟩ e he -
    refine ⟨hindex e (hrows e he), hlength e.2 ?_⟩
    rw [← hsnd]
    exact mem_map_of_mem he

theorem forall_flatFieldMaps {P : List (String × FieldLocation) → Prop} (hnil : P []) :
    (∀ row ∈ g.flatFieldMaps, P row) ↔ ∀ fieldMap ∈ g.fieldMaps, P (flatFieldMap fieldMap) := by
  rw [flatFieldMaps, forall_mem_map]
  constructor
  · intro h fieldMap hmap
    by_cases hne : fieldMap = []
    · rw [hne]
      exact hnil
    · exact h fieldMap (mem_filter.mpr ⟨hmap, decide_eq_true hne⟩)
  · exact fun h fieldMap hmap => h fieldMap (mem_filter.mp hmap).1

theorem fits_addFieldSequences (hnames : g.fieldNames.length < 2 ^ 16) :
    (∀ n ∈ g.addFieldSequences, n.Fits) ↔
      (∀ fieldMap ∈ g.fieldMaps, (fieldMap.flatMap Prod.snd).length < 2 ^ 16) ∧
      totalLength (firstOccurrences [[]] g.flatFieldMaps).dropLast < 2 ^ 16 ∧
      ∀ fieldMap ∈ g.fieldMaps, ∀ location ∈ fieldMap.flatMap Prod.snd,
        location.index < 2 ^ 8 := by
  obtain ⟨rows, heq, hrows⟩ := @exists_fieldRows g
  have hdrop : (g.fieldMapIds.2.rows.drop 1).map Prod.snd = rows := by
    rw [fieldMapIds_snd, RowTable.ofRows, heq, layOut, drop_one, tail_cons,
      map_snd_layOut]
  have hslices := @fits_fieldMapSlices g
  rw [forall_flatFieldMaps (by norm_num)] at hslices
  simp only [length_flatFieldMap] at hslices
  -- The entries are those of the rows, so each of them is one of a field map.
  have hentries : (∀ row ∈ g.fieldMapIds.2.rows.drop 1, ∀ e ∈ row.2,
      g.fieldId e.1 < 2 ^ 16 ∧ e.2.index < 2 ^ 8) ↔
      ∀ fieldMap ∈ g.fieldMaps, ∀ location ∈ fieldMap.flatMap Prod.snd,
        location.index < 2 ^ 8 := by
    have hmaps := @forall_flatFieldMaps g (fun row => ∀ e ∈ row, e.2.index < 2 ^ 8)
      (fun e he => absurd he not_mem_nil)
    simp only [forall_flatFieldMap (P := fun location => location.index < 2 ^ 8)] at hmaps
    rw [← hmaps]
    constructor
    · intro h row hrow e he
      have hmem : row ∈ firstOccurrences [[]] g.flatFieldMaps :=
        mem_firstOccurrences.mpr (.inr hrow)
      rw [heq] at hmem
      rcases mem_cons.mp hmem with rfl | hmem
      · exact absurd he not_mem_nil
      · rw [← hdrop] at hmem
        obtain ⟨pair, hpair, rfl⟩ := mem_map.mp hmem
        exact (h pair hpair e he).2
    · intro h pair hpair e he
      have hmem : pair.2 ∈ rows := hdrop ▸ mem_map_of_mem hpair
      have hflat := (hrows _ hmem).1
      refine ⟨?_, h _ hflat e he⟩
      obtain ⟨fieldMap, hmap, hrow⟩ := mem_map.mp hflat
      rw [← hrow] at he
      exact lt_of_le_of_lt (fieldId_le (mem_filter.mp hmap).1 he) hnames
  rw [addFieldSequences, forall_mem_append, ← and_assoc, ← hslices, ← hentries]
  simp only [forall_mem_flatMap, mem_filter, decide_eq_true_eq, forall_mem_cons,
    not_mem_nil, false_implies, implies_true, and_true, Written.fits_uint16,
    Written.fits_uint8, and_imp]

/-! ### States -/

theorem primaryStateIds_eq (states : List ParseState) :
    ∀ {seen : List ParseState} {firstStates : IndexMap Nat Nat},
      (∀ core, firstStates.get? core = seen.findIdx? (·.coreId == core)) →
      primaryStateIds firstStates (states.zipIdx seen.length) =
        states.map fun state => (seen ++ states).findIdx (·.coreId == state.coreId) := by
  induction states with
  | nil => exact fun _ => rfl
  | cons state states ih =>
    intro seen firstStates hfirst
    have hget : ∀ core, (firstStates.insertNew state.coreId seen.length).get? core =
        (seen ++ [state]).findIdx? (·.coreId == core) := by
      intro core
      rw [IndexMap.get?_insertNew, findIdx?_append, hfirst, hfirst]
      split
      next heq =>
        subst heq
        cases seen.findIdx? (·.coreId == state.coreId) with
        | none | some i => simp
      next hne => simp [hne]
    have hrest := ih hget
    rw [length_append, length_singleton, append_assoc,
      singleton_append] at hrest
    have hexists : ∃ x ∈ seen ++ [state], (x.coreId == state.coreId) = true :=
      ⟨state, mem_append_right _ mem_cons_self, beq_self_eq_true _⟩
    have hfound : (seen ++ [state]).findIdx (·.coreId == state.coreId) =
        (seen ++ state :: states).findIdx (·.coreId == state.coreId) := by
      rw [append_cons seen state states, @List.findIdx_append _ _ _ states,
        if_pos (findIdx_lt_length_of_exists hexists)]
    rw [zipIdx_cons, primaryStateIds, map_cons, hrest, hget,
      findIdx?_eq_some_of_exists hexists, Option.getD_some, hfound]

theorem forall_primaryStateIds_lt {bound : Nat} (states : List ParseState) :
    (∀ id ∈ primaryStateIds .empty states.zipIdx, id < bound) ↔
      ∀ i state, states[i]? = some state → bound ≤ i →
        ∃ j state', j < i ∧ states[j]? = some state' ∧ state'.coreId = state.coreId := by
  have heq := @primaryStateIds_eq states [] .empty fun _ => rfl
  rw [length_nil, nil_append] at heq
  rw [heq, forall_mem_map]
  constructor
  · intro h i state hstate hle
    have hmem := mem_of_getElem? hstate
    have hlt := findIdx_lt_length_of_exists (p := (·.coreId == state.coreId))
      ⟨state, hmem, beq_self_eq_true _⟩
    have hcore := findIdx_getElem (w := hlt)
    exact ⟨_, _, lt_of_lt_of_le (h state hmem) hle, getElem?_eq_getElem hlt, eq_of_beq hcore⟩
  · intro h state hmem
    have hlt := findIdx_lt_length_of_exists (p := (·.coreId == state.coreId))
      ⟨state, hmem, beq_self_eq_true _⟩
    have hcore := eq_of_beq (findIdx_getElem (w := hlt))
    by_contra hge
    obtain ⟨j, state', hj, hget, heq⟩ :=
      h _ _ (getElem?_eq_getElem hlt) (Nat.le_of_not_lt hge)
    obtain ⟨hlt', rfl⟩ := List.getElem?_eq_some_iff.mp hget
    exact beq_eq_false_iff_ne.mp (List.not_of_lt_findIdx hj) (heq.trans hcore)

/-! ### Supertypes -/

theorem layOut_map_supertypeRows (entries : List (String × List String)) : ∀ rowId,
    (supertypeRows rowId entries).map (fun row => (row.2.1, row.2.2)) =
      layOut rowId (entries.map Prod.snd) := by
  induction entries with
  | nil => exact fun _ => rfl
  | cons e entries ih => exact fun rowId => congrArg ((rowId, e.2) :: ·) (ih _)

theorem fits_addSupertypeSlices :
    (∀ n ∈ g.addSupertypeSlices, n.Fits) ↔ (abiVersionWithReservedWords ≤ g.abiVersion →
      (∀ e ∈ g.supertypeStringMap g.supertypes, e.2.length < 2 ^ 16) ∧
        totalLength ((g.supertypeStringMap g.supertypes).map Prod.snd).dropLast < 2 ^ 16) := by
  rw [addSupertypeSlices]
  split
  next habi =>
    have hlayout := layOut_map_supertypeRows (g.supertypeStringMap g.supertypes) 0
    have hentries := map_supertypeRows (g.supertypeStringMap g.supertypes) 0
    rw [← forall_layOut_lt_iff (by norm_num), ← hlayout, forall_mem_map]
    have hlength : (∀ e ∈ g.supertypeStringMap g.supertypes, e.2.length < 2 ^ 16) ↔
        ∀ row ∈ g.rows g.supertypes, row.2.2.length < 2 ^ 16 := by
      conv_lhs => rw [← hentries, forall_mem_map]
      rfl
    rw [hlength]
    simp only [forall_mem_flatMap, forall_mem_cons, not_mem_nil, false_implies,
      implies_true, and_true, Written.fits_uint16, habi, true_implies]
    exact ⟨fun h => ⟨fun row hrow => (h row hrow).2, fun row hrow => (h row hrow).1⟩,
      fun h row hrow => ⟨h.2 row hrow, h.1 row hrow⟩⟩
  next habi => simp [habi]

/-! ### Lex states -/

theorem fits_transitionStmts (largeSets : List CharacterSet)
    (actions : List (CharacterSet × AdvanceAction)) : ∀ ruledOut : CharacterSet,
    (∀ stmt ∈ transitionStmts largeSets ruledOut actions, ∀ n ∈ lexStmtNumbers stmt, n.Fits) ↔
      ∀ action ∈ actions.map Prod.snd, action.state < 2 ^ 16 := by
  induction actions with
  | nil => simp [transitionStmts]
  | cons transition actions ih =>
    intro ruledOut
    rw [transitionStmts, forall_mem_cons, ih, map_cons, forall_mem_cons]
    simp [lexStmtNumbers]

theorem fits_advanceMapEntries {transition : CharacterSet × AdvanceAction}
    (hsimple : isSimpleTransition transition) :
    (∀ pair ∈ advanceMapEntries transition, pair.1 < 2 ^ 16 ∧ pair.2 < 2 ^ 16) ↔
      (transition.1.charRanges ≠ [] → transition.2.state < 2 ^ 16) := by
  rw [isSimpleTransition, Bool.and_eq_true, all_eq_true] at hsimple
  have hranges := hsimple.2
  simp only [Bool.and_eq_true, decide_eq_true_eq] at hranges
  rw [advanceMapEntries, forall_mem_flatMap]
  constructor
  · intro h hne
    obtain ⟨r, hr⟩ := exists_mem_of_ne_nil _ hne
    exact (h r hr _ mem_cons_self).2
  · intro h r hr pair hpair
    have hstate := h (ne_nil_of_mem hr)
    have hlt := hranges r hr
    have hle := transition.1.le_of_mem_charRanges hr
    rcases mem_cons.mp hpair with rfl | hpair
    · exact ⟨lt_of_le_of_lt hle hlt.2, hstate⟩
    · split at hpair
      next =>
        rw [mem_singleton.mp hpair]
        exact ⟨hlt.2, hstate⟩
      next => exact absurd hpair not_mem_nil

theorem fits_addLexFunction (table : LexTable) :
    (∀ n ∈ g.addLexFunction table, n.Fits) ↔
      ∀ state ∈ table.states, ∀ target ∈ state.targets, target < 2 ^ 16 := by
  rw [addLexFunction, forall_mem_flatMap]
  refine forall₂_congr fun state _ => ?_
  rw [forall_mem_flatMap, lexStateCode, LexState.targets, forall_mem_map,
    forall_mem_append, forall_mem_append, fits_transitionStmts, forall_mem_append,
    forall_mem_append]
  refine and_congr_left' (and_congr ?_ ?_)
  · cases state.eofAction with
    | none => simp
    | some action => simp [lexStmtNumbers]
  · have hleading : (∀ pair ∈ (state.advanceActions.take
        (leadingSimpleTransitionCount state.advanceActions)).flatMap advanceMapEntries,
          pair.1 < 2 ^ 16 ∧ pair.2 < 2 ^ 16) ↔
        ∀ transition ∈ state.advanceActions.take
          (leadingSimpleTransitionCount state.advanceActions),
            transition.1.charRanges ≠ [] → transition.2.state < 2 ^ 16 := by
      rw [forall_mem_flatMap]
      refine forall₂_congr fun transition hmem => ?_
      exact fits_advanceMapEntries (isSimple_of_mem_leading transition hmem)
    rw [forall_mem_map]
    simp only [mem_filter, decide_eq_true_eq, and_imp]
    rw [← hleading]
    split
    next hzero => simp [hzero]
    next =>
      rw [forall_mem_singleton, lexStmtNumbers, forall_mem_flatMap]
      simp only [forall_mem_cons, not_mem_nil, false_implies, implies_true, and_true,
        Written.fits_uint16]

theorem fits_addLexModes :
    (∀ n ∈ g.addLexModes, n.Fits) ↔ ∀ state ∈ g.table.states, ¬ isEndOfNonTerminalExtra state →
      state.lexStateId < 2 ^ 16 ∧ state.externalLexStateId < 2 ^ 16 ∧
        (abiVersionWithReservedWords ≤ g.abiVersion → g.reservedWordSetId state < 2 ^ 16) := by
  rw [addLexModes, forall_mem_flatMap]
  refine forall₂_congr fun state _ => ?_
  split
  next hend => simp [hend]
  next hend =>
    have hexternal : (∀ n ∈ (if state.externalLexStateId > 0 then
        [Written.uint16 state.externalLexStateId] else []), n.Fits) ↔
        state.externalLexStateId < 2 ^ 16 := by
      split
      next => simp
      next hzero =>
        rw [Nat.eq_zero_of_not_pos hzero]
        simp
    have hreserved : (∀ n ∈ (if abiVersionWithReservedWords ≤ g.abiVersion ∧
        g.reservedWordSetId state ≠ 0 then [Written.uint16 (g.reservedWordSetId state)] else []),
          n.Fits) ↔
        (abiVersionWithReservedWords ≤ g.abiVersion → g.reservedWordSetId state < 2 ^ 16) := by
      split
      next habi => simp [habi.1]
      next habi =>
        refine iff_of_true (fun _ h => absurd h not_mem_nil) fun h => ?_
        rw [Decidable.not_not.mp fun hne => habi ⟨h, hne⟩]
        norm_num
    rw [cons_append, forall_mem_cons, forall_mem_append, Written.fits_uint16,
      forall_prop_of_true hend, hexternal, hreserved]

theorem fits_addAliasCounts : (∀ n ∈ g.addAliasCounts, n.Fits) ↔
    ∀ e ∈ (g.aliasIdsBySymbol g.store).entries, 1 + e.2.length < 2 ^ 16 := by
  simp only [addAliasCounts, forall_mem_map, Written.fits_uint16]

theorem foldr_max_lt_iff {sizes : List Nat} {bound : Nat} (hbound : 0 < bound) :
    sizes.foldr max 0 < bound ↔ ∀ size ∈ sizes, size < bound := by
  induction sizes with
  | nil => simpa using hbound
  | cons size sizes ih => rw [foldr_cons, max_lt_iff, ih, forall_mem_cons]

theorem fits_addParserExport : (∀ n ∈ g.addParserExport, n.Fits) ↔
    g.maxAliasedProductionLength < 2 ^ 16 ∧ (abiVersionWithReservedWords ≤ g.abiVersion →
      ∀ state ∈ g.table.states, state.reservedWords.card < 2 ^ 16) := by
  rw [addParserExport, forall_mem_cons, Written.fits_uint16]
  refine and_congr_right fun _ => ?_
  split
  next habi =>
    rw [forall_mem_singleton, Written.fits_uint16, foldr_max_lt_iff (by norm_num), forall_mem_map,
      forall_prop_of_true habi]
    constructor
    · exact fun h state hstate => h _ (mem_firstOccurrences.mpr (.inr (mem_map_of_mem hstate)))
    · intro h set hset
      rcases mem_firstOccurrences.mp hset with hset | hset
      · rw [mem_singleton.mp hset, Finset.card_empty]
        norm_num
      · obtain ⟨state, hstate, rfl⟩ := mem_map.mp hset
        exact h state hstate
  next habi => exact iff_of_true (fun _ h => absurd h not_mem_nil) fun h => absurd h habi

end RenderInput

/-! ### Action lists -/

section ActionLists

variable {table : ParseTable}

theorem keys_getParseActionListId (lists : ParseActionLists) (id id' : ActionListId) :
    ((getParseActionListId table lists id).2.entries.get? id').isSome ↔
      (lists.entries.get? id').isSome ∨ id' = id := by
  rw [getParseActionListId]
  split
  next index hindex =>
    refine ⟨.inl, fun h => h.elim (fun h => h) ?_⟩
    rintro rfl
    rw [hindex]
    rfl
  next =>
    rw [IndexMap.get?_insert]
    split
    next heq => simp [heq]
    next hne => simp [Ne.symm hne]

theorem keys_terminalIndices {entries : List (Symbol × ActionListId)} {id : ActionListId} :
    ∀ {lists : ParseActionLists},
      ((terminalIndices table lists entries).2.entries.get? id).isSome ↔
        (lists.entries.get? id).isSome ∨ id ∈ entries.map Prod.snd := by
  induction entries with
  | nil => simp [terminalIndices]
  | cons e entries ih =>
    intro lists
    have hrest := @ih (getParseActionListId table lists e.2).2
    rw [keys_getParseActionListId] at hrest
    rw [map_cons, mem_cons, ← or_assoc]
    exact hrest

theorem keys_stateIndices {states : List ParseState} {id : ActionListId} :
    ∀ {lists : ParseActionLists},
      ((stateIndices table lists states).2.entries.get? id).isSome ↔
        (lists.entries.get? id).isSome ∨
          id ∈ states.flatMap fun state => state.terminalEntries.entries.map Prod.snd := by
  induction states with
  | nil => simp [stateIndices]
  | cons state states ih =>
    intro lists
    have hrest := @ih (terminalIndices table lists (sortedTerminals table state)).2
    have hsorted : id ∈ (sortedTerminals table state).map Prod.snd ↔
        id ∈ state.terminalEntries.entries.map Prod.snd :=
      ((perm_insertionSort _ _).map Prod.snd).mem_iff
    rw [keys_terminalIndices, hsorted] at hrest
    rw [flatMap_cons, mem_append, ← or_assoc]
    exact hrest

/-- **The lists that are written** are those that the table refers to. -/
theorem mem_keys_allIndices {id : ActionListId} :
    id ∈ (allIndices table).2.entries.keys ↔ id ∈ table.referencedLists := by
  have hkeys : id ∈ (allIndices table).2.entries.keys ↔
      ((allIndices table).2.entries.get? id).isSome := by
    rw [IndexMap.keys, mem_map, Option.isSome_iff_exists]
    constructor
    · rintro ⟨e, he, rfl⟩
      exact ⟨e.2, IndexMap.mem_entries_iff.mp he⟩
    · rintro ⟨index, hindex⟩
      exact ⟨(id, index), IndexMap.mem_entries_iff.mpr hindex, rfl⟩
  have hall := @keys_stateIndices table table.states id
    (getParseActionListId table ⟨.empty, 0⟩ ⟨0, false⟩).2
  rw [keys_getParseActionListId] at hall
  rw [hkeys, ParseTable.referencedLists, mem_cons]
  refine hall.trans (or_congr_left ⟨fun h => h.resolve_left ?_, .inr⟩)
  exact fun hnone => absurd hnone (by simp [IndexMap.get?, IndexMap.empty, lookupEntry])

theorem LaidOut.last_eq {es : List (ActionListId × Nat)} {last : Nat} : ∀ {first : Nat},
    LaidOut table first es last →
      last = first + ((es.map Prod.fst).map fun id => 1 + (table.actions id).length).sum := by
  induction es with
  | nil => exact fun h => h.symm
  | cons e es ih =>
    intro first h
    rw [ih h.2, map_cons, map_cons, sum_cons, Nat.add_assoc]

theorem nextIndex_allIndices (table : ParseTable) :
    (allIndices table).2.nextIndex =
      (table.referencedLists.dedup.map fun id => 1 + (table.actions id).length).sum := by
  have hvalid : LaidOut table 0 _ _ := (allIndices_spec table).1
  have hnodup : (allIndices table).2.entries.keys.Nodup := (allIndices table).2.entries.nodup
  have hperm : (allIndices table).2.entries.keys.Perm table.referencedLists.dedup := by
    rw [perm_ext_iff_of_nodup hnodup (nodup_dedup _)]
    intro id
    rw [mem_dedup, mem_keys_allIndices]
  rw [hvalid.last_eq, Nat.zero_add]
  exact (hperm.map _).sum_eq

/-- **The offsets of action lists** are below the number that is checked. -/
theorem index_lt {lists : ParseActionLists} (h : lists.Valid table) {id : ActionListId}
    {index : Nat} (hget : lists.entries.get? id = some index) : index < lists.nextIndex :=
  (LaidOut.bounds h _ (IndexMap.mem_entries_iff.mpr hget)).2

end ActionLists

/-! ### Small states -/

section SmallStates

variable {table : ParseTable} {state : ParseState} {i : Nat} {indices : List (Symbol × Nat)}

theorem ne_nil_of_mem_valuesWithSymbols {group : (Nat × SymbolType) × List Symbol}
    (h : group ∈ valuesWithSymbols i state indices) : group.2 ≠ [] := by
  have hfold : ∀ (entries : List (Symbol × (Nat × SymbolType)))
      (m : IndexMap (Nat × SymbolType) (List Symbol)),
      (∀ value symbols, m.get? value = some symbols → symbols ≠ []) →
      ∀ value symbols, (entries.foldl pushSymbol m).get? value = some symbols →
        symbols ≠ [] := by
    intro entries
    induction entries with
    | nil => exact fun _ h => h
    | cons e entries ih =>
      intro m hm
      refine ih _ fun value symbols hget => ?_
      rw [pushSymbol, IndexMap.get?_insert] at hget
      split at hget
      · cases hget
        simp
      · exact hm value symbols hget
  rw [valuesWithSymbols, mem_insertionSort] at h
  exact hfold _ .empty (fun _ _ h => by cases h) group.1 group.2 (IndexMap.mem_entries_iff.mp h)

theorem forall_valuesWithSymbols {P : Nat → Prop} :
    (∀ group ∈ valuesWithSymbols i state indices, P group.1.1) ↔
      (∀ e ∈ indices, P e.2) ∧
        ∀ e ∈ state.nonterminalEntries.entries, P (gotoState i e.2) := by
  obtain ⟨hmem, hexists, -, -⟩ := @valuesWithSymbols_spec state i indices
  have hentries : (∀ e ∈ smallEntries i state indices, P e.2.1) ↔
      (∀ e ∈ indices, P e.2) ∧
        ∀ e ∈ state.nonterminalEntries.entries, P (gotoState i e.2) := by
    rw [smallEntries, forall_mem_append, forall_mem_map, forall_mem_map]
  rw [← hentries]
  constructor
  · intro h e he
    obtain ⟨group, hgroup, heq, -⟩ := hexists e he
    rw [← heq]
    exact h group hgroup
  · intro h group hgroup
    obtain ⟨s, hs⟩ := exists_mem_of_ne_nil _ (ne_nil_of_mem_valuesWithSymbols hgroup)
    exact h _ ((hmem group hgroup s).mp hs)

theorem getElem_length_takeWhile {α : Type} {p : α → Bool} {xs : List α}
    (h : (xs.takeWhile p).length < xs.length) : p xs[(xs.takeWhile p).length] = false := by
  have hlength : (xs.takeWhile p).length = xs.findIdx fun x => !p x := by
    rw [takeWhile_eq_take_findIdx_not, length_take,
      Nat.min_eq_left findIdx_le_length]
  rw [hlength] at h
  have hfound := findIdx_getElem (w := h)
  simpa only [hlength, Bool.not_eq_true'] using hfound

/-- **A small state has few entries**: behind the first two states, the sizes descend. -/
theorem entryCount_le (hsorted : (table.states.drop 2).Pairwise fun state next =>
    next.entryCount ≤ state.entryCount) (hstate : table.states[i]? = some state)
    (hsmall : largeStateCount table ≤ i) : state.entryCount ≤ smallStateThreshold := by
  obtain ⟨hlt, rfl⟩ := List.getElem?_eq_some_iff.mp hstate
  have hfirst := lt_of_le_of_lt hsmall hlt
  rw [← @List.length_zipIdx _ table.states 0] at hfirst
  -- The first small state is behind the first two states, and it is below the threshold.
  have hstop := getElem_length_takeWhile hfirst
  change (decide ((table.states.zipIdx[largeStateCount table]).2 ≤ 1) ||
    decide ((table.states.zipIdx[largeStateCount table]).1.entryCount >
      min smallStateThreshold (table.symbols.length / 2))) = false at hstop
  rw [getElem_zipIdx, Nat.zero_add, Bool.or_eq_false_iff, decide_eq_false_iff_not,
    decide_eq_false_iff_not, Nat.not_le, Nat.not_lt] at hstop
  obtain ⟨hbehind, hstop⟩ := hstop
  have hcount : table.states[largeStateCount table].entryCount ≤ smallStateThreshold :=
    le_trans hstop (Nat.min_le_left _ _)
  rcases Nat.eq_or_lt_of_le hsmall with heq | hlt'
  · simpa only [heq] using hcount
  · have hle := pairwise_iff_getElem.mp hsorted (largeStateCount table - 2) (i - 2)
      (by rw [length_drop]; omega) (by rw [length_drop]; omega) (by omega)
    simp only [getElem_drop, Nat.add_sub_cancel' hbehind,
      Nat.add_sub_cancel' (show 2 ≤ i by omega)] at hle
    exact hle.trans hcount

end SmallStates

/-! ### Parse tables -/

namespace RenderInput

variable {g : RenderInput}

theorem symbolId_lt (hsymbols : g.symbolEnum.length ≤ 2 ^ 16) (s : Symbol) :
    symbolId g.table s < 2 ^ 16 := by
  have hlength : (g.table.symbols.filter (· ≠ Symbol.eof)).length < 2 ^ 16 := by
    rw [Generator.symbolEnum, length_append, length_cons, length_map] at hsymbols
    exact lt_of_lt_of_le (Nat.lt_succ_self _) (le_trans (Nat.le_add_right _ _) hsymbols)
  have hget : ∀ s, ((symbolOrder g.table).get? s).getD 0 < 2 ^ 16 := by
    intro s
    have hkeys : (((g.table.symbols.filter (· ≠ Symbol.eof)).zipIdx 1).map Prod.fst).Nodup := by
      rw [zipIdx_map_fst]
      exact g.nodup.filter _
    rw [symbolOrder, IndexMap.get?_foldl_insert s _ hkeys, IndexMap.get?_insert]
    cases hlookup : lookupEntry s ((g.table.symbols.filter (· ≠ Symbol.eof)).zipIdx 1) with
    | none =>
      split <;> simp [IndexMap.get?, IndexMap.empty, lookupEntry]
    | some id =>
      have hlt := snd_lt_add_of_mem_zipIdx (lookupEntry_eq_some hlookup)
      rw [Option.some_or, Option.getD_some]
      omega
  rw [symbolId]
  split
  · exact hget _
  · exact hget s

variable {state : ParseState} {i : Nat} {indices : List (Symbol × Nat)}

theorem fits_largeRowNumbers :
    (∀ n ∈ largeRowNumbers i state indices, n.Fits) ↔
      (∀ e ∈ indices, e.2 < 2 ^ 16) ∧
        ∀ e ∈ state.nonterminalEntries.entries, gotoState i e.2 < 2 ^ 16 := by
  rw [largeRowNumbers, forall_mem_append, forall_mem_map, forall_mem_map, and_comm]
  simp only [Written.fits_uint16, sortedEntries, mem_insertionSort]

theorem fits_smallStateNumbers (hsymbols : g.symbolEnum.length ≤ 2 ^ 16)
    (hcount : (smallEntries i state indices).length ≤ smallStateThreshold) :
    (∀ n ∈ g.smallStateNumbers (valuesWithSymbols i state indices), n.Fits) ↔
      (∀ e ∈ indices, e.2 < 2 ^ 16) ∧
        ∀ e ∈ state.nonterminalEntries.entries, gotoState i e.2 < 2 ^ 16 := by
  obtain ⟨-, -, hgroups, hgroup⟩ := @valuesWithSymbols_spec state i indices
  have hthreshold : smallStateThreshold < 2 ^ 16 := by decide
  rw [smallStateNumbers, forall_mem_cons, forall_mem_flatMap, Written.fits_uint16,
    ← forall_valuesWithSymbols (P := fun value => value < 2 ^ 16)]
  constructor
  · rintro ⟨-, h⟩ group hmem
    exact (Written.fits_uint16 _).mp (h group hmem _ mem_cons_self)
  · intro h
    refine ⟨by omega, fun group hmem => ?_⟩
    have hle := hgroup group hmem
    rw [groupNumbers, forall_mem_cons, forall_mem_cons, forall_mem_map]
    refine ⟨(Written.fits_uint16 _).mpr (h group hmem), ?_, fun symbol _ => ?_⟩
    · rw [Written.fits_uint16]
      omega
    · rw [Written.fits_uint16]
      exact symbolId_lt hsymbols symbol

theorem mem_indexedStates {e : (ParseState × List (Symbol × Nat)) × Nat} :
    e ∈ g.indexedStates ↔ g.table.states[e.2]? = some e.1.1 ∧
      (allIndices g.table).1[e.2]? = some e.1.2 := by
  rw [indexedStates, mem_zipIdx_iff_getElem?, getElem?_zip_eq_some]

/-- **The states of the parse table**: what is written for them fits if the targets of their gotos
do. -/
theorem fits_states (hsymbols : g.symbolEnum.length ≤ 2 ^ 16)
    (hactions : (allIndices g.table).2.nextIndex < 2 ^ 16 - 1) :
    ((∀ n ∈ (g.indexedStates.take (largeStateCount g.table)).flatMap
        (fun e => largeRowNumbers e.2 e.1.1 e.1.2), n.Fits) ∧
      ∀ n ∈ (smallStates g.table).flatMap g.smallStateNumbers, n.Fits) ↔
    ∀ i state, g.table.states[i]? = some state →
      ∀ e ∈ state.nonterminalEntries.entries, gotoState i e.2 < 2 ^ 16 := by
  obtain ⟨hvalid, -, -⟩ := allIndices_spec g.table
  have hindices : ∀ e ∈ g.indexedStates,
      AreIndices (allIndices g.table).2 (sortedTerminals g.table e.1.1) e.1.2 := by
    intro e he
    obtain ⟨hstate, hget⟩ := mem_indexedStates.mp he
    obtain ⟨indices, hget', hare⟩ := exists_stateIndices hstate
    rw [hget] at hget'
    cases hget'
    exact hare
  have hoffsets : ∀ e ∈ g.indexedStates, ∀ index ∈ e.1.2, index.2 < 2 ^ 16 := by
    intro e he index hindex
    obtain ⟨id, -, hget⟩ := (hindices e he).mem_iff.mp hindex
    have hlt := index_lt hvalid hget
    omega
  have hcount : ∀ e ∈ g.indexedStates.drop (largeStateCount g.table),
      (smallEntries e.2 e.1.1 e.1.2).length ≤ smallStateThreshold := by
    intro e he
    obtain ⟨k, hk⟩ := getElem?_of_mem he
    rw [getElem?_drop, indexedStates, getElem?_zipIdx] at hk
    obtain ⟨pair, -, rfl⟩ := Option.map_eq_some_iff.mp hk
    have hmem := mem_of_mem_drop he
    have hlength := (hindices _ hmem).keys_perm.length_eq
    have hle := entryCount_le g.sorted (mem_indexedStates.mp hmem).1
      (show largeStateCount g.table ≤ 0 + (largeStateCount g.table + k) by omega)
    rw [length_map, IndexMap.keys, length_map] at hlength
    rw [smallEntries, length_append, length_map, length_map, hlength]
    exact hle
  have hlarge : (∀ n ∈ (g.indexedStates.take (largeStateCount g.table)).flatMap
        (fun e => largeRowNumbers e.2 e.1.1 e.1.2), n.Fits) ↔
      ∀ e ∈ g.indexedStates.take (largeStateCount g.table),
        ∀ e' ∈ e.1.1.nonterminalEntries.entries, gotoState e.2 e'.2 < 2 ^ 16 := by
    rw [forall_mem_flatMap]
    refine forall₂_congr fun e he => fits_largeRowNumbers.trans ?_
    exact and_iff_right (hoffsets e (mem_of_mem_take he))
  have hsmall : (∀ n ∈ (smallStates g.table).flatMap g.smallStateNumbers, n.Fits) ↔
      ∀ e ∈ g.indexedStates.drop (largeStateCount g.table),
        ∀ e' ∈ e.1.1.nonterminalEntries.entries, gotoState e.2 e'.2 < 2 ^ 16 := by
    rw [forall_mem_flatMap, smallStates, forall_mem_map]
    refine forall₂_congr fun e he => (fits_smallStateNumbers hsymbols (hcount e he)).trans ?_
    exact and_iff_right (hoffsets e (mem_of_mem_drop he))
  rw [hlarge, hsmall, ← forall_mem_append, take_append_drop]
  constructor
  · intro h i state hstate
    obtain ⟨indices, hget, -⟩ := exists_stateIndices hstate
    exact h ((state, indices), i) (mem_indexedStates.mpr ⟨hstate, hget⟩)
  · exact fun h e he => h e.2 e.1.1 (mem_indexedStates.mp he).1

theorem fits_actionNumbers (hsymbols : g.symbolEnum.length ≤ 2 ^ 16) {actions : List ParseAction} :
    (∀ action ∈ actions, ∀ n ∈ g.actionNumbers action, n.Fits) ↔
      (∀ state isRepetition, .shift state isRepetition ∈ actions → state < 2 ^ 16) ∧
        ∀ symbol childCount dynamicPrecedence productionId,
          .reduce symbol childCount dynamicPrecedence productionId ∈ actions →
            childCount < 2 ^ 8 ∧ (-2 ^ 15 ≤ dynamicPrecedence ∧ dynamicPrecedence < 2 ^ 15) ∧
              productionId < 2 ^ 16 := by
  constructor
  · intro h
    constructor
    · intro state isRepetition hmem
      have hfits := h _ hmem
      rw [actionNumbers, forall_mem_singleton, Written.fits_uint16] at hfits
      exact hfits
    · intro symbol childCount dynamicPrecedence productionId hmem
      have hfits := h _ hmem
      simp only [actionNumbers, forall_mem_cons, Written.fits_uint8, Written.fits_uint16,
        Written.fits_int16] at hfits
      exact ⟨hfits.2.1, hfits.2.2.1, hfits.2.2.2.1⟩
  · rintro ⟨hshift, hreduce⟩ action hmem
    cases action with
    | accept | recover | shiftExtra => exact fun n hn => absurd hn not_mem_nil
    | shift state isRepetition =>
      rw [actionNumbers, forall_mem_singleton, Written.fits_uint16]
      exact hshift _ _ hmem
    | reduce symbol childCount dynamicPrecedence productionId =>
      obtain ⟨hcount, hprec, hproduction⟩ := hreduce _ _ _ _ hmem
      simp only [actionNumbers, forall_mem_cons, Written.fits_uint8, Written.fits_uint16,
        Written.fits_int16]
      exact ⟨symbolId_lt hsymbols symbol, hcount, hprec, hproduction,
        fun n hn => absurd hn not_mem_nil⟩

theorem forall_reduces {P : Nat → Int → Nat → Prop} :
    (∀ symbol childCount dynamicPrecedence productionId,
      .reduce symbol childCount dynamicPrecedence productionId ∈ g.table.referencedActions →
        P childCount dynamicPrecedence productionId) ↔
      ∀ item ∈ g.items,
        P (item.stepIndex % 2 ^ 16) item.dynamicPrecedence (item.productionId % 2 ^ 16) := by
  constructor
  · exact fun h item hitem => h _ _ _ _ (g.kept item hitem)
  · intro h symbol childCount dynamicPrecedence productionId hmem
    obtain ⟨item, hitem, heq⟩ := g.reduces _ _ _ _ hmem
    cases heq
    exact h item hitem

/-- **The action lists.** -/
theorem fits_actionLists (hsymbols : g.symbolEnum.length ≤ 2 ^ 16) :
    (∀ n ∈ (allIndices g.table).2.entries.entries.flatMap fun e => g.actionListNumbers e.1,
      n.Fits) ↔
      (∀ id ∈ g.table.referencedLists, (g.table.actions id).length < 2 ^ 8) ∧
        (∀ state isRepetition, .shift state isRepetition ∈ g.table.referencedActions →
          state < 2 ^ 16) ∧
        ∀ item ∈ g.items, item.stepIndex % 2 ^ 16 < 2 ^ 8 ∧
          (-2 ^ 15 ≤ item.dynamicPrecedence ∧ item.dynamicPrecedence < 2 ^ 15) ∧
            item.productionId % 2 ^ 16 < 2 ^ 16 := by
  have hreduces := @forall_reduces g fun childCount dynamicPrecedence productionId =>
    childCount < 2 ^ 8 ∧ (-2 ^ 15 ≤ dynamicPrecedence ∧ dynamicPrecedence < 2 ^ 15) ∧
      productionId < 2 ^ 16
  have hlists : (∀ n ∈ (allIndices g.table).2.entries.entries.flatMap
      fun e => g.actionListNumbers e.1, n.Fits) ↔
      ∀ id ∈ g.table.referencedLists, ∀ n ∈ g.actionListNumbers id, n.Fits := by
    rw [forall_mem_flatMap]
    constructor
    · intro h id hid
      obtain ⟨e, he, rfl⟩ := mem_map.mp (mem_keys_allIndices.mpr hid)
      exact h e he
    · exact fun h e he => h e.1 (mem_keys_allIndices.mp (mem_map_of_mem he))
  rw [hlists, ← hreduces, ← fits_actionNumbers hsymbols, ParseTable.referencedActions]
  simp only [actionListNumbers, forall_mem_cons, forall_mem_flatMap, Written.fits_uint8]
  exact ⟨fun h => ⟨fun id hid => (h id hid).1, fun id hid => (h id hid).2⟩,
    fun h id hid => ⟨h.1 id hid, h.2 id hid⟩⟩

/-! ### All numbers -/

theorem renderCCode_eq (habi : ¬ g.UnknownAbi) (hactions : ¬ g.TooManyActions) :
    g.renderCCode = .ok (g.addSymbolEnum ++ g.addFieldNameEnum ++ g.addFieldSequences ++
      g.addAliasCounts ++
      (primaryStateIds .empty g.table.states.zipIdx).map .uint16 ++ g.addSupertypeSlices ++
        g.addLexFunctions ++ g.addLexModes ++
          ((g.indexedStates.take (largeStateCount g.table)).flatMap
            (fun e => largeRowNumbers e.2 e.1.1 e.1.2) ++
          (smallStates g.table).flatMap g.smallStateNumbers ++
          (allIndices g.table).2.entries.entries.flatMap fun e => g.actionListNumbers e.1) ++
        g.addParserExport) := by
  rw [TooManyActions, ← nextIndex_allIndices] at hactions
  have hknown : ¬ (g.abiVersion < abiVersionMin ∨ abiVersionMax < g.abiVersion) := habi
  rw [renderCCode, if_neg hknown, addParseTableNumbers, if_neg hactions]
  rfl

theorem renderCCode_eq_error (h : g.UnknownAbi ∨ g.TooManyActions) :
    ∃ error, g.renderCCode = .error error := by
  by_cases habi : g.UnknownAbi
  · exact ⟨_, if_pos habi⟩
  · have hactions := h.resolve_left habi
    rw [TooManyActions, ← nextIndex_allIndices] at hactions
    have hknown : ¬ (g.abiVersion < abiVersionMin ∨ abiVersionMax < g.abiVersion) := habi
    rw [renderCCode, if_neg hknown, addParseTableNumbers, if_pos hactions]
    exact ⟨_, rfl⟩

theorem fits_addLexFunctions :
    (∀ n ∈ g.addLexFunctions, n.Fits) ↔
      (∀ state ∈ g.mainLexTable.states, ∀ target ∈ state.targets, target < 2 ^ 16) ∧
        (g.hasWordToken →
          ∀ state ∈ g.keywordLexTable.states, ∀ target ∈ state.targets, target < 2 ^ 16) := by
  rw [addLexFunctions, forall_mem_append, fits_addLexFunction]
  refine and_congr_right fun _ => ?_
  split
  next hword => rw [fits_addLexFunction, forall_prop_of_true hword]
  next hword => simp [hword]

/-- The casts and the fields of reduce actions lose nothing of a finished item. -/
theorem forall_items_iff :
    ((∀ item ∈ g.items, item.stepIndex % 2 ^ 16 < 2 ^ 8 ∧
        (-2 ^ 15 ≤ item.dynamicPrecedence ∧ item.dynamicPrecedence < 2 ^ 15) ∧
          item.productionId % 2 ^ 16 < 2 ^ 16) ∧ ∀ item ∈ g.items, item.Asserted) ↔
      (∀ item ∈ g.items, item.stepIndex < 2 ^ 8) ∧
        (∀ item ∈ g.items,
          -2 ^ 15 ≤ item.dynamicPrecedence ∧ item.dynamicPrecedence < 2 ^ 15) ∧
        ∀ item ∈ g.items, item.productionId < 2 ^ 16 := by
  constructor
  · rintro ⟨h, hasserted⟩
    refine ⟨fun item hitem => ?_, fun item hitem => (h item hitem).2.1,
      fun item hitem => (hasserted item hitem).2⟩
    have hcount := (h item hitem).1
    rwa [Nat.mod_eq_of_lt (hasserted item hitem).1] at hcount
  · rintro ⟨hcounts, hprecs, hproductions⟩
    refine ⟨fun item hitem => ⟨?_, hprecs item hitem, Nat.mod_lt _ (by norm_num)⟩,
      fun item hitem => ⟨(hcounts item hitem).trans (by norm_num), hproductions item hitem⟩⟩
    exact lt_of_le_of_lt (Nat.mod_le _ _) (hcounts item hitem)

/-- **When nothing is truncated.** The renderer has two checks of its own; apart from them, what is
written fits if and only if the grammar and its tables are narrow. -/
theorem noSilentTruncation_iff (g : RenderInput) :
    g.NoSilentTruncation ↔ (g.UnknownAbi ∨ g.TooManyActions) ∨ g.Narrow := by
  by_cases herror : g.UnknownAbi ∨ g.TooManyActions
  · refine iff_of_true (fun written hok => ?_) (.inl herror)
    obtain ⟨error, herror⟩ := renderCCode_eq_error herror
    rw [herror] at hok
    cases hok
  obtain ⟨habi, hactions⟩ := not_or.mp herror
  have hoffsets : (allIndices g.table).2.nextIndex < 2 ^ 16 - 1 := by
    rw [nextIndex_allIndices]
    exact Nat.lt_of_not_le hactions
  have hprimary : (∀ n ∈ (primaryStateIds .empty g.table.states.zipIdx).map Written.uint16,
      n.Fits) ↔ ∀ id ∈ primaryStateIds .empty g.table.states.zipIdx, id < 2 ^ 16 := by
    simp only [forall_mem_map, Written.fits_uint16]
  rw [or_iff_right herror]
  simp only [NoSilentTruncation, renderCCode_eq habi hactions, fits_addAliasCounts,
    fits_addParserExport, Except.ok.injEq, forall_eq',
    forall_mem_append, fits_addSymbolEnum, fits_addFieldNameEnum, hprimary,
    forall_primaryStateIds_lt, fits_addSupertypeSlices, fits_addLexFunctions, fits_addLexModes]
  constructor
  · rintro ⟨⟨⟨⟨⟨⟨⟨⟨⟨⟨hsymbols, hnames⟩, hfields⟩, haliases⟩, hprimary⟩, hsubtypes⟩, hlex⟩, hmodes⟩,
      hstates, hlists⟩, hexport⟩, hasserted⟩
    rw [fits_addFieldSequences hnames] at hfields
    rw [fits_states hsymbols hoffsets] at hstates
    rw [fits_actionLists hsymbols] at hlists
    obtain ⟨hcounts, hprecs, hproductions⟩ := forall_items_iff.mp ⟨hlists.2.2, hasserted⟩
    exact {
      symbols := hsymbols
      fieldNames := hnames
      fieldMaps := hfields.1
      fieldRows := hfields.2.1
      fieldLocations := hfields.2.2
      aliasCounts := haliases
      primaryStates := hprimary
      subtypes := fun habi => (hsubtypes habi).1
      subtypeRows := fun habi => (hsubtypes habi).2
      mainLexStates := hlex.1
      keywordLexStates := hlex.2
      lexModes := hmodes
      aliasedProductions := hexport.1
      reservedWords := hexport.2
      gotos := hstates
      shifts := hlists.2.1
      actionLists := hlists.1
      childCounts := hcounts
      dynamicPrecedences := hprecs
      productionIds := hproductions }
  · intro h
    obtain ⟨hitems, hasserted⟩ :=
      forall_items_iff.mpr ⟨h.childCounts, h.dynamicPrecedences, h.productionIds⟩
    have hfields := (fits_addFieldSequences h.fieldNames).mpr
      ⟨h.fieldMaps, h.fieldRows, h.fieldLocations⟩
    have hstates := (fits_states h.symbols hoffsets).mpr h.gotos
    have hlists := (fits_actionLists h.symbols).mpr ⟨h.actionLists, h.shifts, hitems⟩
    exact ⟨⟨⟨⟨⟨⟨⟨⟨⟨⟨h.symbols, h.fieldNames⟩, hfields⟩, h.aliasCounts⟩, h.primaryStates⟩,
      fun habi => ⟨h.subtypes habi, h.subtypeRows habi⟩⟩, h.mainLexStates, h.keywordLexStates⟩,
        h.lexModes⟩, hstates, hlists⟩, h.aliasedProductions, h.reservedWords⟩, hasserted⟩

/-- A grammar with one rule of one token, whose dynamic precedence is 2 ^ 15. -/
def wideGrammar : RenderInput where
  table := {
    states := [
      { id := 0, terminalEntries := .empty, nonterminalEntries := .empty },
      { id := 1
        terminalEntries := .insert .empty .eof ⟨1, true⟩
        nonterminalEntries := .empty }]
    actionLists := [[], [.reduce (.nonTerminal 0) 1 (2 ^ 15) 0]]
    symbols := [.eof] }
  aliasSequences := [[]]
  vars := [("rule", .named)]
  lexicalVariables := []
  externalTokens := []
  defaultAliases := .empty
  nodup := by decide
  items := [⟨0, 1, 2 ^ 15, 0⟩]
  fieldMaps := []
  supertypes := []
  mainLexTable := {}
  keywordLexTable := {}
  hasWordToken := false
  largeCharacterSets := []
  store := []
  maxAliasedProductionLength := 0
  abiVersion := 15
  reduces := by
    intro symbol childCount dynamicPrecedence productionId h
    have heq : ParseAction.reduce symbol childCount dynamicPrecedence productionId =
        .reduce (.nonTerminal 0) 1 (2 ^ 15) 0 := mem_singleton.mp h
    rw [heq]
    exact ⟨_, mem_singleton.mpr rfl, rfl⟩
  kept := by decide
  sorted := by decide

/-- Its dynamic precedence is written to an `int16_t`. -/
theorem exists_silentTruncation : ∃ g : RenderInput, ¬ g.NoSilentTruncation := by
  refine ⟨wideGrammar, fun h => ?_⟩
  have hactions : ¬ wideGrammar.TooManyActions := by
    rw [TooManyActions]
    decide +kernel
  have hmem : Written.int16 (2 ^ 15) ∈ (allIndices wideGrammar.table).2.entries.entries.flatMap
      fun e => wideGrammar.actionListNumbers e.1 := by
    decide +kernel
  obtain ⟨hfits, -⟩ := h _ (renderCCode_eq (by simp [UnknownAbi, wideGrammar, abiVersionMin,
    abiVersionMax]) hactions)
  have hfit := hfits _ (mem_append_left _ (mem_append_right _ (mem_append_right _ hmem)))
  exact absurd hfit (by decide)

end RenderInput

end TreeSitter.Generate
