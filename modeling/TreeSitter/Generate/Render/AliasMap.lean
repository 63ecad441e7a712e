import TreeSitter.Generate.PrepareGrammar.ProcessInlines
import TreeSitter.Generate.BuildTables.UsedSymbols
import TreeSitter.Generate.Render.Identifiers
import TreeSitter.Generate.Render.PublicSymbols

/-!
# TreeSitter.Generate.Render.AliasMap

The **alias map** of a parser: for a non-terminal, the public symbols that it may be shown as. The
runtime scans it (`ts_language_aliases_for_symbol`) and finds what is written for a symbol
(`Generator.aliasesForSymbol_eq`). It is collected from the productions of the grammar, and an alias
that inlining gives to the steps of another symbol is not there
(`Generator.aliasMapComplete_iff`).
-/

namespace TreeSitter.Generate

open List Library Lib

/-! ### Production infos -/

/-- The alias sequence of a production, less the steps without aliases at its end. -/
def aliasSequence (p : Production) : List (Option Alias) :=
  (p.steps.map ProductionStep.aliasAs).rdropWhile Option.isNone

/-- `ProductionInfo`; the field map is of any type. -/
structure ProductionInfo (φ : Type) where
  aliasSequence : List (Option Alias)
  fieldMap : φ
deriving DecidableEq

section ProductionInfos

variable {φ : Type} [DecidableEq φ]

/-- `get_production_id`, of how the field map of a production is made. That a production has asked
for its id before does not change it. -/
def getProductionId (fieldMap : Production → φ) (infos : List (ProductionInfo φ))
    (p : Production) : Nat × List (ProductionInfo φ) :=
  let info := ⟨aliasSequence p, fieldMap p⟩
  if info ∈ infos then (infos.idxOf info, infos) else (infos.length, infos ++ [info])

/-- `production_infos`, behind the productions that ask for an id: the empty alias sequence has
index 0. -/
def productionInfos (fieldMap : Production → φ) (noFields : φ) (used : List Production) :
    List (ProductionInfo φ) :=
  used.foldl (fun infos p => (getProductionId fieldMap infos p).2) [⟨[], noFields⟩]

end ProductionInfos

/-! ### Alias sequences -/

theorem getElem?_rdropWhile_isNone {α : Type*} (xs : List (Option α)) (i : Nat) :
    ((xs.rdropWhile Option.isNone)[i]?).join = (xs[i]?).join := by
  induction xs using List.reverseRecOn with
  | nil => rfl
  | append_singleton xs x ih =>
    rw [rdropWhile_concat]
    split
    next hnone =>
      rw [ih, getElem?_append]
      split
      next => rfl
      next hle =>
        rw [getElem?_eq_none (not_lt.mp hle), Option.isNone_iff_eq_none.mp hnone]
        cases i - xs.length with
        | zero | succ => rfl
    next => rfl

theorem getElem?_aliasSequence (p : Production) (i : Nat) :
    ((aliasSequence p)[i]?).join = p.steps[i]?.bind ProductionStep.aliasAs := by
  rw [aliasSequence, getElem?_rdropWhile_isNone, getElem?_map]
  cases p.steps[i]? <;> rfl

section ProductionInfos

variable {φ : Type} [DecidableEq φ] {fieldMap : Production → φ} {noFields : φ}

theorem getProductionId_isPrefix (infos : List (ProductionInfo φ)) (p : Production) :
    infos <+: (getProductionId fieldMap infos p).2 ∧
      (⟨aliasSequence p, fieldMap p⟩ : ProductionInfo φ) ∈
        (getProductionId fieldMap infos p).2 := by
  rw [getProductionId]
  split
  next hmem => exact ⟨prefix_rfl, hmem⟩
  next => exact ⟨prefix_append _ _, mem_append_right _ (mem_singleton_self _)⟩

theorem productionInfos_spec (used : List Production) :
    (productionInfos fieldMap noFields used).head? = some ⟨[], noFields⟩ ∧
      ∀ p ∈ used, (⟨aliasSequence p, fieldMap p⟩ : ProductionInfo φ) ∈
        productionInfos fieldMap noFields used := by
  have hfold : ∀ (used : List Production) (infos : List (ProductionInfo φ)),
      infos <+: used.foldl (fun infos p => (getProductionId fieldMap infos p).2) infos ∧
        ∀ p ∈ used, (⟨aliasSequence p, fieldMap p⟩ : ProductionInfo φ) ∈
          used.foldl (fun infos p => (getProductionId fieldMap infos p).2) infos := by
    intro used
    induction used with
    | nil => exact fun infos => ⟨prefix_rfl, fun _ hmem => nomatch hmem⟩
    | cons first used ih =>
      intro infos
      obtain ⟨hgrow, hmem⟩ := @getProductionId_isPrefix φ _ fieldMap infos first
      obtain ⟨hgrow', hall⟩ := ih (getProductionId fieldMap infos first).2
      refine ⟨List.IsPrefix.trans hgrow hgrow', fun p hp => ?_⟩
      rcases mem_cons.mp hp with rfl | hp
      · exact hgrow'.subset hmem
      · exact hall p hp
  obtain ⟨hgrow, hall⟩ := hfold used [⟨[], noFields⟩]
  obtain ⟨rest, hrest⟩ := hgrow
  refine ⟨?_, hall⟩
  rw [productionInfos, ← hrest]
  rfl

end ProductionInfos

/-! ### The alias map -/

namespace Generator

variable (g : Generator)

/-- Insert an identifier into a sorted list, unless it is there. -/
def insertIdent (ids : List String) (id : String) : List String :=
  if id ∈ ids then ids else ids.orderedInsert (· ≤ ·) id

/-- The identifier of the alias that a step gives to a non-terminal, if it is put in the map. -/
def collectedIdent (step : ProductionStep) : Option String :=
  match step.aliasAs with
  | some as =>
    if step.symbol.isNonTerminal ∧ some as ≠ g.defaultAlias step.symbol ∧
        (g.symbolIds.get? step.symbol).isSome then g.aliasIds.get? as
    else none
  | none => none

/-- The body of the loop over the steps in `add_non_terminal_alias_map`. -/
def collectAlias (ids : IndexMap Symbol (List String)) (step : ProductionStep) :
    IndexMap Symbol (List String) :=
  match g.collectedIdent step with
  | some id => ids.insert step.symbol (insertIdent ((ids.get? step.symbol).getD []) id)
  | none => ids

/-- `alias_ids_by_symbol`, of the steps of the grammar's productions. -/
def aliasIdsBySymbol (store : ProductionStore) : IndexMap Symbol (List String) :=
  store.steps.foldl g.collectAlias .empty

/-- What is written for a symbol: the number of its public symbols, and these. -/
def aliasMapEntry (entry : Symbol × List String) : Nat × List Nat :=
  (g.identNumber (g.symbolIdent entry.1),
    g.identNumber (g.symbolIdent (g.publicSymbol entry.1)) :: entry.2.map g.identNumber)

def aliasMapEntries (store : ProductionStore) : List (Nat × List Nat) :=
  (sortedEntries symbolKey (g.aliasIdsBySymbol store)).map g.aliasMapEntry

end Generator

/-- The entries of an alias map one behind the other, and a null symbol at the end. -/
def flattenAliasMap (entries : List (Nat × List Nat)) : List Nat :=
  entries.flatMap (fun entry => entry.1 :: entry.2.length :: entry.2) ++ [0]

/-- `add_non_terminal_alias_map`. -/
def Generator.addNonTerminalAliasMap (g : Generator) (store : ProductionStore) : Nat → Nat :=
  arrayOf 0 ((flattenAliasMap (g.aliasMapEntries store)).map .next)

/-! ### The runtime -/

/-- The loop of `ts_language_aliases_for_symbol`; `none` if it stops without the symbol. -/
def scanAliasMap (aliasMap : Nat → Nat) (originalSymbol : Nat) : Nat → Nat → Option (List Nat)
  | 0, _ => none
  | fuel + 1, idx =>
    let symbol := aliasMap idx
    if symbol = 0 ∨ symbol > originalSymbol then none
    else
      let count := aliasMap (idx + 1)
      if symbol = originalSymbol then
        some ((List.range count).map fun j => aliasMap (idx + 2 + j))
      else scanAliasMap aliasMap originalSymbol fuel (idx + 2 + count)

/-- `ts_language_aliases_for_symbol`: what is between the two pointers. There is an entry of the map
for each turn of the loop. -/
def languageAliasesForSymbol (publicSymbolMap aliasMap : Nat → Nat) (entryCount : Nat)
    (originalSymbol : Nat) : List Nat :=
  (scanAliasMap aliasMap originalSymbol (entryCount + 1) 0).getD [publicSymbolMap originalSymbol]

/-- **The scan finds the entry of a symbol**, if the entries are in the order of their symbols. -/
theorem scanAliasMap_eq {aliasMap : Nat → Nat} {originalSymbol : Nat}
    (entries : List (Nat × List Nat)) :
    ∀ {idx fuel : Nat}, ReadsAt aliasMap idx (flattenAliasMap entries) →
      (∀ entry ∈ entries, entry.1 ≠ 0) → entries.Pairwise (fun x y => x.1 < y.1) →
      entries.length < fuel →
      scanAliasMap aliasMap originalSymbol fuel idx = lookupEntry originalSymbol entries := by
  induction entries with
  | nil =>
    intro idx fuel hreads _ _ hfuel
    obtain ⟨fuel, rfl⟩ := Nat.exists_eq_succ_of_ne_zero (Nat.ne_of_gt hfuel)
    rw [scanAliasMap]
    have hzero : aliasMap idx = 0 := (readsAt_cons.mp hreads).1
    exact if_pos (.inl hzero)
  | cons entry entries ih =>
    intro idx fuel hreads hne hsorted hfuel
    obtain ⟨fuel, rfl⟩ := Nat.exists_eq_succ_of_ne_zero (Nat.ne_of_gt (Nat.zero_lt_of_lt hfuel))
    obtain ⟨symbol, aliases⟩ := entry
    obtain ⟨hlt, hsorted⟩ := pairwise_cons.mp hsorted
    have hflatten : flattenAliasMap ((symbol, aliases) :: entries) =
        symbol :: aliases.length :: (aliases ++ flattenAliasMap entries) := by
      rw [flattenAliasMap, flattenAliasMap, flatMap_cons, append_assoc]
      rfl
    rw [hflatten, readsAt_cons, readsAt_cons, readsAt_append] at hreads
    obtain ⟨hsymbol, hcount, haliases, hrest⟩ := hreads
    rw [scanAliasMap, hsymbol, hcount, lookupEntry]
    dsimp only
    by_cases heq : symbol = originalSymbol
    · subst heq
      have hcond : ¬ (symbol = 0 ∨ symbol > symbol) := by
        have hsymbolNe := hne (symbol, aliases) mem_cons_self
        rintro (h | h)
        · exact hsymbolNe h
        · exact lt_irrefl _ h
      rw [if_neg hcond, if_pos rfl, if_pos rfl, haliases.map_range]
    · rw [if_neg heq, if_neg heq]
      have hrest := @ih (idx + 2 + aliases.length) fuel hrest
        (fun entry hmem => hne entry (mem_cons_of_mem _ hmem)) hsorted
        (Nat.lt_of_succ_lt_succ hfuel)
      split
      next hstop =>
        -- All that follow are greater as well.
        have hgt := hstop.resolve_left (hne (symbol, aliases) mem_cons_self)
        symm
        rw [Option.eq_none_iff_forall_ne_some]
        intro found hfound
        have hgreater := hlt _ (lookupEntry_eq_some hfound)
        omega
      next => exact hrest

/-! ### What is collected -/

namespace Generator

variable {g : Generator}

theorem mem_insertIdent {ids : List String} {id id' : String} :
    id' ∈ insertIdent ids id ↔ id' = id ∨ id' ∈ ids := by
  rw [insertIdent]
  split
  next hmem => exact ⟨.inr, fun h => h.elim (fun heq => heq ▸ hmem) fun h => h⟩
  next => exact mem_orderedInsert _

theorem mem_aliasIdsBySymbol {store : ProductionStore} {symbol : Symbol} {id : String} :
    id ∈ ((g.aliasIdsBySymbol store).get? symbol).getD [] ↔
      ∃ step ∈ store.steps, step.symbol = symbol ∧ g.collectedIdent step = some id := by
  have hfold : ∀ (steps : List ProductionStep) (ids : IndexMap Symbol (List String)),
      id ∈ ((steps.foldl g.collectAlias ids).get? symbol).getD [] ↔
        id ∈ (ids.get? symbol).getD [] ∨
          ∃ step ∈ steps, step.symbol = symbol ∧ g.collectedIdent step = some id := by
    intro steps
    induction steps with
    | nil =>
      intro ids
      simp
    | cons step steps ih =>
      intro ids
      have hstep : id ∈ ((g.collectAlias ids step).get? symbol).getD [] ↔
          id ∈ (ids.get? symbol).getD [] ∨
            step.symbol = symbol ∧ g.collectedIdent step = some id := by
        rw [collectAlias]
        cases hid : g.collectedIdent step with
        | none => simp
        | some id' =>
          dsimp only
          rw [IndexMap.get?_insert]
          by_cases heq : step.symbol = symbol
          · subst heq
            rw [if_pos rfl, Option.getD_some, mem_insertIdent]
            simp only [true_and, Option.some.injEq]
            exact ⟨fun h => h.symm.imp_right Eq.symm, fun h => h.symm.imp_left Eq.symm⟩
          · rw [if_neg heq]
            simp [heq]
      rw [foldl_cons, ih, hstep, exists_mem_cons_iff, or_assoc]
  rw [aliasIdsBySymbol, hfold]
  exact ⟨fun h => h.resolve_left not_mem_nil, .inr⟩

theorem isNonTerminal_of_mem_aliasIdsBySymbol {store : ProductionStore}
    {entry : Symbol × List String} (h : entry ∈ (g.aliasIdsBySymbol store).entries) :
    entry.1.isNonTerminal ∧ (g.symbolIds.get? entry.1).isSome := by
  have hfold : ∀ (steps : List ProductionStep) (ids : IndexMap Symbol (List String)),
      (∀ entry ∈ ids.entries, entry.1.isNonTerminal ∧ (g.symbolIds.get? entry.1).isSome) →
      ∀ entry ∈ (steps.foldl g.collectAlias ids).entries,
        entry.1.isNonTerminal ∧ (g.symbolIds.get? entry.1).isSome := by
    intro steps
    induction steps with
    | nil => exact fun _ h => h
    | cons step steps ih =>
      intro ids hids
      refine ih _ ?_
      rw [collectAlias]
      cases hid : g.collectedIdent step with
      | none => exact hids
      | some id =>
        intro entry hmem
        dsimp only at hmem
        rw [IndexMap.mem_entries_iff, IndexMap.get?_insert] at hmem
        split at hmem
        next heq =>
          rw [collectedIdent] at hid
          split at hid
          next as =>
            split at hid
            next hcond =>
              rw [← heq]
              exact ⟨hcond.1, hcond.2.2⟩
            next => cases hid
          next => cases hid
        next => exact hids entry (IndexMap.mem_entries_iff.mpr hmem)
  exact hfold store.steps .empty (fun _ h => absurd h not_mem_nil) entry h

/-! ### Numbers -/

/-- The symbols of the grammar are prepared for the C code: those of the parse table are the used
ones, the end has no default alias, and C accepts the enumerators. -/
structure Prepared (g : Generator) : Prop where
  symbols_eq : ∃ wordToken terminalCount externalCount nonTerminalCount, g.symbols =
    usedSymbols wordToken terminalCount externalCount nonTerminalCount g.table
  eof_defaultAlias : g.defaultAlias .eof = none
  nodup_symbolEnum : g.symbolEnum.Nodup

namespace Prepared

variable (h : g.Prepared)
include h

theorem symbols_spec : ∃ (tokens : List Symbol) (indices : List Nat),
    g.symbols = .eof :: tokens ++ indices.map Symbol.nonTerminal ∧
      (∀ symbol ∈ tokens, symbol.isTerminal ∨ symbol.isExternal) ∧
        indices.Pairwise (· < ·) := by
  obtain ⟨wordToken, terminalCount, externalCount, nonTerminalCount, hsymbols⟩ := h.symbols_eq
  rw [hsymbols]
  exact usedSymbols_eq wordToken terminalCount externalCount nonTerminalCount g.table

theorem endFirst : g.EndFirst := by
  obtain ⟨tokens, indices, hsymbols, htokens, -⟩ := h.symbols_spec
  rw [cons_append] at hsymbols
  refine ⟨by rw [hsymbols]; rfl, fun hmem => ?_⟩
  rw [hsymbols, mem_cons, mem_append] at hmem
  rcases hmem with hmem | hmem | hmem
  · cases hmem
  · rcases htokens _ hmem with hkind | hkind <;> cases hkind
  · obtain ⟨i, -, heq⟩ := mem_map.mp hmem
    cases heq

theorem idxOf_lt {i j : Nat} (hi : Symbol.nonTerminal i ∈ g.symbols)
    (hj : Symbol.nonTerminal j ∈ g.symbols) (hlt : i < j) :
    g.symbols.idxOf (.nonTerminal i) < g.symbols.idxOf (.nonTerminal j) := by
  obtain ⟨tokens, indices, hsymbols, htokens, hsorted⟩ := h.symbols_spec
  have hnot : ∀ i, Symbol.nonTerminal i ∉ Symbol.eof :: tokens := by
    intro i hmem
    rcases mem_cons.mp hmem with hmem | hmem
    · cases hmem
    · rcases htokens _ hmem with hkind | hkind <;> cases hkind
  have hindex : ∀ i, Symbol.nonTerminal i ∈ g.symbols → i ∈ indices := by
    intro i hmem
    rw [hsymbols, mem_append] at hmem
    obtain ⟨j, hj, heq⟩ := mem_map.mp (hmem.resolve_left (hnot i))
    cases heq
    exact hj
  rw [hsymbols, idxOf_append_of_notMem (hnot i), idxOf_append_of_notMem (hnot j)]
  refine Nat.add_lt_add_left ?_ _
  by_contra hge
  have hlti : (indices.map Symbol.nonTerminal).idxOf (.nonTerminal i) < _ :=
    idxOf_lt_length_of_mem (mem_map_of_mem (hindex i hi))
  have hltj : (indices.map Symbol.nonTerminal).idxOf (.nonTerminal j) < _ :=
    idxOf_lt_length_of_mem (mem_map_of_mem (hindex j hj))
  have hsortedMap : (indices.map Symbol.nonTerminal).Pairwise fun x y => x.index < y.index :=
    hsorted.map _ fun _ _ hij => hij
  rcases Nat.lt_or_eq_of_le (not_lt.mp hge) with hback | hsame
  · have hback := pairwise_iff_getElem.mp hsortedMap _ _ hltj hlti hback
    rw [getElem_idxOf, getElem_idxOf] at hback
    exact lt_asymm hlt hback
  · have heq : Symbol.nonTerminal j = .nonTerminal i :=
      (idxOf_inj (mem_map_of_mem (hindex j hj))).mp hsame
    cases heq
    exact lt_irrefl _ hlt

variable {symbol : Symbol}

theorem identNumber_ne_zero (hmem : symbol ∈ g.symbols) (hne : symbol ≠ .eof) :
    g.identNumber (g.symbolIdent symbol) ≠ 0 := by
  obtain ⟨rest, hsymbols⟩ := h.endFirst.symbols_eq
  rw [h.endFirst.identNumber_symbolIdent hmem, hsymbols, idxOf_cons_ne _ (Ne.symm hne)]
  exact Nat.succ_ne_zero _

theorem aliasIdent_spec {as : Alias} (hused : as ∈ g.usedAliases) :
    g.aliasIdent as ∈ g.symbolEnum ∧ g.identNumber (g.aliasIdent as) ≠ 0 := by
  have henum := h.endFirst.symbolEnum_eq
  cases hsymbols : g.symbolsForAlias as with
  | cons first others =>
    have hident : g.aliasIdent as = g.symbolIdent (g.publicSymbol first) := by
      rw [aliasIdent, hsymbols]
    have hfirst : first ∈ g.symbolsForAlias as := by
      rw [hsymbols]
      exact mem_cons_self
    obtain ⟨hmem, hshownAs⟩ := mem_filter.mp hfirst
    have hshown : (g.shown first).isSome := by
      cases halias : g.defaultAlias first with
      | some as' => rw [shown_of_defaultAlias halias]; rfl
      | none =>
        rw [halias] at hshownAs
        rw [(shown_eq_some_iff halias).mpr (of_decide_eq_true hshownAs)]
        rfl
    rw [hident, henum]
    exact ⟨mem_append_left _ (mem_map_of_mem (publicSymbol_mem hmem)),
      h.identNumber_ne_zero (publicSymbol_mem hmem)
        (publicSymbol_ne_eof h.eof_defaultAlias hmem hshown)⟩
  | nil =>
    have hunique : as ∈ g.uniqueAliases := mem_uniqueAliases.mpr ⟨hused, hsymbols⟩
    have hmem : g.aliasIdent as ∈ g.uniqueAliases.map g.aliasIdent := mem_map_of_mem hunique
    refine ⟨henum ▸ mem_append_right _ hmem, fun hzero => ?_⟩
    have hnodup := h.nodup_symbolEnum
    obtain ⟨rest, hrest⟩ := h.endFirst.symbols_eq
    rw [henum, hrest, map_cons, cons_append, nodup_cons] at hnodup
    rw [identNumber, henum, hrest, map_cons, cons_append] at hzero
    have hhead : g.symbolIdent .eof = g.aliasIdent as := by
      by_contra hne
      rw [idxOf_cons_ne _ hne] at hzero
      exact Nat.succ_ne_zero _ hzero
    exact hnodup.1 (mem_append_right _ (hhead ▸ hmem))

/-! ### What the runtime finds -/

theorem pairwise_aliasMapEntries (store : ProductionStore) :
    (g.aliasMapEntries store).Pairwise fun x y => x.1 < y.1 := by
  have hsorted : (sortedEntries symbolKey (g.aliasIdsBySymbol store)).Pairwise
      fun x y => symbolKey x.1 ≤ symbolKey y.1 := pairwise_insertionSort _ _
  have hperm : (sortedEntries symbolKey (g.aliasIdsBySymbol store)).Perm
      (g.aliasIdsBySymbol store).entries := perm_insertionSort _ _
  have hnodup : (sortedEntries symbolKey (g.aliasIdsBySymbol store)).Pairwise
      fun x y => x.1 ≠ y.1 := by
    rw [← pairwise_map]
    exact (hperm.map Prod.fst).nodup_iff.mpr (g.aliasIdsBySymbol store).nodup
  rw [aliasMapEntries, pairwise_map]
  refine List.Pairwise.imp_of_mem ?_ (hsorted.imp₂ (fun x y hle hne => And.intro hle hne) hnodup)
  intro x y hx hy hxy
  obtain ⟨hkind, hsome⟩ := isNonTerminal_of_mem_aliasIdsBySymbol (hperm.mem_iff.mp hx)
  obtain ⟨hkind', hsome'⟩ := isNonTerminal_of_mem_aliasIdsBySymbol (hperm.mem_iff.mp hy)
  obtain ⟨⟨kind, i⟩, ids⟩ := x
  obtain ⟨⟨kind', j⟩, ids'⟩ := y
  cases eq_of_beq hkind
  cases eq_of_beq hkind'
  obtain ⟨id, hid⟩ := Option.isSome_iff_exists.mp hsome
  obtain ⟨id', hid'⟩ := Option.isSome_iff_exists.mp hsome'
  have hi := mem_symbols_of_get? hkind hid
  have hj := mem_symbols_of_get? hkind' hid'
  have hlt : i < j := by
    have hkey := lt_of_le_of_ne hxy.1 fun heq => hxy.2 (symbolKey_injective heq)
    rw [symbolKey, symbolKey, Prod.Lex.toLex_lt_toLex] at hkey
    rcases hkey with hkey | hkey
    · exact absurd hkey (lt_irrefl _)
    · exact hkey.2
  rw [aliasMapEntry, aliasMapEntry]
  dsimp only
  rw [h.endFirst.identNumber_symbolIdent hi, h.endFirst.identNumber_symbolIdent hj]
  exact h.idxOf_lt hi hj hlt

theorem aliasMapEntries_ne_zero {store : ProductionStore} {entry : Nat × List Nat}
    (hentry : entry ∈ g.aliasMapEntries store) : entry.1 ≠ 0 := by
  obtain ⟨entry, hmem, rfl⟩ := mem_map.mp hentry
  rw [sortedEntries, mem_insertionSort] at hmem
  obtain ⟨hkind, hsome⟩ := isNonTerminal_of_mem_aliasIdsBySymbol hmem
  obtain ⟨id, hid⟩ := Option.isSome_iff_exists.mp hsome
  refine h.identNumber_ne_zero (mem_symbols_of_get? hkind hid) ?_
  intro heof
  rw [heof] at hkind
  cases hkind

theorem lookup_aliasMapEntries (store : ProductionStore) (hmem : symbol ∈ g.symbols) :
    lookupEntry (g.identNumber (g.symbolIdent symbol)) (g.aliasMapEntries store) =
      ((g.aliasIdsBySymbol store).get? symbol).map fun ids =>
        g.identNumber (g.symbolIdent (g.publicSymbol symbol)) :: ids.map g.identNumber := by
  have hnodup : ((g.aliasMapEntries store).map Prod.fst).Nodup := by
    rw [List.Nodup, pairwise_map]
    exact (h.pairwise_aliasMapEntries store).imp fun hlt => ne_of_lt hlt
  cases hget : (g.aliasIdsBySymbol store).get? symbol with
  | some ids =>
    refine lookupEntry_of_mem hnodup (mem_map.mpr ⟨(symbol, ids), ?_, rfl⟩)
    rw [sortedEntries, mem_insertionSort]
    exact IndexMap.mem_entries_iff.mpr hget
  | none =>
    rw [Option.map_none, Option.eq_none_iff_forall_ne_some]
    intro aliases haliases
    obtain ⟨⟨symbol', ids⟩, hentry, heq⟩ := mem_map.mp (lookupEntry_eq_some haliases)
    rw [sortedEntries, mem_insertionSort] at hentry
    obtain ⟨hkind, hsome⟩ := isNonTerminal_of_mem_aliasIdsBySymbol hentry
    obtain ⟨id, hid⟩ := Option.isSome_iff_exists.mp hsome
    have hmem' := mem_symbols_of_get? hkind hid
    have hnumber : g.identNumber (g.symbolIdent symbol') =
        g.identNumber (g.symbolIdent symbol) := (Prod.mk.injEq _ _ _ _ ▸ heq).1
    rw [h.endFirst.identNumber_symbolIdent hmem, h.endFirst.identNumber_symbolIdent hmem',
      idxOf_inj hmem'] at hnumber
    subst hnumber
    rw [IndexMap.mem_entries_iff, hget] at hentry
    cases hentry

/-- **The runtime finds what is written for a symbol**: its public symbol, and the aliases that the
productions of the grammar give to it. -/
theorem aliasesForSymbol_eq (store : ProductionStore) (hmem : symbol ∈ g.symbols) :
    languageAliasesForSymbol g.publicSymbolMap (g.addNonTerminalAliasMap store)
        (g.aliasMapEntries store).length (g.identNumber (g.symbolIdent symbol)) =
      g.identNumber (g.symbolIdent (g.publicSymbol symbol)) ::
        (((g.aliasIdsBySymbol store).get? symbol).getD []).map g.identNumber := by
  have hreads := @readsAt_arrayOf Nat _ 0
    (inOrder_next (flattenAliasMap (g.aliasMapEntries store)) 0)
  rw [map_map] at hreads
  have hvalues : (flattenAliasMap (g.aliasMapEntries store)).map (InitItem.value ∘ .next) =
      flattenAliasMap (g.aliasMapEntries store) := map_id _
  rw [hvalues] at hreads
  have hscan := @scanAliasMap_eq (g.addNonTerminalAliasMap store)
    (g.identNumber (g.symbolIdent symbol)) (g.aliasMapEntries store) 0
    ((g.aliasMapEntries store).length + 1) hreads (fun entry => h.aliasMapEntries_ne_zero)
    (h.pairwise_aliasMapEntries store) (Nat.lt_succ_self _)
  rw [languageAliasesForSymbol, hscan, h.lookup_aliasMapEntries store hmem,
    h.endFirst.publicSymbolMap_identNumber h.nodup_symbolEnum hmem]
  cases (g.aliasIdsBySymbol store).get? symbol <;> rfl

end Prepared

/-! ### Children -/

variable (g) in
/-- `ts_language_alias_at`, in the rows of `add_alias_sequences`. -/
def languageAliasAt (productionId childIndex : Nat) : Nat :=
  if productionId = 0 then 0
  else
    match ((g.aliasSequences[productionId]?.getD [])[childIndex]?).join with
    | some as => g.identNumber ((g.aliasIds.get? as).getD "")
    | none => 0

variable (g) in
/-- The symbol under which a child is shown: its alias, or else its public symbol. -/
def childSymbol (productionId childIndex : Nat) (symbol : Symbol) : Nat :=
  let aliasSymbol := g.languageAliasAt productionId childIndex
  if aliasSymbol ≠ 0 then aliasSymbol else g.identNumber (g.symbolIdent (g.publicSymbol symbol))

section Children

variable {φ : Type} [DecidableEq φ]

variable (g) in
/-- For every step of a used production that has a non-terminal, the symbol under which the child is
shown is one of those that the runtime finds for the non-terminal. -/
def AliasMapComplete (store : ProductionStore) (fieldMap : Production → φ) (noFields : φ)
    (used : List Production) : Prop :=
  ∀ p ∈ used, ∀ i step, p.steps[i]? = some step → step.symbol.isNonTerminal →
    step.symbol ∈ g.symbols →
    g.childSymbol (getProductionId fieldMap (productionInfos fieldMap noFields used) p).1 i
        step.symbol ∈
      languageAliasesForSymbol g.publicSymbolMap (g.addNonTerminalAliasMap store)
        (g.aliasMapEntries store).length (g.identNumber (g.symbolIdent step.symbol))

variable (g) in
/-- The alias is how the symbol is shown in any case, or a production of the grammar gives it, or
one with the same identifier, to the symbol. -/
def AliasIsCollected (store : ProductionStore) (symbol : Symbol) (as : Alias) : Prop :=
  g.aliasIdent as = g.symbolIdent (g.publicSymbol symbol) ∨
    ∃ step ∈ store.steps, step.symbol = symbol ∧ ∃ as', step.aliasAs = some as' ∧
      some as' ≠ g.defaultAlias symbol ∧ as' ∈ g.usedAliases ∧ g.aliasIdent as' = g.aliasIdent as

variable {store : ProductionStore} {fieldMap : Production → φ} {noFields : φ}
  {used : List Production}

variable {step : ProductionStep}

section

variable (hsequences : g.aliasSequences = (productionInfos fieldMap noFields used).map ProductionInfo.aliasSequence)

include hsequences

theorem mem_usedAliases {p : Production} (hp : p ∈ used) {i : Nat}
    (hstep : p.steps[i]? = some step) {as : Alias} (has : step.aliasAs = some as) :
    as ∈ g.usedAliases := by
  have hmem := (@productionInfos_spec φ _ fieldMap noFields used).2 p hp
  have hget := getElem?_aliasSequence p i
  rw [hstep, Option.bind_some, has, Option.join_eq_some_iff] at hget
  refine mem_flatMap.mpr ⟨aliasSequence p, ?_, ?_⟩
  · rw [hsequences]
    exact mem_map.mpr ⟨_, hmem, rfl⟩
  · exact reduceOption_mem_iff.mpr (mem_of_getElem? hget)

theorem languageAliasAt_eq {p : Production} (hp : p ∈ used) {i : Nat}
    (hstep : p.steps[i]? = some step) :
    g.languageAliasAt (getProductionId fieldMap (productionInfos fieldMap noFields used) p).1 i =
      match step.aliasAs with
      | some as => g.identNumber (g.aliasIdent as)
      | none => 0 := by
  obtain ⟨hhead, hall⟩ := @productionInfos_spec φ _ fieldMap noFields used
  have hmem := hall p hp
  have hid : (getProductionId fieldMap (productionInfos fieldMap noFields used) p).1 =
      (productionInfos fieldMap noFields used).idxOf ⟨aliasSequence p, fieldMap p⟩ := by
    rw [getProductionId, if_pos hmem]
  have hget : (productionInfos fieldMap noFields used)[(productionInfos fieldMap noFields used).idxOf
      ⟨aliasSequence p, fieldMap p⟩]? = some ⟨aliasSequence p, fieldMap p⟩ := by
    rw [getElem?_eq_getElem (idxOf_lt_length_of_mem hmem), getElem_idxOf]
  have hsequence := getElem?_aliasSequence p i
  rw [hstep, Option.bind_some] at hsequence
  rw [hid, languageAliasAt]
  split
  next hzero =>
    -- The first production info has no aliases.
    rw [hzero, ← head?_eq_getElem?, hhead, Option.some.injEq, ProductionInfo.mk.injEq] at hget
    rw [← hget.1] at hsequence
    rw [← hsequence]
    rfl
  next =>
    rw [hsequences, getElem?_map, hget, Option.map_some, Option.getD_some, hsequence]
    cases has : step.aliasAs with
    | none => rfl
    | some as =>
      dsimp only
      rw [get?_aliasIds, if_pos (mem_usedAliases hsequences hp hstep has), Option.getD_some]

end

theorem collectedIdent_eq_some {id : String} (hmem : step.symbol ∈ g.symbols)
    (hkind : step.symbol.isNonTerminal) :
    g.collectedIdent step = some id ↔ ∃ as, step.aliasAs = some as ∧
      some as ≠ g.defaultAlias step.symbol ∧ as ∈ g.usedAliases ∧ g.aliasIdent as = id := by
  have hsome : (g.symbolIds.get? step.symbol).isSome :=
    Option.isSome_of_eq_some (get?_symbolIds hmem hkind)
  rw [collectedIdent]
  cases has : step.aliasAs with
  | none => simp
  | some as =>
    simp only [hkind, hsome, get?_aliasIds, Option.some.injEq, exists_eq_left', true_and, and_true]
    split_ifs with hdefault hused
    · simp [hdefault, hused]
    · simp [hdefault, hused]
    · simp [hdefault]

theorem mem_aliases_iff {symbol : Symbol} {as : Alias} (hmem : symbol ∈ g.symbols)
    (hkind : symbol.isNonTerminal) (henum : g.aliasIdent as ∈ g.symbolEnum) :
    g.identNumber (g.aliasIdent as) ∈ g.identNumber (g.symbolIdent (g.publicSymbol symbol)) ::
        (((g.aliasIdsBySymbol store).get? symbol).getD []).map g.identNumber ↔
      g.AliasIsCollected store symbol as := by
  have hnumber : ∀ id, g.identNumber (g.aliasIdent as) = g.identNumber id ↔
      g.aliasIdent as = id := fun id => idxOf_inj henum
  have hlist : g.identNumber (g.aliasIdent as) ∈
      (((g.aliasIdsBySymbol store).get? symbol).getD []).map g.identNumber ↔
        g.aliasIdent as ∈ ((g.aliasIdsBySymbol store).get? symbol).getD [] := by
    rw [mem_map]
    constructor
    · rintro ⟨id, hid, heq⟩
      rwa [(hnumber id).mp heq.symm]
    · exact fun hid => ⟨_, hid, rfl⟩
  rw [mem_cons, hnumber, hlist, mem_aliasIdsBySymbol, AliasIsCollected]
  refine or_congr_right (exists_congr fun step => and_congr_right fun _ => and_congr_right ?_)
  rintro rfl
  exact collectedIdent_eq_some hmem hkind

/-- **When the alias map is complete**: every alias that a used production gives to a non-terminal
is collected. -/
theorem aliasMapComplete_iff (h : g.Prepared) (hsequences : g.aliasSequences =
    (productionInfos fieldMap noFields used).map ProductionInfo.aliasSequence)
    (store : ProductionStore) :
    g.AliasMapComplete store fieldMap noFields used ↔
      ∀ p ∈ used, ∀ step ∈ p.steps, step.symbol.isNonTerminal → step.symbol ∈ g.symbols →
        ∀ as, step.aliasAs = some as → g.AliasIsCollected store step.symbol as := by
  have hstepIff : ∀ p ∈ used, ∀ i step, p.steps[i]? = some step → step.symbol.isNonTerminal →
      step.symbol ∈ g.symbols →
      (g.childSymbol (getProductionId fieldMap (productionInfos fieldMap noFields used) p).1 i
          step.symbol ∈ languageAliasesForSymbol g.publicSymbolMap (g.addNonTerminalAliasMap store)
          (g.aliasMapEntries store).length (g.identNumber (g.symbolIdent step.symbol)) ↔
        ∀ as, step.aliasAs = some as → g.AliasIsCollected store step.symbol as) := by
    intro p hp i step hstep hkind hmem
    rw [h.aliasesForSymbol_eq store hmem, childSymbol, languageAliasAt_eq hsequences hp hstep]
    cases has : step.aliasAs with
    | none => exact iff_of_true mem_cons_self fun _ h => nomatch h
    | some as =>
      obtain ⟨henum, hne⟩ := h.aliasIdent_spec (mem_usedAliases hsequences hp hstep has)
      dsimp only
      rw [if_pos hne, mem_aliases_iff hmem hkind henum]
      exact ⟨fun hcollected as' heq => Option.some.inj heq ▸ hcollected, fun hall => hall as rfl⟩
  constructor
  · intro hcomplete p hp step hstep hkind hmem
    obtain ⟨i, hi⟩ := getElem?_of_mem hstep
    exact (hstepIff p hp i step hi hkind hmem).mp (hcomplete p hp i step hi hkind hmem)
  · intro hall p hp i step hi hkind hmem
    exact (hstepIff p hp i step hi hkind hmem).mpr
      (hall p hp step (mem_of_getElem? hi) hkind hmem)

end Children

/-! ### An inlined symbol with an alias -/

/-- The productions of `program: alias($._inlined, $.renamed)`, `_inlined: $.child` and
`child: "x"`. -/
def inlinedStore : ProductionStore :=
  [[⟨[⟨.nonTerminal 1, .none, none, some ⟨"renamed", true⟩, none, 0⟩], 0, false⟩],
    [⟨[⟨.nonTerminal 2, .none, none, none, none, 0⟩], 0, false⟩],
    [⟨[⟨.terminal 0, .none, none, none, none, 0⟩], 0, false⟩]]

/-- The production of `program` with the one of `_inlined` in it. -/
def inlinedProduction : Production :=
  ⟨[⟨.nonTerminal 2, .none, none, some ⟨"renamed", true⟩, none, 0⟩], 0, false⟩

/-- The symbols of the grammar in which `_inlined` is inlined. -/
def inlinedAlias : Generator where
  table := ⟨[⟨0, ⟨[(.terminal 0, ⟨0, false⟩)], by decide⟩,
    ⟨[(.nonTerminal 0, .goto 1), (.nonTerminal 2, .goto 2)], by decide⟩, ∅, 0, 0, 0, false⟩], [],
    [.eof, .terminal 0, .nonTerminal 0, .nonTerminal 2]⟩
  aliasSequences := [[], [some ⟨"renamed", true⟩]]
  vars := [("program", .named), ("_inlined", .hidden), ("child", .named)]
  lexicalVariables := [("x", .anonymous)]
  externalTokens := []
  defaultAliases := .empty
  nodup := by decide

theorem prepared_inlinedAlias : inlinedAlias.Prepared where
  symbols_eq := ⟨none, 1, 0, 3, by decide⟩
  eof_defaultAlias := by decide
  nodup_symbolEnum := by decide +kernel

theorem aliasMapComplete_inlinedAlias :
    inlinedAlias.Prepared ∧ inlinedAlias.aliasSequences =
        (productionInfos (fun _ => ()) () [inlinedProduction]).map ProductionInfo.aliasSequence ∧
      (inlinedAlias.AliasMapComplete inlinedStore (fun _ => ()) () [inlinedProduction] ↔
        ∀ p ∈ [inlinedProduction], ∀ step ∈ p.steps, step.symbol.isNonTerminal →
          step.symbol ∈ inlinedAlias.symbols → ∀ as, step.aliasAs = some as →
            inlinedAlias.AliasIsCollected inlinedStore step.symbol as) := by
  have hsequences : inlinedAlias.aliasSequences =
      (productionInfos (fun _ => ()) () [inlinedProduction]).map ProductionInfo.aliasSequence := by
    decide
  exact ⟨prepared_inlinedAlias, hsequences,
    aliasMapComplete_iff prepared_inlinedAlias hsequences inlinedStore⟩

/-- The alias of `_inlined` moves to `child`, and is not in the alias map. -/
theorem exists_not_aliasMapComplete :
    ¬ ∀ (g : Generator) (store : ProductionStore) (inline : List Symbol) (names : SymbolNames)
        (fuel : Nat) (productions : List Production) (map : IndexMap (Nat × Nat) (List Nat))
        (used : List Production),
      g.Prepared → processInlines store inline fuel names = some (.ok (productions, map)) →
      (∀ p ∈ used, p ∈ productions) → g.aliasSequences =
        (productionInfos (fun _ => ()) () used).map ProductionInfo.aliasSequence →
      g.AliasMapComplete store (fun _ => ()) () used := by
  intro h
  have hcomplete := h inlinedAlias inlinedStore [.nonTerminal 1] ⟨[], [], []⟩ 10
    (inlinedStore.flatten ++ [inlinedProduction]) ⟨[((0, 0), [3])], by decide⟩ [inlinedProduction]
    prepared_inlinedAlias (by rfl) (by decide) (by decide)
  have hmem := hcomplete inlinedProduction mem_cons_self 0
    ⟨.nonTerminal 2, .none, none, some ⟨"renamed", true⟩, none, 0⟩ rfl rfl (by decide)
  exact absurd hmem (by decide +kernel)

end Generator

end TreeSitter.Generate
