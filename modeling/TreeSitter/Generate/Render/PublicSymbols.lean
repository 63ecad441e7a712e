import TreeSitter.Generate.Render.Symbols

/-!
# TreeSitter.Generate.Render.PublicSymbols

What the **public symbols** of a parser are good for: symbols that are shown alike have one public
symbol, which is shown like them. A token with a default alias breaks this for a token without one
that has its name and kind, since the search for the name does not look at default aliases
(`Generator.publicSymbolsExact_iff`).
-/

namespace TreeSitter.Generate

open Option List Library

namespace Generator

variable (g : Generator)

/-- How a symbol is shown to users, if it is: under its default alias, or else under its own name
and kind. -/
def shown (symbol : Symbol) : Option Alias :=
  match g.defaultAlias symbol with
  | some as => some as
  | none =>
    match g.metadataForSymbol symbol with
    | (name, .named) => some ⟨name, true⟩
    | (name, .anonymous) => some ⟨name, false⟩
    | (_, .hidden) => none
    | (_, .auxiliary) => none

/-- The public symbols are exact. -/
structure PublicSymbolsExact : Prop where
  idempotent : ∀ symbol ∈ g.symbols,
    g.publicSymbol (g.publicSymbol symbol) = g.publicSymbol symbol
  shown_eq : ∀ symbol ∈ g.symbols, (g.shown symbol).isSome →
    g.shown (g.publicSymbol symbol) = g.shown symbol
  eq_iff : ∀ symbol ∈ g.symbols, ∀ symbol' ∈ g.symbols, (g.shown symbol).isSome →
    (g.shown symbol').isSome →
    (g.publicSymbol symbol = g.publicSymbol symbol' ↔ g.shown symbol = g.shown symbol')

/-! ### When they are -/

/-- The symbols without a default alias that have a name and a kind, in the order of the table. -/
def owners (metadata : String × VariableType) : List Symbol :=
  g.symbols.filter fun symbol =>
    g.defaultAlias symbol = none ∧ g.metadataForSymbol symbol = metadata

/-- The symbol is the one with the lowest numeric value among those with a default alias. -/
structure IsLeast (as : Alias) (symbol : Symbol) : Prop where
  mem : symbol ∈ g.symbols
  defaultAlias : g.defaultAlias symbol = some as
  least : ∀ other ∈ g.symbols, g.defaultAlias other = some as → symbolKey symbol ≤ symbolKey other

/-- What the search for a token's name and kind may find: the token, or another symbol without a
default alias. Of the symbols with a default alias, one that is shown like the token, if the token
is the only one that has its name and kind; for a hidden token, one that is its own public
symbol. -/
def SearchFinds (symbol other : Symbol) : Prop :=
  other = symbol ∨ match g.defaultAlias other with
    | none => True
    | some as =>
      if (g.shown symbol).isSome then
        g.shown symbol = some as ∧ g.owners (g.metadataForSymbol symbol) = [symbol]
      else g.owners (as.value, as.variableType) = [] ∧ g.IsLeast as other

def firstNamed (symbol : Symbol) : Option Symbol :=
  g.symbols.find? fun other => g.metadataForSymbol other = g.metadataForSymbol symbol

/-- A symbol without a default alias does not get in the way. -/
def NameIsClear (symbol : Symbol) : Prop :=
  if symbol.isTerminal then ∀ other, g.firstNamed symbol = some other → g.SearchFinds symbol other
  else (g.shown symbol).isSome →
    (g.owners (g.metadataForSymbol symbol)).head? = some symbol

variable {g}

/-! ### The loops of `init` -/

variable {as : Alias} {symbol : Symbol} {front back : List Symbol}

theorem mapAliased_of_owner {symbol owner : Symbol} {others : List Symbol}
    (h : (others.filter fun other =>
      g.defaultAlias other = none ∧ g.metadataForSymbol other = (as.value, as.variableType)).head? =
        some owner) :
    g.mapAliased as others symbol = owner := by
  induction others generalizing symbol with
  | nil => cases h
  | cons other others ih =>
    rw [mapAliased]
    cases halias : g.defaultAlias other with
    | some otherAlias =>
      rw [filter_cons_of_neg (by simp [halias])] at h
      exact ih h
    | none =>
      dsimp only
      split
      next hname =>
        rw [filter_cons_of_pos (by simp [halias, hname])] at h
        exact Option.some.inj h
      next hname =>
        rw [filter_cons_of_neg (by simp [hname])] at h
        exact ih h

theorem mapAliased_of_not_owner {others : List Symbol}
    (hnone : ∀ other ∈ others, g.defaultAlias other = none →
      g.metadataForSymbol other ≠ (as.value, as.variableType)) :
    (g.mapAliased as others symbol = symbol ∨ g.mapAliased as others symbol ∈ others ∧
      g.defaultAlias (g.mapAliased as others symbol) = some as) ∧
      symbolKey (g.mapAliased as others symbol) ≤ symbolKey symbol ∧
      ∀ other ∈ others, g.defaultAlias other = some as →
        symbolKey (g.mapAliased as others symbol) ≤ symbolKey other := by
  induction others generalizing symbol with
  | nil => exact ⟨.inl rfl, le_refl _, fun _ h => nomatch h⟩
  | cons other others ih =>
    have hrest := fun other' hmem => hnone other' (mem_cons_of_mem other hmem)
    rw [mapAliased]
    cases halias : g.defaultAlias other with
    | none =>
      dsimp only
      rw [if_neg (hnone other mem_cons_self halias)]
      obtain ⟨hmap, hle, hleast⟩ := @ih symbol hrest
      refine ⟨hmap.imp_right fun h => ⟨mem_cons_of_mem _ h.1, h.2⟩, hle, ?_⟩
      rintro other' hmem halias'
      rcases mem_cons.mp hmem with rfl | hmem
      · rw [halias] at halias'
        cases halias'
      · exact hleast other' hmem halias'
    | some otherAlias =>
      dsimp only
      split
      next hbetter =>
        obtain ⟨hlt, rfl⟩ := hbetter
        obtain ⟨hmap, hle, hleast⟩ := @ih other hrest
        refine ⟨.inr ?_, hle.trans hlt.le, ?_⟩
        · rcases hmap with hmap | hmap
          · rw [hmap]
            exact ⟨mem_cons_self, halias⟩
          · exact ⟨mem_cons_of_mem _ hmap.1, hmap.2⟩
        · rintro other' hmem halias'
          rcases mem_cons.mp hmem with rfl | hmem
          · exact hle
          · exact hleast other' hmem halias'
      next hworse =>
        obtain ⟨hmap, hle, hleast⟩ := @ih symbol hrest
        refine ⟨hmap.imp_right fun h => ⟨mem_cons_of_mem _ h.1, h.2⟩, hle, ?_⟩
        rintro other' hmem halias'
        rcases mem_cons.mp hmem with rfl | hmem
        · rw [halias] at halias'
          have hnlt : ¬ symbolKey other' < symbolKey symbol :=
            fun hlt => hworse ⟨hlt, Option.some.inj halias'⟩
          exact hle.trans (not_lt.mp hnlt)
        · exact hleast other' hmem halias'

def symbolMapBehind (g : Generator) (symbolMap : IndexMap Symbol Symbol) (symbols : List Symbol) :
    IndexMap Symbol Symbol :=
  symbols.foldl (fun symbolMap symbol => symbolMap.insert symbol (g.mapSymbol symbolMap symbol))
    symbolMap

theorem get?_symbolMapBehind_of_not_mem {symbols : List Symbol}
    {symbolMap : IndexMap Symbol Symbol} (h : symbol ∉ symbols) :
    (g.symbolMapBehind symbolMap symbols).get? symbol = symbolMap.get? symbol := by
  induction symbols generalizing symbolMap with
  | nil => rfl
  | cons first symbols ih =>
    obtain ⟨hne, hmem⟩ := ne_and_not_mem_of_not_mem_cons h
    have hrest := @ih (symbolMap.insert first (g.mapSymbol symbolMap first)) hmem
    rw [IndexMap.get?_insert, if_neg (Ne.symm hne)] at hrest
    exact hrest

theorem publicSymbol_eq (hsymbols : g.symbols = front ++ symbol :: back) :
    g.publicSymbol symbol = g.mapSymbol (g.symbolMapBehind .empty front) symbol := by
  have hnodup := g.nodup
  rw [← symbols, hsymbols] at hnodup
  have hback : symbol ∉ back :=
    (nodup_cons.mp (nodup_append.mp hnodup).2.1).1
  have hmap : g.symbolMap = g.symbolMapBehind
      ((g.symbolMapBehind .empty front).insert symbol
        (g.mapSymbol (g.symbolMapBehind .empty front) symbol)) back := by
    rw [symbolMap, hsymbols, foldl_append]
    rfl
  rw [publicSymbol, hmap, get?_symbolMapBehind_of_not_mem hback, IndexMap.get?_insert, if_pos rfl]
  rfl

theorem get?_symbolMapBehind (hsymbols : g.symbols = front ++ back) (hmem : symbol ∈ front) :
    (g.symbolMapBehind .empty front).get? symbol = some (g.publicSymbol symbol) := by
  obtain ⟨before, behind, rfl⟩ := append_of_mem hmem
  rw [append_assoc, cons_append] at hsymbols
  rw [publicSymbol_eq hsymbols]
  have hnodup := g.nodup
  rw [← symbols, hsymbols] at hnodup
  have hbehind : symbol ∉ behind := fun hin =>
    (nodup_cons.mp (nodup_append.mp hnodup).2.1).1 (mem_append_left back hin)
  have hmap : g.symbolMapBehind .empty (before ++ symbol :: behind) = g.symbolMapBehind
      ((g.symbolMapBehind .empty before).insert symbol
        (g.mapSymbol (g.symbolMapBehind .empty before) symbol)) behind := by
    rw [symbolMapBehind, foldl_append]
    rfl
  rw [hmap, get?_symbolMapBehind_of_not_mem hbehind, IndexMap.get?_insert, if_pos rfl]

/-! ### The public symbol by kind -/

theorem publicSymbol_of_defaultAlias (hmem : symbol ∈ g.symbols)
    (halias : g.defaultAlias symbol = some as) :
    g.publicSymbol symbol = g.mapAliased as g.symbols symbol := by
  obtain ⟨front, back, hsymbols⟩ := append_of_mem hmem
  rw [publicSymbol_eq hsymbols, mapSymbol, halias]

theorem publicSymbol_of_not_isTerminal (hmem : symbol ∈ g.symbols)
    (halias : g.defaultAlias symbol = none) (hkind : ¬ symbol.isTerminal) :
    g.publicSymbol symbol = symbol := by
  obtain ⟨front, back, hsymbols⟩ := append_of_mem hmem
  rw [publicSymbol_eq hsymbols, mapSymbol, halias]
  exact if_neg hkind

theorem exists_firstNamed (hmem : symbol ∈ g.symbols) :
    ∃ other, g.firstNamed symbol = some other := by
  rw [← isSome_iff_exists, firstNamed, find?_isSome]
  exact ⟨symbol, hmem, decide_eq_true rfl⟩

/-- A token is its own public symbol if the first symbol with its name and kind is mapped to it,
and it has that one as its public symbol otherwise. -/
theorem publicSymbol_of_isTerminal {symbol other : Symbol} (hmem : symbol ∈ g.symbols)
    (halias : g.defaultAlias symbol = none) (hkind : symbol.isTerminal)
    (hfirst : g.firstNamed symbol = some other) :
    g.publicSymbol symbol = if g.publicSymbol other = symbol then symbol else other := by
  obtain ⟨front, back, hsymbols⟩ := append_of_mem hmem
  have heq := publicSymbol_eq hsymbols
  rw [mapSymbol, halias] at heq
  dsimp only at heq
  rw [if_pos hkind, mapTerminal, ← firstNamed, hfirst] at heq
  dsimp only at heq
  rw [heq]
  have hfind := hfirst
  rw [firstNamed, hsymbols, find?_append] at hfind
  cases hfront : front.find? fun other =>
      g.metadataForSymbol other = g.metadataForSymbol symbol with
  | some found =>
    rw [hfront, some_or, Option.some.injEq] at hfind
    subst hfind
    rw [get?_symbolMapBehind hsymbols (mem_of_find?_eq_some hfront)]
    simp only [Option.some.injEq]
  | none =>
    have hself : decide (g.metadataForSymbol symbol = g.metadataForSymbol symbol) = true :=
      decide_eq_true rfl
    rw [hfront, none_or, find?_cons, hself, Option.some.injEq] at hfind
    subst hfind
    simp only [ite_self]

/-! ### Names -/

theorem mem_owners_iff {metadata : String × VariableType} :
    symbol ∈ g.owners metadata ↔ symbol ∈ g.symbols ∧ g.defaultAlias symbol = none ∧
      g.metadataForSymbol symbol = metadata := by
  rw [owners, mem_filter, decide_eq_true_eq]

theorem shown_of_defaultAlias (h : g.defaultAlias symbol = some as) : g.shown symbol = some as := by
  rw [shown, h]

theorem shown_eq_some_iff (h : g.defaultAlias symbol = none) :
    g.shown symbol = some as ↔ g.metadataForSymbol symbol = (as.value, as.variableType) := by
  obtain ⟨value, isNamed⟩ := as
  rw [shown, h]
  obtain ⟨name, kind⟩ := g.metadataForSymbol symbol
  cases kind <;> cases isNamed <;> simp [Alias.variableType]

theorem firstNamed_spec {symbol other : Symbol} (h : g.firstNamed symbol = some other) :
    other ∈ g.symbols ∧ g.metadataForSymbol other = g.metadataForSymbol symbol ∧
      g.firstNamed other = some other := by
  have hfound := find?_some h
  have hname : g.metadataForSymbol other = g.metadataForSymbol symbol := of_decide_eq_true hfound
  refine ⟨mem_of_find?_eq_some h, hname, ?_⟩
  rw [firstNamed, hname]
  exact h

theorem head?_owners_of_firstNamed {symbol other : Symbol} (h : g.firstNamed symbol = some other)
    (halias : g.defaultAlias other = none) :
    (g.owners (g.metadataForSymbol symbol)).head? = some other := by
  obtain ⟨hname, front, back, hsymbols, hfront⟩ := find?_eq_some_iff_append.mp h
  have hname := of_decide_eq_true hname
  rw [owners, head?_filter, find?_eq_some_iff_append]
  refine ⟨decide_eq_true ⟨halias, hname⟩, front, back, hsymbols, fun symbol' hmem => ?_⟩
  simp_all

theorem publicSymbol_of_firstNamed_self (hmem : symbol ∈ g.symbols)
    (halias : g.defaultAlias symbol = none) (h : g.firstNamed symbol = some symbol) :
    g.publicSymbol symbol = symbol := by
  by_cases hkind : symbol.isTerminal
  · rw [publicSymbol_of_isTerminal hmem halias hkind h, ite_self]
  · exact publicSymbol_of_not_isTerminal hmem halias hkind

theorem publicSymbol_of_owner {symbol owner : Symbol} (hmem : symbol ∈ g.symbols)
    (halias : g.defaultAlias symbol = some as)
    (howner : (g.owners (as.value, as.variableType)).head? = some owner) :
    g.publicSymbol symbol = owner := by
  rw [publicSymbol_of_defaultAlias hmem halias]
  exact mapAliased_of_owner howner

theorem publicSymbol_of_owners_eq_nil (hmem : symbol ∈ g.symbols)
    (halias : g.defaultAlias symbol = some as)
    (hnil : g.owners (as.value, as.variableType) = []) :
    g.IsLeast as (g.publicSymbol symbol) := by
  have hnone : ∀ other ∈ g.symbols, g.defaultAlias other = none →
      g.metadataForSymbol other ≠ (as.value, as.variableType) := by
    intro other hother hnone hname
    have howner : other ∈ g.owners (as.value, as.variableType) :=
      mem_owners_iff.mpr ⟨hother, hnone, hname⟩
    rw [hnil] at howner
    cases howner
  obtain ⟨hmap, -, hleast⟩ := @mapAliased_of_not_owner g as symbol g.symbols hnone
  rw [publicSymbol_of_defaultAlias hmem halias]
  rcases hmap with hmap | ⟨hmap, halias'⟩
  · rw [hmap] at hleast ⊢
    exact ⟨hmem, halias, hleast⟩
  · exact ⟨hmap, halias', hleast⟩

theorem IsLeast.unique {symbol symbol' : Symbol} (h : g.IsLeast as symbol)
    (h' : g.IsLeast as symbol') : symbol = symbol' :=
  symbolKey_injective (le_antisymm (h.least symbol' h'.mem h'.defaultAlias)
    (h'.least symbol h.mem h.defaultAlias))

/-! ### Enough -/

theorem head?_owners_of_nameIsClear (hmem : symbol ∈ g.symbols)
    (halias : g.defaultAlias symbol = none) (hshown : (g.shown symbol).isSome)
    (hclear : g.NameIsClear symbol) :
    (g.owners (g.metadataForSymbol symbol)).head? = some (g.publicSymbol symbol) := by
  rw [NameIsClear] at hclear
  split at hclear
  next hkind =>
    obtain ⟨other, hfirst⟩ := exists_firstNamed hmem
    obtain ⟨hother, hname, hself⟩ := firstNamed_spec hfirst
    have hpublic := publicSymbol_of_isTerminal hmem halias hkind hfirst
    rcases hclear other hfirst with rfl | hfinds
    · rw [hpublic, ite_self]
      exact head?_owners_of_firstNamed hfirst halias
    · cases halias' : g.defaultAlias other with
      | none =>
        rw [hpublic, publicSymbol_of_firstNamed_self hother halias' hself,
          head?_owners_of_firstNamed hfirst halias']
        split
        next heq => rw [heq]
        next => rfl
      | some as =>
        rw [halias'] at hfinds
        dsimp only at hfinds
        rw [if_pos hshown] at hfinds
        obtain ⟨has, howners⟩ := hfinds
        have hhead : (g.owners (as.value, as.variableType)).head? = some symbol := by
          rw [← (shown_eq_some_iff halias).mp has, howners]
          rfl
        rw [hpublic, if_pos (publicSymbol_of_owner hother halias' hhead), howners]
        rfl
  next hkind =>
    rw [publicSymbol_of_not_isTerminal hmem halias hkind]
    exact hclear hshown

section

variable (hclear : ∀ symbol ∈ g.symbols, g.defaultAlias symbol = none → g.NameIsClear symbol)

include hclear

variable {symbol : Symbol} {as : Alias}

/-- The public symbol of a symbol that is shown: the first owner of how it is shown, or else the
least symbol with it as an alias. -/
theorem publicSymbol_of_shown (hmem : symbol ∈ g.symbols) (has : g.shown symbol = some as) :
    (g.owners (as.value, as.variableType)).head? = some (g.publicSymbol symbol) ∨
      g.owners (as.value, as.variableType) = [] ∧ g.IsLeast as (g.publicSymbol symbol) := by
  cases halias : g.defaultAlias symbol with
  | none =>
    rw [← (shown_eq_some_iff halias).mp has]
    exact .inl (head?_owners_of_nameIsClear hmem halias (isSome_of_eq_some has)
      (hclear symbol hmem halias))
  | some as' =>
    have heq := (shown_of_defaultAlias halias).symm.trans has
    cases heq
    cases howners : g.owners (as.value, as.variableType) with
    | nil => exact .inr ⟨rfl, publicSymbol_of_owners_eq_nil hmem halias howners⟩
    | cons owner owners =>
      have hhead := congrArg List.head? howners
      exact .inl (congrArg some (publicSymbol_of_owner hmem halias hhead)).symm

theorem publicSymbol_mem_shown (hmem : symbol ∈ g.symbols) (has : g.shown symbol = some as) :
    g.publicSymbol symbol ∈ g.symbols ∧ g.shown (g.publicSymbol symbol) = some as := by
  rcases publicSymbol_of_shown hclear hmem has with hhead | ⟨-, hleast⟩
  · obtain ⟨hpublic, hnone, hname⟩ := mem_owners_iff.mp (mem_of_mem_head? hhead)
    exact ⟨hpublic, (shown_eq_some_iff hnone).mpr hname⟩
  · exact ⟨hleast.mem, shown_of_defaultAlias hleast.defaultAlias⟩

theorem publicSymbol_congr
    {symbol symbol' : Symbol} (hmem : symbol ∈ g.symbols) (hmem' : symbol' ∈ g.symbols)
    (has : g.shown symbol = some as) (has' : g.shown symbol' = some as) :
    g.publicSymbol symbol = g.publicSymbol symbol' := by
  rcases publicSymbol_of_shown hclear hmem has with hhead | ⟨hnil, hleast⟩
  · rcases publicSymbol_of_shown hclear hmem' has' with hhead' | ⟨hnil, -⟩
    · exact Option.some.inj (hhead.symm.trans hhead')
    · rw [hnil] at hhead
      cases hhead
  · rcases publicSymbol_of_shown hclear hmem' has' with hhead' | ⟨-, hleast'⟩
    · rw [hnil] at hhead'
      cases hhead'
    · exact hleast.unique hleast'

omit hclear in
theorem publicSymbol_idempotent_of_hidden (hmem : symbol ∈ g.symbols)
    (hshown : ¬ (g.shown symbol).isSome) (hclear : g.NameIsClear symbol) :
    g.publicSymbol (g.publicSymbol symbol) = g.publicSymbol symbol := by
  have halias : g.defaultAlias symbol = none := by
    rw [eq_none_iff_forall_ne_some]
    intro as has
    rw [shown_of_defaultAlias has] at hshown
    exact hshown rfl
  by_cases hkind : symbol.isTerminal
  · rw [NameIsClear, if_pos hkind] at hclear
    obtain ⟨other, hfirst⟩ := exists_firstNamed hmem
    obtain ⟨hother, -, hself⟩ := firstNamed_spec hfirst
    have hpublic := publicSymbol_of_isTerminal hmem halias hkind hfirst
    -- The other symbol is its own public symbol in each case.
    have hidem : g.publicSymbol other = other := by
      rcases hclear other hfirst with rfl | hfinds
      · rw [hpublic, ite_self]
      · cases halias' : g.defaultAlias other with
        | none => exact publicSymbol_of_firstNamed_self hother halias' hself
        | some as =>
          rw [halias'] at hfinds
          dsimp only at hfinds
          rw [if_neg hshown] at hfinds
          exact (publicSymbol_of_owners_eq_nil hother halias' hfinds.1).unique hfinds.2
    rw [hidem] at hpublic
    rw [hpublic]
    split
    next heq => rw [← heq, hidem]
    next => exact hidem
  · have hpublic := publicSymbol_of_not_isTerminal hmem halias hkind
    rw [hpublic, hpublic]

theorem publicSymbolsExact_of_nameIsClear
 :
    g.PublicSymbolsExact where
  idempotent symbol hmem := by
    by_cases hshown : (g.shown symbol).isSome
    · obtain ⟨as, has⟩ := isSome_iff_exists.mp hshown
      obtain ⟨hpublic, has'⟩ := publicSymbol_mem_shown hclear hmem has
      exact publicSymbol_congr hclear hpublic hmem has' has
    · have halias : g.defaultAlias symbol = none := by
        rw [eq_none_iff_forall_ne_some]
        intro as has
        rw [shown_of_defaultAlias has] at hshown
        exact hshown rfl
      exact publicSymbol_idempotent_of_hidden hmem hshown (hclear symbol hmem halias)
  shown_eq symbol hmem hshown := by
    obtain ⟨as, has⟩ := isSome_iff_exists.mp hshown
    rw [(publicSymbol_mem_shown hclear hmem has).2, has]
  eq_iff symbol hmem symbol' hmem' hshown hshown' := by
    obtain ⟨as, has⟩ := isSome_iff_exists.mp hshown
    obtain ⟨as', has'⟩ := isSome_iff_exists.mp hshown'
    constructor
    · intro heq
      have hshownEq := (publicSymbol_mem_shown hclear hmem has).2
      rw [heq, (publicSymbol_mem_shown hclear hmem' has').2] at hshownEq
      rw [has, has', hshownEq]
    · intro heq
      exact publicSymbol_congr hclear hmem hmem' has (by rw [← heq, has])

end

/-! ### Necessary -/

theorem shown_congr {symbol symbol' : Symbol} (halias : g.defaultAlias symbol = none)
    (halias' : g.defaultAlias symbol' = none)
    (hname : g.metadataForSymbol symbol = g.metadataForSymbol symbol') :
    g.shown symbol = g.shown symbol' := by
  rw [shown, shown, halias, halias', hname]

variable {symbol : Symbol}

theorem PublicSymbolsExact.head?_owners (h : g.PublicSymbolsExact)
    (hmem : symbol ∈ g.symbols) (halias : g.defaultAlias symbol = none)
    (hkind : ¬ symbol.isTerminal) (hshown : (g.shown symbol).isSome) :
    (g.owners (g.metadataForSymbol symbol)).head? = some symbol := by
  have hself := publicSymbol_of_not_isTerminal hmem halias hkind
  cases howners : g.owners (g.metadataForSymbol symbol) with
  | nil =>
    have howner := mem_owners_iff.mpr ⟨hmem, halias, rfl⟩
    rw [howners] at howner
    cases howner
  | cons owner owners =>
    have hmemOwner : owner ∈ g.owners (g.metadataForSymbol symbol) := by
      rw [howners]
      exact mem_cons_self
    obtain ⟨howner, halias', hname⟩ := mem_owners_iff.mp hmemOwner
    have hshownEq := shown_congr halias' halias hname
    have hpublic : g.publicSymbol owner = symbol := by
      rw [(h.eq_iff owner howner symbol hmem (hshownEq ▸ hshown) hshown).mpr hshownEq, hself]
    by_cases hkind' : owner.isTerminal
    · obtain ⟨other, hfirst⟩ := exists_firstNamed howner
      have hpublic' := publicSymbol_of_isTerminal howner halias' hkind' hfirst
      rw [hpublic] at hpublic'
      split at hpublic'
      next => rw [hpublic', head?_cons]
      next =>
        subst hpublic'
        rw [← howners, ← hname]
        exact head?_owners_of_firstNamed hfirst halias
    · rw [publicSymbol_of_not_isTerminal howner halias' hkind'] at hpublic
      rw [hpublic, head?_cons]

/-- If the first symbol with a token's name has a default alias, its public symbol is the token, or
the public symbol of the token is that symbol. -/
theorem publicSymbol_cases {symbol other : Symbol} (hmem : symbol ∈ g.symbols)
    (halias : g.defaultAlias symbol = none) (hkind : symbol.isTerminal)
    (hfirst : g.firstNamed symbol = some other) :
    g.publicSymbol other = symbol ∧ g.publicSymbol symbol = symbol ∨
      g.publicSymbol other ≠ symbol ∧ g.publicSymbol symbol = other := by
  rw [publicSymbol_of_isTerminal hmem halias hkind hfirst]
  split
  next heq => exact .inl ⟨heq, rfl⟩
  next hne => exact .inr ⟨hne, rfl⟩

theorem publicSymbol_defaultAlias_cases {as : Alias} (hmem : symbol ∈ g.symbols)
    (halias : g.defaultAlias symbol = some as) :
    (g.owners (as.value, as.variableType)).head? = some (g.publicSymbol symbol) ∧
        g.defaultAlias (g.publicSymbol symbol) = none ∧
        g.metadataForSymbol (g.publicSymbol symbol) = (as.value, as.variableType) ∨
      g.owners (as.value, as.variableType) = [] ∧ g.IsLeast as (g.publicSymbol symbol) := by
  cases howners : g.owners (as.value, as.variableType) with
  | nil => exact .inr ⟨rfl, publicSymbol_of_owners_eq_nil hmem halias howners⟩
  | cons owner owners =>
    have hmemOwner : owner ∈ g.owners (as.value, as.variableType) := by
      rw [howners]
      exact mem_cons_self
    obtain ⟨-, hnone, hname⟩ := mem_owners_iff.mp hmemOwner
    rw [publicSymbol_of_owner hmem halias (congrArg List.head? howners)]
    exact .inl ⟨rfl, hnone, hname⟩

theorem publicSymbol_mem (hmem : symbol ∈ g.symbols) : g.publicSymbol symbol ∈ g.symbols := by
  cases halias : g.defaultAlias symbol with
  | some as =>
    rcases publicSymbol_defaultAlias_cases hmem halias with ⟨hhead, -, -⟩ | ⟨-, hleast⟩
    · exact (mem_owners_iff.mp (mem_of_mem_head? hhead)).1
    · exact hleast.mem
  | none =>
    by_cases hkind : symbol.isTerminal
    · obtain ⟨other, hfirst⟩ := exists_firstNamed hmem
      rcases publicSymbol_cases hmem halias hkind hfirst with ⟨-, hself⟩ | ⟨-, hself⟩
      · rwa [hself]
      · rw [hself]
        exact (firstNamed_spec hfirst).1
    · rwa [publicSymbol_of_not_isTerminal hmem halias hkind]

theorem publicSymbol_ne_eof (heof : g.defaultAlias .eof = none)
    (hmem : symbol ∈ g.symbols) (hshown : (g.shown symbol).isSome) :
    g.publicSymbol symbol ≠ .eof := by
  intro heq
  have hhidden : g.metadataForSymbol .eof = ("end", .hidden) := rfl
  cases halias : g.defaultAlias symbol with
  | some as =>
    rcases publicSymbol_defaultAlias_cases hmem halias with ⟨-, -, hname⟩ | ⟨-, hleast⟩
    · rw [heq, hhidden, Prod.mk.injEq] at hname
      have hkind := hname.2
      rw [Alias.variableType] at hkind
      split at hkind <;> cases hkind
    · have halias' := hleast.defaultAlias
      rw [heq, heof] at halias'
      cases halias'
  | none =>
    have hname : g.metadataForSymbol symbol = ("end", .hidden) := by
      by_cases hkind : symbol.isTerminal
      · obtain ⟨other, hfirst⟩ := exists_firstNamed hmem
        rcases publicSymbol_cases hmem halias hkind hfirst with ⟨-, hself⟩ | ⟨-, hself⟩
        · rw [← hself, heq, hhidden]
        · rw [← (firstNamed_spec hfirst).2.1, ← hself, heq, hhidden]
      · rw [← publicSymbol_of_not_isTerminal hmem halias hkind, heq, hhidden]
    rw [shown, halias, hname] at hshown
    cases hshown

/-- If the public symbol of an aliased symbol is a token with the same name, it is the only symbol
with this name and without a default alias. -/
theorem PublicSymbolsExact.owners_eq (h : g.PublicSymbolsExact) {symbol other : Symbol}
    (hmem : symbol ∈ g.symbols) (halias : g.defaultAlias symbol = none)
    (hshown : (g.shown symbol).isSome) (hne : other ≠ symbol)
    (hfirst : g.firstNamed symbol = some other)
    (hself : g.publicSymbol symbol = symbol) :
    g.owners (g.metadataForSymbol symbol) = [symbol] := by
  have hall : ∀ owner ∈ g.owners (g.metadataForSymbol symbol), owner = symbol := by
    intro owner hmemOwner
    obtain ⟨howner, halias', hname⟩ := mem_owners_iff.mp hmemOwner
    have hshownEq := shown_congr halias' halias hname
    have hpublic' : g.publicSymbol owner = symbol := by
      rw [(h.eq_iff owner howner symbol hmem (hshownEq ▸ hshown) hshown).mpr hshownEq, hself]
    by_cases hkind : owner.isTerminal
    · have hfirst' : g.firstNamed owner = some other := by
        rw [firstNamed, hname]
        exact hfirst
      rcases publicSymbol_cases howner halias' hkind hfirst' with ⟨-, hown⟩ | ⟨-, hown⟩
      · exact hown.symm.trans hpublic'
      · exact absurd (hown.symm.trans hpublic') hne
    · rw [← hpublic', publicSymbol_of_not_isTerminal howner halias' hkind]
  have hnodup : (g.owners (g.metadataForSymbol symbol)).Nodup := g.nodup.filter _
  have hperm := (perm_ext_iff_of_nodup hnodup (nodup_singleton symbol)).mpr fun owner =>
    ⟨fun hmemOwner => mem_singleton.mpr (hall owner hmemOwner), fun hmemOwner => by
      rw [mem_singleton.mp hmemOwner]
      exact mem_owners_iff.mpr ⟨hmem, halias, rfl⟩⟩
  exact perm_singleton.mp hperm

theorem PublicSymbolsExact.searchFinds (h : g.PublicSymbolsExact) {symbol other : Symbol}
    (hmem : symbol ∈ g.symbols) (halias : g.defaultAlias symbol = none)
    (hkind : symbol.isTerminal) (hfirst : g.firstNamed symbol = some other) :
    g.SearchFinds symbol other := by
  by_cases hne : other = symbol
  · exact .inl hne
  obtain ⟨hother, -, -⟩ := firstNamed_spec hfirst
  refine .inr ?_
  cases halias' : g.defaultAlias other with
  | none => trivial
  | some as =>
    have hshownOther := shown_of_defaultAlias halias'
    have hpublicOther := publicSymbol_defaultAlias_cases hother halias'
    dsimp only
    rcases publicSymbol_cases hmem halias hkind hfirst with
      ⟨hpublic, hself⟩ | ⟨-, hself⟩
    · rw [hpublic] at hpublicOther
      rcases hpublicOther with ⟨-, -, hnameAs⟩ | ⟨-, hleast⟩
      · have hshown : g.shown symbol = some as := (shown_eq_some_iff halias).mpr hnameAs
        have hsome := isSome_of_eq_some hshown
        rw [if_pos hsome]
        exact ⟨hshown, h.owners_eq hmem halias hsome hne hfirst hself⟩
      · have halias'' := hleast.defaultAlias
        rw [halias] at halias''
        cases halias''
    · -- The other symbol is the public one, so it must be its own.
      have hidem : g.publicSymbol other = other := by
        have hidem := h.idempotent symbol hmem
        rwa [hself] at hidem
      rw [hidem] at hpublicOther
      rcases hpublicOther with ⟨-, hnone, -⟩ | ⟨hnil, hleast⟩
      · rw [halias'] at hnone
        cases hnone
      · split
        next hshown =>
          have hshownEq := h.shown_eq symbol hmem hshown
          rw [hself, hshownOther] at hshownEq
          have howner : symbol ∈ g.owners (as.value, as.variableType) :=
            mem_owners_iff.mpr ⟨hmem, halias, (shown_eq_some_iff halias).mp hshownEq.symm⟩
          rw [hnil] at howner
          cases howner
        next => exact ⟨hnil, hleast⟩

/-- **When the public symbols are exact.** -/
theorem publicSymbolsExact_iff : g.PublicSymbolsExact ↔
    ∀ symbol ∈ g.symbols, g.defaultAlias symbol = none → g.NameIsClear symbol := by
  refine ⟨fun h symbol hmem halias => ?_, publicSymbolsExact_of_nameIsClear⟩
  rw [NameIsClear]
  split
  next hkind => exact fun other hfirst => h.searchFinds hmem halias hkind hfirst
  next hkind => exact fun hshown => h.head?_owners hmem halias hkind hshown

/-- A grammar with `alias("x", $.y)` and `token.immediate("x")`. -/
def immediateToken : Generator where
  table := ⟨[], [], [.eof, .terminal 0, .terminal 1]⟩
  aliasSequences := []
  vars := []
  lexicalVariables := [("x", .anonymous), ("x", .anonymous)]
  externalTokens := []
  defaultAliases := ⟨[(.terminal 0, ⟨"y", true⟩)], by decide⟩
  nodup := by decide

/-- The public symbol of a token is shown under the alias of another one. -/
theorem exists_not_publicSymbolsExact : ¬ ∀ g : Generator, g.PublicSymbolsExact := by
  intro h
  have hshown := (h immediateToken).shown_eq (.terminal 1) (by decide) (by decide)
  exact absurd hshown (by decide)

end Generator

end TreeSitter.Generate
