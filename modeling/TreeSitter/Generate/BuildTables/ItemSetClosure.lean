import TreeSitter.Generate.BuildTables.ItemSetBuilderSound

/-!
# TreeSitter.Generate.BuildTables.ItemSetClosure

The **LR(1) closure** of an item set, and when `transitive_closure` computes it. The code adds what
left corners get along live paths, `LiveClosure`. That is the closure if and only if the left
corners that no live path goes on from add nothing of their own (`transitiveClosure_isClosure_iff`).
-/

namespace TreeSitter.Generate

open List Library

variable {g : SyntaxGrammar}

/-! ### The builder -/

variable {i : Nat}

theorem getElem?_of_forall₂_range {β : Type} {r : Nat → β → Prop} {n : Nat} {ys : List β}
    (h : List.Forall₂ r (List.range n) ys) (hi : i < n) : ∃ y, ys[i]? = some y ∧ r i y := by
  have hlt : i < (List.range n).length := by rwa [List.length_range]
  have hlt' : i < ys.length := h.length_eq ▸ hlt
  have hget := h.get hlt hlt'
  rw [get_eq_getElem, getElem_range] at hget
  exact ⟨ys[i], getElem?_eq_getElem hlt', hget⟩

theorem exists_firstSets (hg : PlainGrammar g) :
    ∃ n variableSets, (∀ fuel ≥ n,
      (List.range g.varProds.length).mapM (firstSetOf fuel g) = some variableSets) ∧
      FirstSets.Correct g ⟨variableSets⟩ := by
  obtain ⟨n, variableSets, hrun, hsets⟩ :=
    exists_mapM_run fun i (_ : i ∈ List.range g.varProds.length) => firstSetOf_spec hg i
  refine ⟨n, variableSets, hrun, ?_, ?_⟩
  · intro s hs x
    rcases hs.cases with htoken | ⟨hkind, hlt⟩
    · have hself : x ∈ FirstSets.firstSet g ⟨variableSets⟩ s ↔ x = s := by
        obtain ⟨kind, index⟩ := s
        cases kind with
        | terminal =>
          have hlt : index < g.nTerminals := hs
          simp [FirstSets.firstSet, hlt]
        | external =>
          have hlt : index < g.nExternals := hs
          simp [FirstSets.firstSet, hlt]
        | nonTerminal => rcases htoken with h | h <;> cases h
        | endOfFile | endOfNonTerminalExtra => cases hs
      rw [hself]
      refine ⟨fun hx => ?_, fun hx => hx.eq_of_isToken htoken⟩
      rw [hx]
      exact .token htoken
    · obtain ⟨state, hstate, hfirst, -⟩ := getElem?_of_forall₂_range hsets hlt
      rw [eq_nonTerminal_of_isNonTerminal hkind, ← hfirst]
      show x ∈ ((variableSets[s.index]?).map FirstSetState.firstSet).getD ∅ ↔ _
      rw [hstate, Option.map_some, Option.getD_some]
  · intro s
    rw [FirstSets.reservedFirstSet]
    split
    · cases hstate : variableSets[s.index]? with
      | none => rfl
      | some state =>
        have hlt := (List.getElem?_eq_some_iff.mp hstate).1
        rw [← hsets.length_eq, List.length_range] at hlt
        obtain ⟨state', hstate', -, hreserved⟩ := getElem?_of_forall₂_range hsets hlt
        obtain rfl : state' = state := Option.some.inj (hstate'.symm.trans hstate)
        exact hreserved
    · rfl

def initialItem (i id : Nat) : ParseItem := { variableIndex := i, stepIndex := 0, prodId := id }

/-- What an addition says of its item. -/
def AdditionInfo.Has (info : AdditionInfo) : Ahead → Prop
  | .here => True
  | .token x => x ∈ info.lookaheads
  | .follow => info.propagatesLookaheads = true

/-- What some additions say of an item. -/
def Adds (g : SyntaxGrammar) (additions : List TransitiveClosureAddition) (κ : ItemKey)
    (a : Ahead) : Prop :=
  ∃ addition ∈ additions, addition.item.key g = κ ∧ addition.info.Has a

variable {κ : ItemKey} {additions : List TransitiveClosureAddition} {a : Ahead}

theorem adds_findOrPush {addition : TransitiveClosureAddition} :
    Adds g (findOrPush g additions addition) κ a ↔ Adds g additions κ a ∨
      addition.item.key g = κ ∧ addition.info.Has a := by
  rw [findOrPush]
  split
  · rename_i hany
    refine ⟨.inl, fun h => h.elim id fun h => ?_⟩
    obtain ⟨addition', hmem, heq⟩ := any_eq_true.mp hany
    rw [decide_eq_true_eq] at heq
    exact ⟨addition', hmem, heq.1.trans h.1, heq.2 ▸ h.2⟩
  · simp only [Adds, mem_append, mem_singleton, or_and_right, exists_or, exists_eq_left]

theorem adds_foldl_findOrPush {new : List TransitiveClosureAddition} :
    ∀ {additions : List TransitiveClosureAddition},
      Adds g (new.foldl (findOrPush g) additions) κ a ↔ Adds g additions κ a ∨ Adds g new κ a := by
  induction new with
  | nil =>
    intro additions
    exact ⟨.inl, fun h => h.resolve_right nofun⟩
  | cons addition new ih =>
    intro additions
    rw [foldl_cons, ih, adds_findOrPush, or_assoc]
    simp only [Adds, mem_cons, or_and_right, exists_or, exists_eq_left]

variable {k : Nat}

/-- The additions of a non-terminal are the items at the beginnings of its productions. -/
theorem adds_variableAdditions (hg : PlainGrammar g) {info : FollowSetInfo} :
    Adds g (variableAdditions g (k, info)) κ a ↔
      ∃ id ∈ g.variableProdIds k, (initialItem k id).key g = κ ∧ info.Has a := by
  have hadditions : ∀ i id (info : AdditionInfo), id ∈ g.variableProdIds k →
      productionAdditions g info i id = [⟨initialItem i id, info⟩] := by
    intro i id info hid
    have hnone : ∀ key, g.inlines.get? key = none := by
      intro key
      rw [IndexMap.get?, hg.inlines]
      rfl
    have heof := (hg.plainProduction hid).1
    rw [productionAdditions, hnone]
    simp only [itemInfo, heof, Bool.false_eq_true, if_false]
    rfl
  rw [Adds, variableAdditions, if_neg (by rw [hg.inlined]; exact not_mem_nil)]
  simp only [mem_flatMap]
  constructor
  · rintro ⟨addition, ⟨id, hid, hmem⟩, hkey, hhas⟩
    rw [hadditions k id _ hid, mem_singleton] at hmem
    subst hmem
    exact ⟨id, hid, hkey, by cases a <;> exact hhas⟩
  · rintro ⟨id, hid, hkey, hhas⟩
    refine ⟨⟨initialItem k id, info.additionInfo g⟩, ⟨id, hid, ?_⟩, hkey, ?_⟩
    · rw [hadditions k id _ hid]
      exact mem_singleton.mpr rfl
    · cases a <;> exact hhas

/-- A builder whose first sets are FIRST, and whose additions are what left corners get along live
paths. -/
structure ParseItemSetBuilder.Correct (g : SyntaxGrammar) (b : ParseItemSetBuilder) : Prop where
  firstSets : b.firstSets.Correct g
  additions : ∀ i < g.varProds.length, ∀ κ a,
    Adds g ((b.transitiveClosureAdditions[i]?).getD []) κ a ↔
      ∃ k, ∃ id ∈ g.variableProdIds k, (initialItem k id).key g = κ ∧ Gets g i k a

/-- **`ParseItemSetBuilder::new` terminates with a correct builder.** -/
theorem ParseItemSetBuilder.new_spec (hg : PlainGrammar g) :
    ∃ n b, (∀ fuel ≥ n, ParseItemSetBuilder.new fuel g = some b) ∧ b.Correct g := by
  obtain ⟨n, variableSets, hrun, hsets⟩ := exists_firstSets hg
  obtain ⟨m, infos, hrun', hinfos⟩ :=
    exists_mapM_run fun i (hi : i ∈ List.range g.varProds.length) =>
      followSets_spec hg hsets (mem_range.mp hi)
  refine ⟨max n m, ⟨⟨variableSets⟩, infos.map fun m =>
    (m.entries.flatMap (variableAdditions g)).foldl (findOrPush g) []⟩, fun fuel hfuel => ?_, hsets,
    ?_⟩
  · have hfollow : (List.range g.varProds.length).mapM (followSets fuel g ⟨variableSets⟩) =
        some infos := hrun' fuel (le_of_max_le_right hfuel)
    rw [ParseItemSetBuilder.new, hrun fuel (le_of_max_le_left hfuel), Option.bind_eq_bind,
      Option.bind_some]
    dsimp only
    rw [hfollow]
    rfl
  · intro i hi κ a
    obtain ⟨table, htable, hgets⟩ := getElem?_of_forall₂_range hinfos hi
    dsimp only
    rw [getElem?_map, htable, Option.map_some, Option.getD_some, adds_foldl_findOrPush]
    have hentries : Adds g (table.entries.flatMap (variableAdditions g)) κ a ↔
        ∃ k info, table.get? k = some info ∧ Adds g (variableAdditions g (k, info)) κ a := by
      simp only [Adds, mem_flatMap]
      constructor
      · rintro ⟨addition, ⟨⟨k, info⟩, hentry, hmem⟩, hhas⟩
        exact ⟨k, info, IndexMap.mem_entries_iff.mp hentry, addition, hmem, hhas⟩
      · rintro ⟨k, info, hentry, addition, hmem, hhas⟩
        exact ⟨addition, ⟨(k, info), IndexMap.mem_entries_iff.mpr hentry, hmem⟩, hhas⟩
    rw [hentries]
    constructor
    · rintro (⟨addition, hmem, -⟩ | ⟨k, info, hk, hadds⟩)
      · cases hmem
      · obtain ⟨id, hid, hkey, hhas⟩ := (adds_variableAdditions hg).mp hadds
        exact ⟨k, id, hid, hkey, (hgets k a).mp ⟨info, hk, hhas⟩⟩
    · rintro ⟨k, id, hid, hkey, hget⟩
      obtain ⟨info, hk, hhas⟩ := (hgets k a).mpr hget
      exact .inr ⟨k, info, hk, (adds_variableAdditions hg).mpr ⟨id, hid, hkey, hhas⟩⟩

/-! ### What the closure has -/

def SetHas (set : ParseItemSet) (κ : ItemKey) : Option Symbol → Prop
  | none => ∃ e, set.get? κ = some e
  | some x => ∃ e, set.get? κ = some e ∧ x ∈ e.lookaheads

/-- An item gets a lookahead from these tokens, or is there at all. -/
def TokensHave (tokens : TokenSet) : Option Symbol → Prop
  | none => True
  | some x => x ∈ tokens

variable {x : Option Symbol}

theorem setHas_updateEntry {set : ParseItemSet} {item : ParseItem}
    {f : ParseItemSetEntry → ParseItemSetEntry} {tokens : TokenSet}
    (hf : ∀ e, (f e).lookaheads = e.lookaheads ∪ tokens) :
    SetHas (updateEntry g set item f) κ x ↔
      SetHas set κ x ∨ item.key g = κ ∧ TokensHave tokens x := by
  have hget : (updateEntry g set item f).get? κ =
      if item.key g = κ then some (f ((set.get? (item.key g)).getD { item := item }))
      else set.get? κ := IndexMap.get?_insert _ _ _ _
  by_cases hκ : item.key g = κ
  · subst hκ
    rw [if_pos rfl] at hget
    cases x with
    | none => exact ⟨fun _ => .inr ⟨rfl, trivial⟩, fun _ => ⟨_, hget⟩⟩
    | some x =>
      simp only [SetHas, hget, Option.some.injEq, exists_eq_left', hf, Finset.mem_union,
        TokensHave, true_and]
      cases set.get? (item.key g) with
      | none | some e => simp
  · rw [if_neg hκ] at hget
    refine ⟨fun h => .inl ?_, fun h => ?_⟩
    · cases x <;> simpa only [SetHas, hget] using h
    · have hold := h.resolve_right fun h => hκ h.1
      cases x <;> simpa only [SetHas, hget] using hold

/-- What an addition gives its item, with some tokens behind the variable. -/
def AdditionInfo.Gives (info : AdditionInfo) (following : TokenSet) : Option Symbol → Prop
  | none => True
  | some x => info.Has (.token x) ∨ info.Has .follow ∧ x ∈ following

theorem applyAddition_lookaheads (info : AdditionInfo) (following : TokenSet) (reserved : Nat)
    (e : ParseItemSetEntry) :
    (ParseItemSetBuilder.applyAddition g info following reserved e).lookaheads =
      e.lookaheads ∪ (info.lookaheads ∪ if info.propagatesLookaheads then following else ∅) := by
  rw [ParseItemSetBuilder.applyAddition]
  cases info.propagatesLookaheads with
  | true =>
    simp only [if_true]
    split <;> split <;> exact Finset.union_assoc _ _ _
  | false =>
    simp only [Bool.false_eq_true, if_false, Finset.union_empty]
    split <;> rfl

theorem setHas_additions {following : TokenSet} {reserved : Nat} :
    ∀ {set : ParseItemSet}, SetHas (additions.foldl (fun set addition =>
        updateEntry g set addition.item
          (ParseItemSetBuilder.applyAddition g addition.info following reserved)) set) κ x ↔
      SetHas set κ x ∨ ∃ addition ∈ additions, addition.item.key g = κ ∧
        addition.info.Gives following x := by
  induction additions with
  | nil => exact ⟨.inl, fun h => h.resolve_right nofun⟩
  | cons addition additions ih =>
    intro set
    have hgives : TokensHave (addition.info.lookaheads ∪
        if addition.info.propagatesLookaheads then following else ∅) x ↔
          addition.info.Gives following x := by
      cases x with
      | none => exact Iff.rfl
      | some x =>
        rw [TokensHave, Finset.mem_union]
        refine or_congr_right ?_
        cases hprop : addition.info.propagatesLookaheads <;> simp [AdditionInfo.Has, hprop]
    rw [foldl_cons, ih,
      setHas_updateEntry (applyAddition_lookaheads addition.info following reserved), hgives,
      or_assoc]
    simp only [mem_cons, or_and_right, exists_or, exists_eq_left]

/-- What follows the symbol behind the dot of an entry. -/
def FollowsNext (g : SyntaxGrammar) (e : ParseItemSetEntry) (x : Symbol) : Prop :=
  match (e.item.key g).remaining with
  | _ :: next :: _ => First g next.symbol x
  | _ => x ∈ e.lookaheads

/-- **What `transitive_closure` adds for an entry**: the entry itself, and what the left corners of
its next symbol get along live paths. -/
inductive EntryGives (g : SyntaxGrammar) (e : ParseItemSetEntry) : ItemKey → Option Symbol → Prop
  | entry : EntryGives g e (e.item.key g) none
  | lookahead {x : Symbol} : x ∈ e.lookaheads → EntryGives g e (e.item.key g) (some x)
  | item {step : ProductionStep} {rest : List ProductionStep} {i k id : Nat} :
    (e.item.key g).remaining = step :: rest → step.symbol = .nonTerminal i →
    id ∈ g.variableProdIds k → Gets g i k .here →
    EntryGives g e ((initialItem k id).key g) none
  | token {step : ProductionStep} {rest : List ProductionStep} {i k id : Nat} {x : Symbol} :
    (e.item.key g).remaining = step :: rest → step.symbol = .nonTerminal i →
    id ∈ g.variableProdIds k → Gets g i k (.token x) →
    EntryGives g e ((initialItem k id).key g) (some x)
  | follow {step : ProductionStep} {rest : List ProductionStep} {i k id : Nat} {x : Symbol} :
    (e.item.key g).remaining = step :: rest → step.symbol = .nonTerminal i →
    id ∈ g.variableProdIds k → Gets g i k .follow → FollowsNext g e x →
    EntryGives g e ((initialItem k id).key g) (some x)

/-- The closure along live paths. -/
def LiveClosure (g : SyntaxGrammar) (itemSet : ParseItemSet) (κ : ItemKey) (x : Option Symbol) :
    Prop :=
  ∃ e ∈ itemSet.entries.map Prod.snd, EntryGives g e κ x

theorem key_remaining (item : ParseItem) :
    (item.key g).remaining = (g.production item.prodId).steps.drop item.stepIndex := rfl

theorem step_eq (item : ParseItem) : item.step g = (item.key g).remaining.head? := by
  rw [key_remaining, head?_drop]
  rfl

theorem successor_step_eq (item : ParseItem) :
    item.successor.step g = (item.key g).remaining[1]? := by
  rw [key_remaining, getElem?_drop]
  rfl

theorem PlainGrammar.has_of_mem_remaining (hg : PlainGrammar g) {item : ParseItem}
    {step : ProductionStep} (h : step ∈ (item.key g).remaining) : g.Has step.symbol := by
  rw [key_remaining] at h
  have hmem := mem_of_mem_drop h
  rw [SyntaxGrammar.production] at hmem
  split at hmem
  · obtain rfl := mem_singleton.mp hmem
    exact length_pos_of_ne_nil hg.variables_ne
  · cases hget : g.productions[item.prodId]? with
    | none =>
      rw [hget] at hmem
      cases hmem
    | some p =>
      rw [hget] at hmem
      exact ((hg.productions p (mem_of_getElem? hget)).2.2 step hmem).2

variable {b : ParseItemSetBuilder}

variable {rest : List ProductionStep} {e : ParseItemSetEntry}

theorem mem_followingTokens (hg : PlainGrammar g) (hb : b.Correct g) {step : ProductionStep}
    (hsteps : (e.item.key g).remaining = step :: rest) {x : Symbol} :
    x ∈ (ParseItemSetBuilder.followingTokens g b e).1 ↔ FollowsNext g e x := by
  rw [ParseItemSetBuilder.followingTokens, successor_step_eq, FollowsNext, hsteps]
  cases rest with
  | nil => exact Iff.rfl
  | cons next rest =>
    have hnext : next ∈ (e.item.key g).remaining := by
      rw [hsteps]
      exact mem_cons_of_mem _ mem_cons_self
    exact hb.firstSets.firstSet _ (hg.has_of_mem_remaining hnext) x

theorem gives_iff {following : TokenSet} :
    (∃ addition ∈ additions, addition.item.key g = κ ∧ addition.info.Gives following x) ↔
      match x with
      | none => Adds g additions κ .here
      | some x => Adds g additions κ (.token x) ∨ Adds g additions κ .follow ∧ x ∈ following := by
  cases x with
  | none => exact Iff.rfl
  | some x =>
    simp only [Adds, AdditionInfo.Gives, and_or_left, exists_or, ← and_assoc, exists_and_right]

/-- **What `add_item` adds.** -/
theorem setHas_addItem (hg : PlainGrammar g) (hb : b.Correct g) {set : ParseItemSet} :
    SetHas (ParseItemSetBuilder.addItem g b set e) κ x ↔
      SetHas set κ x ∨ EntryGives g e κ x := by
  have hown : e.item.key g = κ ∧ TokensHave e.lookaheads x → EntryGives g e κ x := by
    rintro ⟨rfl, hx⟩
    cases x with
    | none => exact .entry
    | some x => exact .lookahead hx
  have hsplit : EntryGives g e κ x → (e.item.key g = κ ∧ TokensHave e.lookaheads x) ∨
      ∃ step rest, (e.item.key g).remaining = step :: rest ∧ step.symbol.isNonTerminal := by
    intro h
    cases h with
    | entry => exact .inl ⟨rfl, trivial⟩
    | lookahead hx => exact .inl ⟨rfl, hx⟩
    | item hsteps hsymbol | token hsteps hsymbol | follow hsteps hsymbol =>
      exact .inr ⟨_, _, hsteps, hsymbol ▸ rfl⟩
  rw [ParseItemSetBuilder.addItem, setHas_updateEntry fun _ => rfl]
  have hstep := step_eq (g := g) e.item
  cases hremaining : (e.item.key g).remaining with
  | nil =>
    rw [hremaining] at hstep
    rw [hstep]
    refine or_congr_right ⟨hown, fun h => (hsplit h).resolve_right ?_⟩
    rintro ⟨step, rest, hcons, -⟩
    rw [hremaining] at hcons
    cases hcons
  | cons step rest =>
    rw [hremaining] at hstep
    rw [hstep]
    dsimp only [head?_cons]
    split
    · rename_i hkind
      have hsymbol := eq_nonTerminal_of_isNonTerminal hkind
      have hhas : g.Has step.symbol :=
        hg.has_of_mem_remaining (hremaining ▸ mem_cons_self)
      have hlt : step.symbol.index < g.varProds.length := by
        rw [hsymbol] at hhas
        exact hhas
      have hadds := hb.additions _ hlt κ
      rw [setHas_additions, gives_iff, or_assoc]
      refine or_congr_right ⟨fun h => ?_, fun h => ?_⟩
      · rcases h with h | h
        · cases x with
          | none =>
            obtain ⟨k, id, hid, rfl, hgets⟩ := (hadds _).mp h
            exact .item hremaining hsymbol hid hgets
          | some x =>
            rcases h with h | ⟨h, hx⟩
            · obtain ⟨k, id, hid, rfl, hgets⟩ := (hadds _).mp h
              exact .token hremaining hsymbol hid hgets
            · obtain ⟨k, id, hid, rfl, hgets⟩ := (hadds _).mp h
              exact .follow hremaining hsymbol hid hgets
                ((mem_followingTokens hg hb hremaining).mp hx)
        · exact hown h
      · -- The next symbol of an entry is that of its first step.
        have hindex : ∀ {step' rest' i}, (e.item.key g).remaining = step' :: rest' →
            step'.symbol = .nonTerminal i → i = step.symbol.index := by
          intro step' rest' i hcons hi
          rw [hremaining] at hcons
          cases hcons
          rw [hi]
          rfl
        cases h with
        | entry => exact .inr ⟨rfl, trivial⟩
        | lookahead hx => exact .inr ⟨rfl, hx⟩
        | item hsteps hi hid hgets =>
          exact .inl ((hadds _).mpr ⟨_, _, hid, rfl, hindex hsteps hi ▸ hgets⟩)
        | token hsteps hi hid hgets =>
          exact .inl (.inl ((hadds _).mpr ⟨_, _, hid, rfl, hindex hsteps hi ▸ hgets⟩))
        | follow hsteps hi hid hgets hx =>
          exact .inl (.inr ⟨(hadds _).mpr ⟨_, _, hid, rfl, hindex hsteps hi ▸ hgets⟩,
            (mem_followingTokens hg hb hremaining).mpr hx⟩)
    · rename_i hkind
      refine or_congr_right ⟨hown, fun h => (hsplit h).resolve_right ?_⟩
      rintro ⟨step', rest', hcons, hkind'⟩
      rw [hremaining] at hcons
      cases hcons
      exact hkind hkind'

/-- **The code computes the closure along live paths.** -/
theorem setHas_transitiveClosure (hg : PlainGrammar g) (hb : b.Correct g) {itemSet : ParseItemSet} :
    SetHas (ParseItemSetBuilder.transitiveClosure g b itemSet) κ x ↔
      LiveClosure g itemSet κ x := by
  have hinlined : ∀ e, ParseItemSetBuilder.inlinedEntries g e = [e] := by
    intro e
    rw [ParseItemSetBuilder.inlinedEntries, IndexMap.get?, hg.inlines]
    rfl
  have hentries : ∀ (es : List ParseItemSetEntry) (set : ParseItemSet),
      SetHas ((es.flatMap (ParseItemSetBuilder.inlinedEntries g)).foldl
        (ParseItemSetBuilder.addItem g b) set) κ x ↔
        SetHas set κ x ∨ ∃ e ∈ es, EntryGives g e κ x := by
    intro es
    induction es with
    | nil => simp
    | cons e es ih =>
      intro set
      rw [flatMap_cons, hinlined, singleton_append, foldl_cons, ih, setHas_addItem hg hb, or_assoc]
      simp only [mem_cons, or_and_right, exists_or, exists_eq_left]
  rw [ParseItemSetBuilder.transitiveClosure, hentries, LiveClosure]
  refine ⟨fun h => h.resolve_left ?_, .inr⟩
  cases x with
  | none =>
    rintro ⟨e, he⟩
    cases he
  | some x =>
    rintro ⟨e, he, -⟩
    cases he

/-! ### The LR(1) closure -/

/-- **The LR(1) closure**: for an item with a non-terminal behind the dot, the items at the
beginnings of its productions, with FIRST of what follows it, or the lookaheads of the item. -/
inductive Closure (g : SyntaxGrammar) (itemSet : ParseItemSet) : ItemKey → Option Symbol → Prop
  | entry {e : ParseItemSetEntry} : e ∈ itemSet.entries.map Prod.snd →
    Closure g itemSet (e.item.key g) none
  | lookahead {e : ParseItemSetEntry} {x : Symbol} : e ∈ itemSet.entries.map Prod.snd →
    x ∈ e.lookaheads → Closure g itemSet (e.item.key g) (some x)
  | item {κ : ItemKey} {step : ProductionStep} {rest : List ProductionStep} {i id : Nat} :
    Closure g itemSet κ none → κ.remaining = step :: rest → step.symbol = .nonTerminal i →
    id ∈ g.variableProdIds i → Closure g itemSet ((initialItem i id).key g) none
  | first {κ : ItemKey} {step next : ProductionStep} {rest : List ProductionStep} {i id : Nat}
    {x : Symbol} :
    Closure g itemSet κ none → κ.remaining = step :: next :: rest →
    step.symbol = .nonTerminal i → id ∈ g.variableProdIds i → First g next.symbol x →
    Closure g itemSet ((initialItem i id).key g) (some x)
  | last {κ : ItemKey} {step : ProductionStep} {i id : Nat} {x : Symbol} :
    Closure g itemSet κ (some x) → κ.remaining = [step] → step.symbol = .nonTerminal i →
    id ∈ g.variableProdIds i → Closure g itemSet ((initialItem i id).key g) (some x)

/-- A set has the items of the closure, each with its lookaheads. -/
def IsClosure (g : SyntaxGrammar) (itemSet result : ParseItemSet) : Prop :=
  ∀ κ x, SetHas result κ x ↔ Closure g itemSet κ x

/-- A non-terminal that a variable can begin with. -/
inductive Begins (g : SyntaxGrammar) (i : Nat) : Nat → Prop
  | self : Begins g i i
  | step {j id k : Nat} {step : ProductionStep} {rest : List ProductionStep} : Begins g i j →
    id ∈ g.variableProdIds j → (g.production id).steps = step :: rest →
    step.symbol = .nonTerminal k → Begins g i k

/-- A non-terminal that a variable can begin with, on a **live path**: no symbol behind a
non-terminal of the path has an empty FIRST. -/
inductive Live (g : SyntaxGrammar) (i : Nat) : Nat → Prop
  | self : Live g i i
  | last {j id k : Nat} {step : ProductionStep} : Live g i j → id ∈ g.variableProdIds j →
    (g.production id).steps = [step] → step.symbol = .nonTerminal k → Live g i k
  | next {j id k : Nat} {step next : ProductionStep} {rest : List ProductionStep} {x : Symbol} :
    Live g i j → id ∈ g.variableProdIds j → (g.production id).steps = step :: next :: rest →
    step.symbol = .nonTerminal k → First g next.symbol x → Live g i k

/-- Whatever a non-terminal that no live path leads to gives to the first symbols of its
productions, they have anyway. -/
def DeadEndsHarmless (g : SyntaxGrammar) (itemSet : ParseItemSet) : Prop :=
  ∀ e ∈ itemSet.entries.map Prod.snd, ∀ step rest i, (e.item.key g).remaining = step :: rest →
    step.symbol = .nonTerminal i → ∀ j, Begins g i j → ¬ Live g i j →
    ∀ id ∈ g.variableProdIds j, ∀ step rest k, (g.production id).steps = step :: rest →
      step.symbol = .nonTerminal k → ∀ id' ∈ g.variableProdIds k,
        LiveClosure g itemSet ((initialItem k id').key g) none ∧
        ∀ next ∈ rest.head?, ∀ x, First g next.symbol x →
          LiveClosure g itemSet ((initialItem k id').key g) (some x)

theorem live_iff : Live g i k ↔ ∃ a, a ≠ .here ∧ Gets g i k a := by
  constructor
  · intro h
    induction h with
    | self => exact ⟨.follow, nofun, .start⟩
    | last _ hid hsteps hsymbol ih =>
      obtain ⟨a, ha, hgets⟩ := ih
      exact ⟨a, ha, .child hgets ha hid (.last hsteps hsymbol)⟩
    | @next _ _ _ _ _ _ x _ hid hsteps hsymbol hx ih =>
      obtain ⟨a, ha, hgets⟩ := ih
      exact ⟨.token x, nofun, .child hgets ha hid (.first hsteps hsymbol hx)⟩
  · rintro ⟨a, ha, hgets⟩
    induction hgets with
    | self => exact absurd rfl ha
    | start => exact .self
    | child _ ha' hid hchild ih =>
      cases hchild with
      | here => exact absurd rfl ha
      | first hsteps hsymbol hx => exact .next (ih ha') hid hsteps hsymbol hx
      | last hsteps hsymbol => exact .last (ih ha') hid hsteps hsymbol

theorem Gets.begins (h : Gets g i k a) : Begins g i k := by
  induction h with
  | self | start => exact .self
  | child _ _ hid hchild ih =>
    obtain ⟨step, rest, hsteps, hsymbol⟩ := hchild.head
    exact .step ih hid hsteps hsymbol

variable {itemSet : ParseItemSet}

theorem remaining_initialItem (k id : Nat) :
    ((initialItem k id).key g).remaining = (g.production id).steps := rfl

theorem Gets.closure (he : e ∈ itemSet.entries.map Prod.snd) {step : ProductionStep}
    (hsteps : (e.item.key g).remaining = step :: rest) (hsymbol : step.symbol = .nonTerminal i)
    (h : Gets g i k a) : ∀ id ∈ g.variableProdIds k,
      Closure g itemSet ((initialItem k id).key g) none ∧
      (∀ x, a = .token x → Closure g itemSet ((initialItem k id).key g) (some x)) ∧
      (a = .follow → ∀ x, FollowsNext g e x →
        Closure g itemSet ((initialItem k id).key g) (some x)) := by
  induction h with
  | self => exact fun id hid => ⟨.item (.entry he) hsteps hsymbol hid, nofun, nofun⟩
  | start =>
    intro id hid
    refine ⟨.item (.entry he) hsteps hsymbol hid, nofun, fun _ x hx => ?_⟩
    rw [FollowsNext, hsteps] at hx
    cases rest with
    | nil => exact .last (.lookahead he hx) hsteps hsymbol hid
    | cons next rest => exact .first (.entry he) hsteps hsymbol hid hx
  | @child j id' k a w _ _ hid' hchild ih =>
    intro id hid
    obtain ⟨hnone, htoken, hfollow⟩ := ih id' hid'
    obtain ⟨step', rest', hsteps', hsymbol'⟩ := hchild.head
    refine ⟨.item hnone (remaining_initialItem j id' ▸ hsteps') hsymbol' hid, ?_, ?_⟩
    · intro x hw
      cases hchild with
      | here => cases hw
      | first hsteps hsymbol hx =>
        cases hw
        exact .first hnone hsteps hsymbol hid hx
      | last hsteps hsymbol => exact .last (htoken x hw) hsteps hsymbol hid
    · intro hw x hx
      cases hchild with
      | here | first => cases hw
      | last hsteps hsymbol => exact .last (hfollow hw x hx) hsteps hsymbol hid

theorem LiveClosure.closure (h : LiveClosure g itemSet κ x) :
    Closure g itemSet κ x := by
  obtain ⟨e, he, hgives⟩ := h
  cases hgives with
  | entry => exact .entry he
  | lookahead hx => exact .lookahead he hx
  | item hsteps hsymbol hid hgets => exact (hgets.closure he hsteps hsymbol _ hid).1
  | token hsteps hsymbol hid hgets => exact (hgets.closure he hsteps hsymbol _ hid).2.1 _ rfl
  | follow hsteps hsymbol hid hgets hx =>
    exact (hgets.closure he hsteps hsymbol _ hid).2.2 rfl _ hx

theorem DeadEndsHarmless.step (h : DeadEndsHarmless g itemSet) (hκ : LiveClosure g itemSet κ none)
    {step : ProductionStep} {id : Nat} (hsteps : κ.remaining = step :: rest)
    (hsymbol : step.symbol = .nonTerminal k) (hid : id ∈ g.variableProdIds k) :
    LiveClosure g itemSet ((initialItem k id).key g) none ∧
      ∀ next ∈ rest.head?, ∀ x, First g next.symbol x →
        LiveClosure g itemSet ((initialItem k id).key g) (some x) := by
  obtain ⟨e, he, hgives⟩ := hκ
  generalize hnone : (none : Option Symbol) = y at hgives
  cases hgives with
  | entry =>
    refine ⟨⟨e, he, .item hsteps hsymbol hid .self⟩, fun next hnext x hx => ?_⟩
    cases rest with
    | nil => cases hnext
    | cons next' rest =>
      cases hnext
      exact ⟨e, he, .follow hsteps hsymbol hid .start (by rwa [FollowsNext, hsteps])⟩
  | @item _ _ i j id' hsteps' hsymbol' hid' hgets =>
    by_cases hlive : Live g i j
    · obtain ⟨a, ha, hgets'⟩ := live_iff.mp hlive
      refine ⟨⟨e, he, .item hsteps' hsymbol' hid
        (.child hgets' ha hid' (.here hsteps hsymbol))⟩, fun next hnext x hx => ?_⟩
      cases rest with
      | nil => cases hnext
      | cons next' rest =>
        cases hnext
        exact ⟨e, he, .token hsteps' hsymbol' hid
          (.child hgets' ha hid' (.first hsteps hsymbol hx))⟩
    · exact h e he _ _ i hsteps' hsymbol' j hgets.begins hlive id' hid' step rest k hsteps
        hsymbol id hid
  | lookahead | token | follow => cases hnone

theorem DeadEndsHarmless.liveClosure (h : DeadEndsHarmless g itemSet) (hκ : Closure g itemSet κ x) :
    LiveClosure g itemSet κ x := by
  induction hκ with
  | entry he => exact ⟨_, he, .entry⟩
  | lookahead he hx => exact ⟨_, he, .lookahead hx⟩
  | item _ hsteps hsymbol hid ih => exact (h.step ih hsteps hsymbol hid).1
  | first _ hsteps hsymbol hid hx ih => exact (h.step ih hsteps hsymbol hid).2 _ rfl _ hx
  | last _ hsteps hsymbol hid ih =>
    obtain ⟨e, he, hgives⟩ := ih
    cases hgives with
    | lookahead hx =>
      exact ⟨e, he, .follow hsteps hsymbol hid .start (by rwa [FollowsNext, hsteps])⟩
    | token hsteps' hsymbol' hid' hgets =>
      exact ⟨e, he, .token hsteps' hsymbol' hid (.child hgets nofun hid' (.last hsteps hsymbol))⟩
    | follow hsteps' hsymbol' hid' hgets hx =>
      exact ⟨e, he, .follow hsteps' hsymbol' hid
        (.child hgets nofun hid' (.last hsteps hsymbol)) hx⟩

theorem Begins.closure (he : e ∈ itemSet.entries.map Prod.snd) {step : ProductionStep}
    (hsteps : (e.item.key g).remaining = step :: rest) (hsymbol : step.symbol = .nonTerminal i)
    {j : Nat} (h : Begins g i j) :
    ∀ id ∈ g.variableProdIds j, Closure g itemSet ((initialItem j id).key g) none := by
  induction h with
  | self => exact fun id hid => .item (.entry he) hsteps hsymbol hid
  | step _ hid' hsteps' hsymbol' ih => exact fun id hid => .item (ih _ hid') hsteps' hsymbol' hid

/-- **When the code computes the LR(1) closure.** Just if the non-terminals that it does not go on
from, which are those it reaches only behind symbols with an empty FIRST, add nothing. -/
theorem transitiveClosure_isClosure_iff (hg : PlainGrammar g) (itemSet : ParseItemSet) :
    ∃ n b, (∀ fuel ≥ n, ParseItemSetBuilder.new fuel g = some b) ∧
      (IsClosure g itemSet (b.transitiveClosure g itemSet) ↔ DeadEndsHarmless g itemSet) := by
  obtain ⟨n, b, hrun, hb⟩ := ParseItemSetBuilder.new_spec hg
  refine ⟨n, b, hrun, fun h => ?_, fun h κ x => ?_⟩
  · intro e he step rest i hsteps hsymbol j hbegins _ id hid step' rest' k hsteps' hsymbol' id' hid'
    have hclosure := hbegins.closure he hsteps hsymbol id hid
    have hlive : ∀ κ x, Closure g itemSet κ x → LiveClosure g itemSet κ x :=
      fun κ x hκ => (setHas_transitiveClosure hg hb).mp ((h κ x).mpr hκ)
    refine ⟨hlive _ _ (.item hclosure hsteps' hsymbol' hid'), fun next hnext x hx => ?_⟩
    cases rest' with
    | nil => cases hnext
    | cons next' rest' =>
      cases hnext
      exact hlive _ _ (.first hclosure hsteps' hsymbol' hid' hx)
  · rw [setHas_transitiveClosure hg hb]
    exact ⟨LiveClosure.closure, h.liveClosure⟩

/-- Every non-terminal that a variable can begin with is on a live path, if no FIRST is empty. -/
theorem Begins.live (hfirst : ∀ s, g.Has s → ∃ x, First g s x) (hg : PlainGrammar g) {j : Nat}
    (h : Begins g i j) : Live g i j := by
  induction h with
  | self => exact .self
  | @step j id k step rest _ hid hsteps hsymbol ih =>
    cases rest with
    | nil => exact .last ih hid hsteps hsymbol
    | cons next rest =>
      have hmem : next ∈ (g.production id).steps := by
        rw [hsteps]
        exact mem_cons_of_mem _ mem_cons_self
      obtain ⟨x, hx⟩ := hfirst _ ((hg.plainProduction hid).2 next hmem).2
      exact .next ih hid hsteps hsymbol hx

theorem deadEndsHarmless_of_first (hfirst : ∀ s, g.Has s → ∃ x, First g s x)
    (hg : PlainGrammar g) (itemSet : ParseItemSet) : DeadEndsHarmless g itemSet :=
  fun _ _ _ _ _ _ _ _ hbegins hdead => absurd (hbegins.live hfirst hg) hdead

def startItemSet (g : SyntaxGrammar) : ParseItemSet where
  entries :=
    let item : ParseItem :=
      { variableIndex := 2 ^ 32 - 1, stepIndex := 0, prodId := startProductionId }
    [(item.key g, { item := item, lookaheads := {Symbol.eof} })]
  nodup := nodup_singleton _

/-- A variable that begins with another one, with a token behind it. -/
def nestedGrammar : SyntaxGrammar where
  productions :=
    [⟨[{ symbol := .nonTerminal 1 }, { symbol := .terminal 0 }], 0, false⟩,
      ⟨[{ symbol := .terminal 1 }], 0, false⟩]
  varProds := [(0, 1), (1, 2)]
  nTerminals := 2

theorem transitiveClosure_isClosure_iff_nested :
    PlainGrammar nestedGrammar ∧
      ∃ n b, (∀ fuel ≥ n, ParseItemSetBuilder.new fuel nestedGrammar = some b) ∧
        IsClosure nestedGrammar (startItemSet nestedGrammar)
          (b.transitiveClosure nestedGrammar (startItemSet nestedGrammar)) := by
  have hg : PlainGrammar nestedGrammar :=
    ⟨by decide, rfl, rfl, by decide, by decide, by decide⟩
  have hfirst : ∀ s, nestedGrammar.Has s → ∃ x, First nestedGrammar s x := by
    intro s hs
    rcases hs.cases with htoken | ⟨hkind, hlt⟩
    · exact ⟨s, .token htoken⟩
    · have hlt' : s.index < 2 := hlt
      have hinner : First nestedGrammar (.nonTerminal 1) (.terminal 1) :=
        .head (by decide : 1 ∈ nestedGrammar.variableProdIds 1) rfl (.token (.inl rfl))
      have houter : First nestedGrammar (.nonTerminal 0) (.terminal 1) :=
        .head (by decide : 0 ∈ nestedGrammar.variableProdIds 0) rfl hinner
      rw [eq_nonTerminal_of_isNonTerminal hkind]
      obtain h | h : s.index = 0 ∨ s.index = 1 := by omega
      · rw [h]
        exact ⟨_, houter⟩
      · rw [h]
        exact ⟨_, hinner⟩
  obtain ⟨n, b, hrun, hiff⟩ :=
    transitiveClosure_isClosure_iff hg (startItemSet nestedGrammar)
  exact ⟨hg, n, b, hrun, hiff.mpr (deadEndsHarmless_of_first hfirst hg _)⟩

/-- A variable that begins with another one, with a variable behind it that has no first token. -/
def deadEndGrammar : SyntaxGrammar where
  productions :=
    [⟨[{ symbol := .nonTerminal 1 }, { symbol := .nonTerminal 3 }], 0, false⟩,
      ⟨[{ symbol := .nonTerminal 2 }, { symbol := .terminal 0 }], 0, false⟩,
      ⟨[{ symbol := .terminal 1 }], 0, false⟩,
      ⟨[{ symbol := .nonTerminal 3 }, { symbol := .terminal 2 }], 0, false⟩]
  varProds := [(0, 1), (1, 2), (2, 3), (3, 4)]
  nTerminals := 3

/-- The closure has the item of variable 2, and the code does not add it. -/
theorem transitiveClosure_deadEnd :
    PlainGrammar deadEndGrammar ∧
      ∃ b, ParseItemSetBuilder.new 20 deadEndGrammar = some b ∧
        ¬ IsClosure deadEndGrammar (startItemSet deadEndGrammar)
          (b.transitiveClosure deadEndGrammar (startItemSet deadEndGrammar)) := by
  refine ⟨⟨by decide, rfl, rfl, by decide, by decide, by decide⟩,
    (ParseItemSetBuilder.new 20 deadEndGrammar).get (by decide), by simp, fun h => ?_⟩
  have hstart : Closure deadEndGrammar (startItemSet deadEndGrammar)
      ((initialItem 0 0).key deadEndGrammar) none :=
    .item (.entry (mem_singleton.mpr rfl)) rfl rfl (by decide)
  have hinner : Closure deadEndGrammar (startItemSet deadEndGrammar)
      ((initialItem 2 2).key deadEndGrammar) none :=
    .item (.item hstart rfl rfl (by decide : 1 ∈ deadEndGrammar.variableProdIds 1)) rfl rfl
      (by decide)
  obtain ⟨e, he⟩ := (h _ _).mpr hinner
  have hnone : ((ParseItemSetBuilder.transitiveClosure deadEndGrammar
      ((ParseItemSetBuilder.new 20 deadEndGrammar).get (by decide))
      (startItemSet deadEndGrammar)).get? ((initialItem 2 2).key deadEndGrammar)).isNone = true := by
    decide
  rw [he] at hnone
  cases hnone

end TreeSitter.Generate
