import TreeSitter.Generate.BuildTables.ComparePrecedence
import TreeSitter.Generate.BuildTables.ItemSetBuilder
import TreeSitter.Generate.BuildTables.MinimizeParseTable
import TreeSitter.Library.RunningMaxima
import TreeSitter.Library.SortedQueue

/-!
# TreeSitter.Generate.BuildTables.AddReductions

The part of `add_actions` that adds **reductions** to a state. For each token, an item with more
precedence than the items before it takes their place, one with the same precedence joins them, and
one with less is left out. What the loop remembers of the items before is one precedence and all of
their variables (`ReductionInfo`).

So the loop keeps maximal items (`Library.keep`), compared by what it remembers, and
`TokenReductions.Keeps` connects the two. The actions are those of the items that no other one
outranks, in every order, if the items are ranked; `unrankedRules` has three items that are not.
The item of the start rule has no variable, and a comparison that looks for its name fails.
-/

namespace TreeSitter.Generate

open List Library

/-! ### The loop -/

/-- `ReductionInfo`. -/
structure ReductionInfo where
  precedence : Precedence := .none
  symbols : List Symbol := []
  hasLeftAssoc : Bool := false
  hasRightAssoc : Bool := false
  hasNonAssoc : Bool := false
deriving DecidableEq

/-- What the loop has for a token: the actions of its table entry, its `ReductionInfo`, and whether
it is one of `lookaheads_with_conflicts`. -/
structure TokenReductions where
  actions : List ParseAction := []
  info : ReductionInfo := {}
  hasConflict : Bool := false
deriving DecidableEq

/-- What `add_actions` reads besides the item set. `get_production_id` gives every item the index of
what it contributes to the table of productions. -/
structure ActionContext where
  grammar : SyntaxGrammar
  precedences : PrecedenceGrammar
  productionId : ParseItem → Nat

namespace ParseItem

variable (c : ActionContext) (item : ParseItem)

/-- `ParseItem::is_augmented`. -/
def isAugmented : Bool := item.variableIndex == 2 ^ 32 - 1

/-- `ParseItem::precedence`. -/
def precedence : Precedence :=
  ((item.prevStep c.grammar).map ProductionStep.precedence).getD .none

/-- `ParseItem::associativity`. -/
def associativity : Option Associativity :=
  (item.prevStep c.grammar).bind ProductionStep.associativity

/-- `symbol`, of a completed item. -/
def variableSymbol : Symbol := .nonTerminal item.variableIndex

/-- `action`, of a completed item. The numbers are narrowed to 16 bits. -/
def reduceAction : ParseAction :=
  if item.isAugmented then .accept
  else .reduce item.variableSymbol (item.stepIndex % 2 ^ 16)
    (c.grammar.production item.prodId).dynamicPrecedence (c.productionId item % 2 ^ 16)

end ParseItem

/-- The `ReductionInfo` with a completed item. -/
def ReductionInfo.record (info : ReductionInfo) (c : ActionContext) (item : ParseItem) :
    ReductionInfo where
  precedence := item.precedence c
  symbols := upsert symbolKey (fun _ _ => false) item.variableSymbol info.symbols
  hasLeftAssoc := info.hasLeftAssoc || item.associativity c == some .left
  hasRightAssoc := info.hasRightAssoc || item.associativity c == some .right
  hasNonAssoc := info.hasNonAssoc || item.associativity c == none

/-- The loop's body, for a completed item and one of its lookaheads. -/
def addReduction (c : ActionContext) (entry : TokenReductions) (item : ParseItem) :
    Option TokenReductions := do
  let action := item.reduceAction c
  if entry.actions = [] then
    some { entry with actions := [action], info := entry.info.record c item }
  else
    match ← comparePrecedence? c.precedences (item.precedence c) [item.variableSymbol]
        entry.info.precedence entry.info.symbols with
    | .gt =>
      some { actions := [action], info := ({} : ReductionInfo).record c item, hasConflict := false }
    | .eq =>
      if action ∈ entry.actions then some { entry with info := entry.info.record c item }
      else
        some { actions := entry.actions ++ [action], info := entry.info.record c item,
               hasConflict := true }
    | .lt => some entry

/-- The item of an entry is completed and can be reduced at the token. -/
def ParseItemSetEntry.reducesAt (entry : ParseItemSetEntry) (c : ActionContext)
    (lookahead : Symbol) : Bool :=
  (entry.item.step c.grammar).isNone && decide (lookahead ∈ entry.lookaheads) &&
    !((c.grammar.production entry.item.prodId).requiresEofLookahead && lookahead != .eof)

/-- A turn of the loop over the items, for the entries of all tokens. A set of lookaheads has each
token once, and the entries of two tokens have nothing to do with each other, but for a failure at
one of them, which ends the loop. -/
def addReductionsOf (c : ActionContext) (table : Symbol → Option TokenReductions)
    (entry : ParseItemSetEntry) : Symbol → Option TokenReductions := fun lookahead =>
  if entry.reducesAt c lookahead then do addReduction c (← table lookahead) entry.item
  else table lookahead

/-- The loop over the items of a new state. -/
def addReductions (c : ActionContext) (entries : List ParseItemSetEntry) :
    Symbol → Option TokenReductions :=
  entries.foldl (addReductionsOf c) fun _ => some {}

/-- The items that compete for a token, in the order of the loop. -/
def competing (c : ActionContext) (lookahead : Symbol) (entries : List ParseItemSetEntry) :
    List ParseItem :=
  (entries.filter fun entry => entry.reducesAt c lookahead).map ParseItemSetEntry.item

/-- The loop over the items that compete for a token. -/
def reduceAll (c : ActionContext) (items : List ParseItem) : Option TokenReductions :=
  items.foldlM (addReduction c) {}

variable {c : ActionContext}

theorem foldl_addReductionsOf (entries : List ParseItemSetEntry)
    (table : Symbol → Option TokenReductions) (lookahead : Symbol) :
    entries.foldl (addReductionsOf c) table lookahead =
      (table lookahead).bind fun entry =>
        (competing c lookahead entries).foldlM (addReduction c) entry := by
  induction entries generalizing table with
  | nil => exact (Option.bind_fun_some _).symm
  | cons entry entries ih =>
    rw [foldl_cons, ih, addReductionsOf, competing, competing, filter_cons]
    split
    · exact Option.bind_assoc ..
    · rfl

theorem addReductions_eq (entries : List ParseItemSetEntry) (lookahead : Symbol) :
    addReductions c entries lookahead = reduceAll c (competing c lookahead entries) :=
  foldl_addReductionsOf entries _ lookahead

theorem reduceAll_append_singleton (items : List ParseItem) (item : ParseItem) :
    reduceAll c (items ++ [item]) =
      (reduceAll c items).bind fun entry => addReduction c entry item := by
  rw [reduceAll, foldlM_append]
  simp only [foldlM_cons, foldlM_nil, bind_pure]
  rfl

/-! ### What the loop remembers -/

/-- The variables of the items, as the loop collects them. -/
def symbolsOf (kept : List ParseItem) : List Symbol :=
  kept.foldl (fun symbols item => upsert symbolKey (fun _ _ => false) item.variableSymbol symbols) []

/-- The comparison of an item with those that are kept: with the precedence of the last one, and
with the variables of all. -/
def compareKept? (c : ActionContext) (item : ParseItem) (kept : List ParseItem) :
    Option Ordering :=
  comparePrecedence? c.precedences (item.precedence c) [item.variableSymbol]
    ((kept.getLast?.map (ParseItem.precedence c)).getD .none) (symbolsOf kept)

/-- The result, where the comparison does not fail. -/
def compareKept (c : ActionContext) (item : ParseItem) (kept : List ParseItem) : Ordering :=
  (compareKept? c item kept).getD .lt

/-- An item has more precedence than another one. -/
def ParseItem.Outranks (c : ActionContext) (item other : ParseItem) : Prop :=
  comparePrecedence? c.precedences (item.precedence c) [item.variableSymbol] (other.precedence c)
    [other.variableSymbol] = some .gt

instance (item other : ParseItem) : Decidable (item.Outranks c other) :=
  inferInstanceAs (Decidable (_ = _))

theorem outranks_iff {item other : ParseItem} :
    Library.Outranks (compareKept c) item other ↔ item.Outranks c other := by
  change (compareKept? c item [other]).getD .lt = .gt ↔ compareKept? c item [other] = some .gt
  cases compareKept? c item [other] <;> simp

/-- The entry of a token is what the loop has after keeping some items. -/
structure TokenReductions.Keeps (c : ActionContext) (entry : TokenReductions)
    (kept : List ParseItem) : Prop where
  precedence_eq : entry.info.precedence = (kept.getLast?.map (ParseItem.precedence c)).getD .none
  symbols_eq : entry.info.symbols = symbolsOf kept
  mem_actions : ∀ action, action ∈ entry.actions ↔ action ∈ kept.map (ParseItem.reduceAction c)

variable {entry entry' : TokenReductions} {items kept : List ParseItem} {item : ParseItem}

theorem symbolsOf_append_singleton :
    symbolsOf (kept ++ [item]) =
      upsert symbolKey (fun _ _ => false) item.variableSymbol (symbolsOf kept) := by
  rw [symbolsOf, foldl_append]
  rfl

theorem TokenReductions.Keeps.actions_eq_nil_iff (h : entry.Keeps c kept) :
    entry.actions = [] ↔ kept = [] := by
  rw [eq_nil_iff_forall_not_mem]
  simp only [h.mem_actions]
  rw [← eq_nil_iff_forall_not_mem, map_eq_nil_iff]

theorem TokenReductions.Keeps.compare_eq (h : entry.Keeps c kept) :
    comparePrecedence? c.precedences (item.precedence c) [item.variableSymbol]
      entry.info.precedence entry.info.symbols = compareKept? c item kept := by
  rw [compareKept?, h.precedence_eq, h.symbols_eq]

theorem TokenReductions.Keeps.append (h : entry.Keeps c kept) (conflict : Bool)
    {actions : List ParseAction}
    (hactions : ∀ action, action ∈ actions ↔
      action ∈ entry.actions ∨ action = item.reduceAction c) :
    TokenReductions.Keeps c ⟨actions, entry.info.record c item, conflict⟩ (kept ++ [item]) := by
  refine ⟨by simp [ReductionInfo.record], ?_, fun action => ?_⟩
  · rw [symbolsOf_append_singleton, ← h.symbols_eq]
    rfl
  · rw [hactions, h.mem_actions, map_append, mem_append, map_singleton, mem_singleton]

theorem TokenReductions.Keeps.step (h : entry.Keeps c kept)
    (hadd : addReduction c entry item = some entry') :
    entry'.Keeps c (keep (compareKept c) kept item) := by
  rw [addReduction] at hadd
  rw [keep]
  by_cases hnil : kept = []
  · rw [if_pos (h.actions_eq_nil_iff.mpr hnil)] at hadd
    cases hadd
    rw [if_pos hnil]
    refine ⟨rfl, ?_, fun action => by simp⟩
    dsimp only [ReductionInfo.record]
    rw [h.symbols_eq, hnil]
    rfl
  · rw [if_neg (h.actions_eq_nil_iff.not.mpr hnil), h.compare_eq] at hadd
    obtain ⟨ordering, hordering, hadd⟩ := Option.bind_eq_some_iff.mp hadd
    rw [if_neg hnil, compareKept, hordering, Option.getD_some]
    cases ordering with
    | gt =>
      cases hadd
      exact ⟨rfl, rfl, fun action => by simp⟩
    | eq =>
      dsimp only at hadd
      split at hadd
      next hmem =>
        cases hadd
        refine h.append _ fun action => (or_iff_left_of_imp ?_).symm
        rintro rfl
        exact hmem
      next =>
        cases hadd
        exact h.append _ fun action => by rw [mem_append, mem_singleton]
    | lt =>
      cases hadd
      exact h

theorem keeps_of_reduceAll (h : reduceAll c items = some entry) :
    entry.Keeps c (keepAll (compareKept c) items) := by
  induction items using List.reverseRecOn generalizing entry with
  | nil =>
    cases h
    exact ⟨rfl, rfl, by simp [keepAll]⟩
  | append_singleton items item ih =>
    rw [reduceAll_append_singleton] at h
    obtain ⟨before, hbefore, hadd⟩ := Option.bind_eq_some_iff.mp h
    rw [keepAll_append_singleton]
    exact (ih hbefore).step hadd

/-- The mark of a conflict says that there are several actions. -/
structure TokenReductions.Marked (entry : TokenReductions) : Prop where
  nodup : entry.actions.Nodup
  conflict_iff : entry.hasConflict = true ↔ 1 < entry.actions.length

theorem TokenReductions.Marked.step (h : entry.Marked)
    (hadd : addReduction c entry item = some entry') : entry'.Marked := by
  rw [addReduction] at hadd
  split at hadd
  next hnil =>
    cases hadd
    have hconflict := h.conflict_iff
    rw [hnil, length_nil] at hconflict
    exact ⟨nodup_singleton _, hconflict.trans (iff_of_false (by decide) (by simp))⟩
  next hne =>
    obtain ⟨ordering, -, hadd⟩ := Option.bind_eq_some_iff.mp hadd
    split at hadd
    · cases hadd
      exact ⟨nodup_singleton _, by simp⟩
    · split at hadd
      next hmem =>
        cases hadd
        exact ⟨h.nodup, h.conflict_iff⟩
      next hmem =>
        cases hadd
        have hpos := length_pos_iff.mpr hne
        refine ⟨?_, iff_of_true rfl ?_⟩
        · rw [nodup_append_comm]
          exact nodup_cons.mpr ⟨hmem, h.nodup⟩
        · rw [length_append, length_singleton]
          omega
    · cases hadd
      exact h

theorem marked_of_reduceAll (h : reduceAll c items = some entry) : entry.Marked := by
  induction items using List.reverseRecOn generalizing entry with
  | nil =>
    cases h
    exact ⟨nodup_nil, by simp⟩
  | append_singleton items item ih =>
    rw [reduceAll_append_singleton] at h
    obtain ⟨before, hbefore, hadd⟩ := Option.bind_eq_some_iff.mp h
    exact (ih hbefore).step hadd

theorem TokenReductions.Marked.conflict_iff_ne (h : entry.Marked) :
    entry.hasConflict = true ↔ ∃ a ∈ entry.actions, ∃ b ∈ entry.actions, a ≠ b := by
  rw [h.conflict_iff]
  have hnodup := h.nodup
  match hactions : entry.actions with
  | [] | [a] => simp
  | a :: b :: rest =>
    rw [hactions] at hnodup
    refine iff_of_true (by simp) ⟨a, by simp, b, by simp, ?_⟩
    rintro rfl
    simp at hnodup

/-! ### Which actions are left -/

/-- **The actions of a token are those of the items that no other one outranks**, and the mark says
whether there are several of them. -/
structure TokenReductions.Exact (c : ActionContext) (entry : TokenReductions)
    (items : List ParseItem) : Prop where
  mem_actions : ∀ action, action ∈ entry.actions ↔ ∃ item ∈ items,
    item.reduceAction c = action ∧ ∀ other ∈ items, other ≠ item → ¬ other.Outranks c item
  hasConflict : entry.hasConflict = true ↔ ∃ a ∈ entry.actions, ∃ b ∈ entry.actions, a ≠ b

/-- The items can be ranked by numbers: comparing an item with the precedence of one of several
items of one rank, and with the variables of all of them, does not fail and gives the order of the
ranks. -/
def RankedItems (c : ActionContext) (items : List ParseItem) : Prop :=
  ∃ rank : ParseItem → Int, ∀ group, group ≠ [] → group.Nodup → group ⊆ items →
    (∀ y ∈ group, ∀ z ∈ group, rank y = rank z) →
      ∀ x ∈ items, x ∉ group → ∀ z ∈ group,
        compareKept? c x group = some (compare (rank x) (rank z))

theorem exact_of_keepsMaxima (h : KeepsMaxima (compareKept c) items)
    (hentry : reduceAll c items = some entry) : entry.Exact c items := by
  refine ⟨fun action => ?_, (marked_of_reduceAll hentry).conflict_iff_ne⟩
  rw [(keeps_of_reduceAll hentry).mem_actions, mem_map]
  refine exists_congr fun item => ?_
  rw [h item]
  simp only [outranks_iff]
  constructor
  · rintro ⟨⟨hmem, hout⟩, haction⟩
    exact ⟨hmem, haction, hout⟩
  · rintro ⟨hmem, haction, hout⟩
    exact ⟨⟨hmem, hout⟩, haction⟩

/-- If no two items have the same action, the actions tell which items are kept. -/
theorem keepsMaxima_of_exact
    (hactions : ∀ x ∈ items, ∀ y ∈ items, x.reduceAction c = y.reduceAction c → x = y)
    (hentry : reduceAll c items = some entry) (h : entry.Exact c items) :
    KeepsMaxima (compareKept c) items := by
  have hkeeps := (keeps_of_reduceAll hentry).mem_actions
  intro x
  simp only [outranks_iff]
  constructor
  · intro hx
    have hmem := (hkeeps _).mpr (mem_map_of_mem hx)
    obtain ⟨y, hy, haction, hout⟩ := (h.mem_actions _).mp hmem
    obtain rfl := hactions y hy x (mem_of_mem_keepAll hx) haction
    exact ⟨hy, hout⟩
  · rintro ⟨hx, hout⟩
    have hmem := (h.mem_actions _).mpr ⟨x, hx, rfl, hout⟩
    obtain ⟨y, hy, haction⟩ := mem_map.mp ((hkeeps _).mp hmem)
    rwa [← hactions y (mem_of_mem_keepAll hy) x hx haction]

/-- The loop goes on if the comparison with what is kept does not fail. -/
theorem TokenReductions.Keeps.isSome_add_iff (h : entry.Keeps c kept) :
    (addReduction c entry item).isSome ↔ kept = [] ∨ (compareKept? c item kept).isSome := by
  rw [addReduction]
  by_cases hnil : kept = []
  · simp [hnil, h.actions_eq_nil_iff.mpr hnil]
  · rw [if_neg (h.actions_eq_nil_iff.not.mpr hnil), h.compare_eq, or_iff_right hnil]
    cases compareKept? c item kept with
    | none => rfl
    | some ordering =>
      refine iff_of_true ?_ rfl
      cases ordering with
      | eq =>
        change (ite _ _ _ : Option TokenReductions).isSome
        split <;> rfl
      | _ => rfl

theorem RankedItems.exists_exact (h : RankedItems c items) {visited : List ParseItem}
    (hnodup : visited.Nodup) (hsub : visited ⊆ items) :
    ∃ entry, reduceAll c visited = some entry ∧ entry.Exact c visited := by
  obtain ⟨rank, hranked⟩ := h
  have hrank : RankedBy (compareKept c) rank items :=
    fun group hne hnodup hsub hsame x hx hnot z hz => by
      rw [compareKept, hranked group hne hnodup hsub hsame x hx hnot z hz, Option.getD_some]
  have hsome : (reduceAll c visited).isSome := by
    induction visited using List.reverseRecOn with
    | nil => rfl
    | append_singleton visited item ih =>
      have hbefore := List.Nodup.of_append_left hnodup
      have hsub' : visited ⊆ items := fun y hy => hsub (mem_append_left _ hy)
      obtain ⟨entry, hentry⟩ := Option.isSome_iff_exists.mp (ih hbefore hsub')
      rw [reduceAll_append_singleton, hentry, Option.bind_some,
        (keeps_of_reduceAll hentry).isSome_add_iff]
      by_cases hnil : keepAll (compareKept c) visited = []
      · exact .inl hnil
      obtain ⟨z, hz⟩ := exists_mem_of_ne_nil _ hnil
      have hkeeps := hrank.keepsTop hbefore hsub'
      have hnot : item ∉ visited := fun hmem =>
        disjoint_of_nodup_append hnodup hmem (mem_singleton_self item)
      rw [hranked _ hnil hkeeps.nodup (fun y hy => hsub' ((hkeeps.mem_iff y).mp hy).1)
        (fun _ hy _ hz => hkeeps.rank_eq hy hz) item (hsub (by simp))
        (fun hmem => hnot ((hkeeps.mem_iff item).mp hmem).1) z hz]
      exact .inr rfl
  obtain ⟨entry, hentry⟩ := Option.isSome_iff_exists.mp hsome
  exact ⟨entry, hentry, exact_of_keepsMaxima (hrank.keepsMaxima hnodup hsub) hentry⟩

/-- If the loop is exact for all of the items, in every order, they are ranked. -/
theorem rankedItems_of_exact
    (hactions : ∀ x ∈ items, ∀ y ∈ items, x.reduceAction c = y.reduceAction c → x = y)
    (h : ∀ visited : List ParseItem, visited.Nodup → visited ⊆ items →
      ∃ entry, reduceAll c visited = some entry ∧ entry.Exact c visited) : RankedItems c items := by
  have hmaxima (visited : List ParseItem) (hnodup : visited.Nodup) (hsub : visited ⊆ items) :
      KeepsMaxima (compareKept c) visited := by
    obtain ⟨entry, hentry, hexact⟩ := h visited hnodup hsub
    exact keepsMaxima_of_exact (fun x hx y hy => hactions x (hsub hx) y (hsub hy)) hentry hexact
  obtain ⟨rank, hrank⟩ := ranked_of_keepsMaxima hmaxima
  refine ⟨rank, fun group hne hnodup hsub hsame x hx hnot z hz => ?_⟩
  rw [← hrank group hne hnodup hsub hsame x hx hnot z hz, compareKept]
  -- The loop keeps the group, and then comes to the item.
  have hgroup : keepAll (compareKept c) group = group :=
    keepAll_group hmaxima hnodup hsub fun y hy w hw hdiffer hout => by
      have hlt := (hrank.outranks_iff (hsub hw) (hsub hy) hdiffer).mp hout
      rw [hsame w hw y hy] at hlt
      exact lt_irrefl _ hlt
  have hnodup' : (group ++ [x]).Nodup := by
    rw [nodup_append_comm]
    exact nodup_cons.mpr ⟨hnot, hnodup⟩
  obtain ⟨entry, hentry, -⟩ := h (group ++ [x]) hnodup'
    (append_subset.mpr ⟨hsub, by simpa using hx⟩)
  rw [reduceAll_append_singleton] at hentry
  obtain ⟨before, hbefore, hadd⟩ := Option.bind_eq_some_iff.mp hentry
  have hkeeps := keeps_of_reduceAll hbefore
  rw [hgroup] at hkeeps
  obtain ⟨ordering, hordering⟩ := Option.isSome_iff_exists.mp
    ((hkeeps.isSome_add_iff.mp (Option.isSome_of_mem hadd)).resolve_left hne)
  rw [hordering, Option.getD_some]

variable {entries : List ParseItemSetEntry} {lookahead : Symbol}

theorem exists_entries (hsub : items ⊆ competing c lookahead entries) :
    ∃ some : List ParseItemSetEntry, some.map ParseItemSetEntry.item = items ∧
      some ⊆ entries ∧ ∀ entry ∈ some, entry.reducesAt c lookahead := by
  induction items with
  | nil => exact ⟨[], rfl, nil_subset _, by simp⟩
  | cons item items ih =>
    obtain ⟨some, rfl, hentries, hreduce⟩ := ih (subset_of_cons_subset hsub)
    obtain ⟨entry, hentry, rfl⟩ := mem_map.mp (hsub mem_cons_self)
    obtain ⟨hmem, hat⟩ := mem_filter.mp hentry
    exact ⟨entry :: some, rfl, cons_subset.mpr ⟨hmem, hentries⟩,
      forall_mem_cons.mpr ⟨hat, hreduce⟩⟩

/-- Some of the competing items, in any order, are what the loop has gone over at some time. -/
theorem exists_order (hnodup : items.Nodup) (hsub : items ⊆ competing c lookahead entries) :
    ∃ (order : List ParseItemSetEntry) (n : Nat), order.Perm entries ∧
      competing c lookahead (order.take n) = items := by
  obtain ⟨first, rfl, hentries, hreduce⟩ := exists_entries hsub
  obtain ⟨some, hperm, hsublist⟩ := subperm_of_subset hnodup.of_map hentries
  obtain ⟨others, hothers⟩ := hsublist.exists_perm_append
  refine ⟨first ++ others, first.length, ?_, ?_⟩
  · exact (hperm.symm.append_right others).trans hothers.symm
  · rw [take_left, competing, filter_eq_self.mpr hreduce]

theorem competing_sublist {some : List ParseItemSetEntry} (h : some.Sublist entries) :
    (competing c lookahead some).Sublist (competing c lookahead entries) :=
  (h.filter _).map _

theorem nodup_competing (h : (entries.map ParseItemSetEntry.item).Nodup) :
    (competing c lookahead entries).Nodup :=
  h.sublist (filter_sublist.map _)

/-- The number that a precedence stands for, unless it is a name. -/
def Precedence.value : Precedence → Int
  | .integer value => value
  | _ => 0

theorem comparePrecedence?_of_integers {grammar : PrecedenceGrammar}
    (hlists : grammar.precedenceOrderings = []) {left right : Precedence}
    (hleft : ∀ n, left ≠ .name n) (hright : ∀ n, right ≠ .name n)
    (leftSymbols rightSymbols : List Symbol) :
    comparePrecedence? grammar left leftSymbols right rightSymbols =
      some (compare left.value right.value) := by
  rw [comparePrecedence?, hlists, findOrdering?]
  cases left with
  | name n => exact absurd rfl (hleft n)
  | none =>
    cases right with
    | name n => exact absurd rfl (hright n)
    | none => rfl
    | integer r =>
      rw [compareIntegers]
      by_cases h : r = 0 <;> simp [h, Precedence.value]
  | integer l =>
    cases right with
    | name n => exact absurd rfl (hright n)
    | none =>
      rw [compareIntegers]
      by_cases h : l = 0 <;> simp [h, Precedence.value]
    | integer r =>
      rw [compareIntegers]
      by_cases h : l = 0 <;> by_cases h' : r = 0 <;> simp [h, h', Precedence.value]

theorem rankedItems_of_integers (hlists : c.precedences.precedenceOrderings = [])
    (hitems : ∀ item ∈ items, ∀ n, item.precedence c ≠ .name n) : RankedItems c items := by
  refine ⟨fun item => (item.precedence c).value, fun group hne _ hsub hsame x hx _ z hz => ?_⟩
  obtain ⟨last, hlast⟩ := Option.isSome_iff_exists.mp (getLast?_isSome.mpr hne)
  have hmem := mem_of_getLast? hlast
  rw [compareKept?, hlast, Option.map_some, Option.getD_some,
    comparePrecedence?_of_integers hlists (hitems x hx) (hitems last (hsub hmem))]
  exact congrArg (fun value => some (compare _ value)) (hsame last hmem z hz)

/-! ### Three items -/

/-- A grammar with three rules for one token, of these precedences. -/
def threeRules (precedence : Nat → Precedence) : SyntaxGrammar where
  productions := (List.range 3).map fun i =>
    { steps := [{ symbol := .terminal 0, precedence := precedence i }] }
  varProds := [(0, 1), (1, 2), (2, 3)]
  nTerminals := 1

def threeRulesEntry (i : Nat) : ParseItemSetEntry where
  item := { variableIndex := i, stepIndex := 1, prodId := i }
  lookaheads := {.eof}

/-- Integers as precedences. -/
def rankedRules : ActionContext where
  grammar := threeRules fun i => .integer i
  precedences := { vars := ["x", "y", "z"], precedenceOrderings := [] }
  productionId := fun _ => 0

theorem precedence_rankedRules : ∀ item ∈ competing rankedRules .eof
      [threeRulesEntry 0, threeRulesEntry 1, threeRulesEntry 2],
    item.precedence rankedRules = .integer item.variableIndex := by
  decide +kernel

/-- Names as precedences; `c` comes before `a`, and nothing is said of `b`. -/
def unrankedRules : ActionContext where
  grammar := threeRules fun i => .name (["a", "b", "c"].getD i "")
  precedences :=
    { vars := ["x", "y", "z"]
      precedenceOrderings := [[.name "c", .name "a"], [.name "b"]] }
  productionId := fun _ => 0

end TreeSitter.Generate
