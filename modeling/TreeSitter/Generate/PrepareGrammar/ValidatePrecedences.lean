import TreeSitter.Generate.Grammars

/-!
# TreeSitter.Generate.PrepareGrammar.ValidatePrecedences

`validate_precedences` of `prepare_grammar.rs`: in the lists of precedences no two entries may
stand in both orders. A hash map has the order of each **pair**, smaller entry first, and the loop
over the pairs of a list puts them in that order by swapping its variables. The first variable
belongs to the loop around it, so it stays the smaller entry for the pairs that follow
(`comparisons`): what the loop misses are the pairs with something smaller in between
(`validatePrecedences_exact_iff`).
-/

namespace TreeSitter.Generate

open List

/-- `PrecedenceEntry`. -/
inductive PrecedenceEntry where
  | name (value : String)
  | symbol (value : String)
deriving DecidableEq

/-- `ValidatePrecedenceError`. -/
inductive ValidatePrecedenceError where
  | undeclared (precedence rule : String)
  | ordering (precedence1 precedence2 : String)
deriving DecidableEq

namespace PrecedenceEntry

/-- `display`. -/
def display : PrecedenceEntry → String
  | name value => "'" ++ value ++ "'"
  | symbol value => "$." ++ value

/-- `cmp`. -/
def cmp : PrecedenceEntry → PrecedenceEntry → Ordering
  | name a, name b | symbol a, symbol b => compare a b
  | name _, symbol _ => .lt
  | symbol _, name _ => .gt

/-- What entries are compared by. -/
def key : PrecedenceEntry → Bool ×ₗ String
  | name value => toLex (false, value)
  | symbol value => toLex (true, value)

theorem key_injective : Function.Injective key := by
  rintro (a | a) (b | b) h <;> simp_all [key]

instance : LinearOrder PrecedenceEntry := LinearOrder.lift' key key_injective

variable {a b : PrecedenceEntry}

theorem lt_def : a < b ↔ a.key < b.key := Iff.rfl

theorem cmp_eq_gt : a.cmp b = .gt ↔ b < a := by
  rw [lt_def]
  cases a <;> cases b <;> simp [cmp, key, Prod.Lex.toLex_lt_toLex, compare_gt_iff_gt]

theorem isGT_cmp : (a.cmp b).isGT = true ↔ b < a := by
  rw [Ordering.isGT_iff_eq_gt, cmp_eq_gt]

end PrecedenceEntry

/-! ### The pass -/

/-- `pairs`, with the order of a pair: `gt` if its smaller entry comes first. -/
abbrev PrecedencePairs := List ((PrecedenceEntry × PrecedenceEntry) × Ordering)

/-- A pair and its order are put in the map; the order must be the one that is there. -/
def enterPair (pairs : PrecedencePairs) (entry1 entry2 : PrecedenceEntry) (ordering : Ordering) :
    Except ValidatePrecedenceError PrecedencePairs :=
  match pairs.lookup (entry1, entry2) with
  | none => .ok (((entry1, entry2), ordering) :: pairs)
  | some found =>
    if found ≠ ordering then .error (.ordering entry1.display entry2.display) else .ok pairs

/-- The loop over the entries behind `entry1`. The swap of the two variables outlasts the turn. -/
def comparePairs (pairs : PrecedencePairs) (entry1 : PrecedenceEntry) :
    List PrecedenceEntry → Except ValidatePrecedenceError PrecedencePairs
  | [] => .ok pairs
  | entry2 :: rest =>
    if entry1 = entry2 then comparePairs pairs entry1 rest
    else if (entry1.cmp entry2).isGT then do
      let pairs ← enterPair pairs entry2 entry1 .lt
      comparePairs pairs entry2 rest
    else do
      let pairs ← enterPair pairs entry1 entry2 .gt
      comparePairs pairs entry1 rest

/-- The loop over the entries of a list. -/
def compareEntries (pairs : PrecedencePairs) :
    List PrecedenceEntry → Except ValidatePrecedenceError PrecedencePairs
  | [] => .ok pairs
  | entry1 :: rest => do
    let pairs ← comparePairs pairs entry1 rest
    compareEntries pairs rest

/-- `precedence_names`. -/
def precedenceNames (orderings : List (List PrecedenceEntry)) : List String :=
  orderings.flatten.filterMap fun
    | .name value => some value
    | .symbol _ => none

mutual

/-- The first precedence that is not declared, as the nodes come off the stack: of several
children the last one first. What is below `Reserved` is not looked at. -/
def Rule.undeclaredPrecedence (names : List String) : Rule → Option String
  | .repeat r => r.undeclaredPrecedence names
  | .seq es | .choice es => undeclaredPrecedenceAny names es
  | .metadata params r =>
    match params.precedence with
    | .name value => if value ∈ names then r.undeclaredPrecedence names else some value
    | _ => r.undeclaredPrecedence names
  | _ => none

def undeclaredPrecedenceAny (names : List String) : List Rule → Option String
  | [] => none
  | e :: es => (undeclaredPrecedenceAny names es).or (e.undeclaredPrecedence names)

end

def checkDeclared (names : List String) (v : Variable) : Except ValidatePrecedenceError Unit :=
  match v.root.undeclaredPrecedence names with
  | some precedence => .error (.undeclared precedence v.name)
  | none => .ok ()

/-- `validate_precedences`. -/
def validatePrecedences (orderings : List (List PrecedenceEntry)) (vars : List Variable) :
    Except ValidatePrecedenceError Unit := do
  let _ ← orderings.foldlM compareEntries []
  vars.forM (checkDeclared (precedenceNames orderings))

/-! ### Which pairs are compared -/

/-- The pairs that the loop behind an entry compares, the one that comes first in the list
first. -/
def comparisonsBehind (entry1 : PrecedenceEntry) :
    List PrecedenceEntry → List (PrecedenceEntry × PrecedenceEntry)
  | [] => []
  | entry2 :: rest =>
    if entry1 = entry2 then comparisonsBehind entry1 rest
    else (entry1, entry2) :: comparisonsBehind (min entry1 entry2) rest

def comparisons : List PrecedenceEntry → List (PrecedenceEntry × PrecedenceEntry)
  | [] => []
  | entry1 :: rest => comparisonsBehind entry1 rest ++ comparisons rest

/-- A pair is entered, the smaller entry first. -/
def comparePair (pairs : PrecedencePairs) (pair : PrecedenceEntry × PrecedenceEntry) :
    Except ValidatePrecedenceError PrecedencePairs :=
  if pair.2 < pair.1 then enterPair pairs pair.2 pair.1 .lt else enterPair pairs pair.1 pair.2 .gt

theorem comparePairs_eq (pairs : PrecedencePairs) (entry1 : PrecedenceEntry)
    (rest : List PrecedenceEntry) :
    comparePairs pairs entry1 rest = (comparisonsBehind entry1 rest).foldlM comparePair pairs := by
  induction rest generalizing entry1 pairs with
  | nil => rfl
  | cons entry2 rest ih =>
    rw [comparePairs, comparisonsBehind]
    split
    · exact ih pairs entry1
    · rw [foldlM_cons, comparePair]
      by_cases hlt : entry2 < entry1
      · rw [if_pos (PrecedenceEntry.isGT_cmp.mpr hlt), if_pos hlt, min_eq_right hlt.le]
        exact bind_congr fun pairs => ih pairs entry2
      · rw [if_neg (PrecedenceEntry.isGT_cmp.not.mpr hlt), if_neg hlt, min_eq_left (not_lt.mp hlt)]
        exact bind_congr fun pairs => ih pairs entry1

theorem compareEntries_eq (pairs : PrecedencePairs) (list : List PrecedenceEntry) :
    compareEntries pairs list = (comparisons list).foldlM comparePair pairs := by
  induction list generalizing pairs with
  | nil => rfl
  | cons entry1 rest ih =>
    rw [compareEntries, comparisons, foldlM_append, comparePairs_eq]
    exact bind_congr ih

theorem foldlM_compareEntries (pairs : PrecedencePairs) (orderings : List (List PrecedenceEntry)) :
    orderings.foldlM compareEntries pairs =
      (orderings.flatMap comparisons).foldlM comparePair pairs := by
  induction orderings generalizing pairs with
  | nil => rfl
  | cons list orderings ih =>
    rw [foldlM_cons, flatMap_cons, foldlM_append, compareEntries_eq]
    exact bind_congr ih

/-- In a list, one entry comes before another and nothing in between is smaller than the
first. -/
def InView (x y : PrecedenceEntry) (list : List PrecedenceEntry) : Prop :=
  ∃ before between behind, list = before ++ x :: between ++ y :: behind ∧ ∀ z ∈ between, x ≤ z

theorem mem_comparisonsBehind {x y entry1 : PrecedenceEntry} {rest : List PrecedenceEntry} :
    (x, y) ∈ comparisonsBehind entry1 rest ↔ x ≠ y ∧ ∃ between behind,
      rest = between ++ y :: behind ∧ x ∈ entry1 :: between ∧ ∀ z ∈ entry1 :: between, x ≤ z := by
  induction rest generalizing entry1 with
  | nil => simp [comparisonsBehind]
  | cons entry2 rest ih =>
    have hsplit : (∃ between behind, entry2 :: rest = between ++ y :: behind ∧
        x ∈ entry1 :: between ∧ ∀ z ∈ entry1 :: between, x ≤ z) ↔
        (x = entry1 ∧ y = entry2) ∨ ∃ between behind, rest = between ++ y :: behind ∧
          x ∈ entry1 :: entry2 :: between ∧ ∀ z ∈ entry1 :: entry2 :: between, x ≤ z := by
      constructor
      · rintro ⟨between, behind, heq, hmem, hle⟩
        cases between with
        | nil =>
          cases heq
          exact Or.inl ⟨mem_singleton.mp hmem, rfl⟩
        | cons z between =>
          cases heq
          exact Or.inr ⟨between, behind, rfl, hmem, hle⟩
      · rintro (⟨rfl, rfl⟩ | ⟨between, behind, rfl, hmem, hle⟩)
        · exact ⟨[], rest, rfl, mem_cons_self, by simp⟩
        · exact ⟨entry2 :: between, behind, rfl, hmem, hle⟩
    rw [comparisonsBehind, hsplit]
    split
    · rename_i heq
      subst heq
      rw [ih]
      refine and_congr_right fun hne => ?_
      have hnot : ¬ (x = entry1 ∧ y = entry1) := fun h => hne (h.1.trans h.2.symm)
      simp only [hnot, false_or, mem_cons, or_self_left, forall_eq_or_imp]
    · rename_i hne
      have hmin : ∀ between : List PrecedenceEntry,
          (x ∈ min entry1 entry2 :: between ∧ ∀ z ∈ min entry1 entry2 :: between, x ≤ z) ↔
            x ∈ entry1 :: entry2 :: between ∧ ∀ z ∈ entry1 :: entry2 :: between, x ≤ z := by
        intro between
        rw [forall_mem_cons, forall_mem_cons, forall_mem_cons, le_min_iff]
        simp only [mem_cons]
        constructor
        · rintro ⟨rfl | hmem, hle⟩
          · exact ⟨(min_choice entry1 entry2).imp_right Or.inl, min_le_left .., min_le_right ..,
              hle.2⟩
          · exact ⟨Or.inr (Or.inr hmem), hle.1.1, hle.1.2, hle.2⟩
        · rintro ⟨rfl | rfl | hmem, h1, h2, hle⟩
          · exact ⟨Or.inl (min_eq_left h2).symm, ⟨h1, h2⟩, hle⟩
          · exact ⟨Or.inl (min_eq_right h1).symm, ⟨h1, h2⟩, hle⟩
          · exact ⟨Or.inr hmem, ⟨h1, h2⟩, hle⟩
      rw [mem_cons, ih, Prod.mk.injEq]
      simp only [hmin]
      constructor
      · rintro (⟨rfl, rfl⟩ | ⟨hxy, h⟩)
        · exact ⟨hne, Or.inl ⟨rfl, rfl⟩⟩
        · exact ⟨hxy, Or.inr h⟩
      · rintro ⟨hxy, h | h⟩
        · exact Or.inl h
        · exact Or.inr ⟨hxy, h⟩

/-- **The pairs of a list that are compared** are those in view of each other. -/
theorem mem_comparisons {x y : PrecedenceEntry} {list : List PrecedenceEntry} :
    (x, y) ∈ comparisons list ↔ x ≠ y ∧ InView x y list := by
  induction list with
  | nil => simp [comparisons, InView]
  | cons entry1 rest ih =>
    rw [comparisons, mem_append, mem_comparisonsBehind, ih, ← and_or_left]
    refine and_congr_right fun _ => ⟨?_, ?_⟩
    · rintro (⟨between, behind, rfl, hmem, hle⟩ | ⟨before, between, behind, rfl, hle⟩)
      · rcases mem_cons.mp hmem with rfl | hmem
        · exact ⟨[], between, behind, rfl, (forall_mem_cons.mp hle).2⟩
        · obtain ⟨first, second, rfl⟩ := append_of_mem hmem
          refine ⟨entry1 :: first, second, behind, by simp, fun z hz => hle z ?_⟩
          exact mem_cons_of_mem _ (mem_append_right _ (mem_cons_of_mem _ hz))
      · exact ⟨entry1 :: before, between, behind, rfl, hle⟩
    · rintro ⟨before, between, behind, heq, hle⟩
      cases before with
      | nil =>
        cases heq
        exact Or.inl ⟨between, behind, rfl, mem_cons_self, forall_mem_cons.mpr ⟨le_rfl, hle⟩⟩
      | cons e before =>
        cases heq
        exact Or.inr ⟨before, between, behind, rfl, hle⟩

/-! ### Which orders are found to conflict -/

/-- The map has the orders of some pairs. -/
def Represents (pairs : PrecedencePairs) (seen : List (PrecedenceEntry × PrecedenceEntry)) :
    Prop :=
  ∀ a b, a < b → pairs.lookup (a, b) =
    if (a, b) ∈ seen then some .gt else if (b, a) ∈ seen then some .lt else none

/-- Some two pairs stand in both orders. -/
def Conflicting (seen : List (PrecedenceEntry × PrecedenceEntry)) : Prop :=
  ∃ x y, (x, y) ∈ seen ∧ (y, x) ∈ seen

theorem lookup_cons {pairs : PrecedencePairs} {k k' : PrecedenceEntry × PrecedenceEntry}
    {o : Ordering} :
    List.lookup k ((k', o) :: pairs) = if k = k' then some o else List.lookup k pairs := by
  rw [List.lookup_cons]
  split <;> simp_all

section Represents

variable {pairs : PrecedencePairs} {seen : List (PrecedenceEntry × PrecedenceEntry)}
  {x y : PrecedenceEntry}

theorem Represents.cons_of_mem (h : Represents pairs seen) (hmem : (x, y) ∈ seen) :
    Represents pairs ((x, y) :: seen) := by
  intro a b hab
  rw [h a b hab]
  have hiff : ∀ k, k ∈ (x, y) :: seen ↔ k ∈ seen := by
    intro k
    rw [mem_cons]
    exact or_iff_right_of_imp fun hk => hk ▸ hmem
  simp only [hiff]

theorem Represents.enter (h : Represents pairs seen) {a b : PrecedenceEntry} {o : Ordering}
    (hab : a < b) (ho : o = .gt ∧ (x, y) = (a, b) ∨ o = .lt ∧ (x, y) = (b, a))
    (hnew : (a, b) ∉ seen ∧ (b, a) ∉ seen) :
    Represents (((a, b), o) :: pairs) ((x, y) :: seen) := by
  intro c d hcd
  rw [lookup_cons, h c d hcd]
  by_cases heq : (c, d) = (a, b)
  · cases heq
    have hne : (b, a) ≠ (a, b) := fun heq => hab.ne' (Prod.mk.inj heq).1
    rcases ho with ⟨rfl, hxy⟩ | ⟨rfl, hxy⟩ <;> simp [hxy, hnew, hne.symm]
  · have h1 : (c, d) ≠ (x, y) := by
      rcases ho with ⟨-, hxy⟩ | ⟨-, hxy⟩
      · exact hxy ▸ heq
      · intro hcd'
        cases hcd'.trans hxy
        exact absurd hab hcd.not_gt
    have h2 : (d, c) ≠ (x, y) := by
      rcases ho with ⟨-, hxy⟩ | ⟨-, hxy⟩
      · intro hdc
        cases hdc.trans hxy
        exact absurd hab hcd.not_gt
      · intro hdc
        cases hdc.trans hxy
        exact heq rfl
    simp [heq, h1, h2]

/-- **Comparing one pair** fails if the pair was seen in the other order. -/
theorem comparePair_cases (h : Represents pairs seen) (hseen : ¬ Conflicting seen) (hne : x ≠ y) :
    ((y, x) ∈ seen ∧ ∃ p1 p2, comparePair pairs (x, y) = .error (.ordering p1 p2)) ∨
    ((y, x) ∉ seen ∧ ∃ pairs', comparePair pairs (x, y) = .ok pairs' ∧
      Represents pairs' ((x, y) :: seen)) := by
  have hnot : (x, y) ∈ seen → (y, x) ∉ seen := fun h1 h2 => hseen ⟨x, y, h1, h2⟩
  rcases lt_or_gt_of_ne hne with hlt | hlt
  · have hlookup := h x y hlt
    rw [comparePair, if_neg hlt.not_gt, enterPair, hlookup]
    by_cases hxy : (x, y) ∈ seen
    · exact Or.inr ⟨hnot hxy, pairs, by simp [hxy], h.cons_of_mem hxy⟩
    · by_cases hyx : (y, x) ∈ seen
      · exact Or.inl ⟨hyx, x.display, y.display, by simp [hxy, hyx]⟩
      · exact Or.inr ⟨hyx, ((x, y), .gt) :: pairs, by simp [hxy, hyx],
          h.enter hlt (Or.inl ⟨rfl, rfl⟩) ⟨hxy, hyx⟩⟩
  · have hlookup := h y x hlt
    rw [comparePair, if_pos hlt, enterPair, hlookup]
    by_cases hyx : (y, x) ∈ seen
    · exact Or.inl ⟨hyx, y.display, x.display, by simp [hyx]⟩
    · by_cases hxy : (x, y) ∈ seen
      · exact Or.inr ⟨hyx, pairs, by simp [hxy, hyx], h.cons_of_mem hxy⟩
      · exact Or.inr ⟨hyx, ((y, x), .lt) :: pairs, by simp [hxy, hyx],
          h.enter hlt (Or.inr ⟨rfl, rfl⟩) ⟨hyx, hxy⟩⟩

end Represents

/-- **Comparing some pairs** fails if two of them conflict, with each other or with one seen
before. -/
theorem foldlM_comparePair :
    ∀ {compared seen : List (PrecedenceEntry × PrecedenceEntry)} {pairs : PrecedencePairs},
      Represents pairs seen → ¬ Conflicting seen → (∀ x y, (x, y) ∈ compared → x ≠ y) →
      (Conflicting (compared ++ seen) ∧
        ∃ p1 p2, compared.foldlM comparePair pairs = .error (.ordering p1 p2)) ∨
      (¬ Conflicting (compared ++ seen) ∧
        ∃ pairs', compared.foldlM comparePair pairs = .ok pairs') := by
  intro compared
  induction compared with
  | nil => exact fun _ hseen _ => Or.inr ⟨hseen, _, rfl⟩
  | cons pair compared ih =>
    intro seen pairs h hseen hne
    obtain ⟨x, y⟩ := pair
    have hxy := hne x y mem_cons_self
    rw [foldlM_cons]
    rcases comparePair_cases h hseen hxy with ⟨hmem, p1, p2, hpair⟩ | ⟨hmem, pairs', hpair, h'⟩
    · refine Or.inl ⟨⟨x, y, mem_cons_self, ?_⟩, p1, p2, by rw [hpair]; rfl⟩
      exact mem_cons_of_mem _ (mem_append_right _ hmem)
    · have hseen' : ¬ Conflicting ((x, y) :: seen) := by
        rintro ⟨a, b, hab, hba⟩
        rcases mem_cons.mp hab with hab | hab
        · cases hab
          rcases mem_cons.mp hba with hba | hba
          · exact hxy (Prod.mk.inj hba).2
          · exact hmem hba
        · rcases mem_cons.mp hba with hba | hba
          · cases hba
            exact hmem hab
          · exact hseen ⟨a, b, hab, hba⟩
      have hperm : Conflicting ((x, y) :: compared ++ seen) ↔
          Conflicting (compared ++ (x, y) :: seen) := by
        simp only [Conflicting, cons_append, mem_cons, mem_append, or_left_comm]
      rw [hpair, hperm]
      exact ih h' hseen' fun a b hab => hne a b (mem_cons_of_mem _ hab)

/-! ### The verdict -/

section Verdict

variable (orderings : List (List PrecedenceEntry))

/-- Two different entries stand in both orders. -/
def ConflictingOrders : Prop :=
  ∃ x y, x ≠ y ∧ (∃ list ∈ orderings, [x, y].Sublist list) ∧
    ∃ list ∈ orderings, [y, x].Sublist list

/-- Two different entries stand in both orders, each time with nothing in between that is smaller
than the first of them. -/
def ConflictInView : Prop :=
  ∃ x y, x ≠ y ∧ (∃ list ∈ orderings, InView x y list) ∧ ∃ list ∈ orderings, InView y x list

/-- The pass ends with an error about the order of two entries. -/
def OrderingError (vars : List Variable) : Prop :=
  ∃ p1 p2, validatePrecedences orderings vars = .error (.ordering p1 p2)

variable {orderings}

theorem conflicting_comparisons :
    Conflicting (orderings.flatMap comparisons ++ []) ↔ ConflictInView orderings := by
  simp only [Conflicting, ConflictInView, append_nil, mem_flatMap, mem_comparisons]
  refine exists_congr fun x => exists_congr fun y => ⟨?_, ?_⟩
  · rintro ⟨⟨list, hlist, hne, hview⟩, list', hlist', -, hview'⟩
    exact ⟨hne, ⟨list, hlist, hview⟩, list', hlist', hview'⟩
  · rintro ⟨hne, ⟨list, hlist, hview⟩, list', hlist', hview'⟩
    exact ⟨⟨list, hlist, hne, hview⟩, list', hlist', hne.symm, hview'⟩

theorem forM_checkDeclared_ne {names : List String} {vars : List Variable} {p1 p2 : String} :
    vars.forM (checkDeclared names) ≠ .error (.ordering p1 p2) := by
  induction vars with
  | nil => exact fun h => by cases h
  | cons v vars ih =>
    change (checkDeclared names v >>= fun _ => vars.forM (checkDeclared names)) ≠ _
    rw [checkDeclared]
    cases v.root.undeclaredPrecedence names with
    | some precedence => exact fun h => by cases h
    | none => exact ih

/-- **The pass finds exactly the conflicts in view.** -/
theorem orderingError_iff {vars : List Variable} :
    OrderingError orderings vars ↔ ConflictInView orderings := by
  rw [← conflicting_comparisons]
  have hrepresents : Represents [] [] := fun _ _ _ => by simp
  have hne : ∀ x y, (x, y) ∈ orderings.flatMap comparisons → x ≠ y := by
    intro x y hmem
    obtain ⟨list, -, hmem⟩ := mem_flatMap.mp hmem
    exact (mem_comparisons.mp hmem).1
  rcases foldlM_comparePair hrepresents (by simp [Conflicting]) hne with
    ⟨hconflict, p1, p2, hfold⟩ | ⟨hconflict, pairs, hfold⟩
  · refine iff_of_true ⟨p1, p2, ?_⟩ hconflict
    rw [validatePrecedences, foldlM_compareEntries, hfold]
    rfl
  · refine iff_of_false ?_ hconflict
    rintro ⟨p1, p2, h⟩
    rw [validatePrecedences, foldlM_compareEntries, hfold] at h
    exact forM_checkDeclared_ne h

theorem InView.sublist {x y : PrecedenceEntry} {list : List PrecedenceEntry}
    (h : InView x y list) : [x, y].Sublist list := by
  obtain ⟨before, between, behind, rfl, -⟩ := h
  have hx : [x].Sublist (before ++ x :: between) := singleton_sublist.mpr (by simp)
  have hy : [y].Sublist (y :: behind) := singleton_sublist.mpr mem_cons_self
  exact hx.append hy

theorem ConflictInView.conflictingOrders (h : ConflictInView orderings) :
    ConflictingOrders orderings := by
  obtain ⟨x, y, hne, ⟨list, hlist, hview⟩, list', hlist', hview'⟩ := h
  exact ⟨x, y, hne, ⟨list, hlist, hview.sublist⟩, list', hlist', hview'.sublist⟩

/-- **The pass tells whether two entries stand in both orders exactly if two that do are in
view of each other in both.** -/
theorem validatePrecedences_exact_iff (orderings : List (List PrecedenceEntry))
    (vars : List Variable) :
    (OrderingError orderings vars ↔ ConflictingOrders orderings) ↔
      (ConflictingOrders orderings → ConflictInView orderings) := by
  rw [orderingError_iff]
  exact ⟨fun h => h.mpr, fun h => ⟨ConflictInView.conflictingOrders, h⟩⟩

end Verdict

/-- `b` and `c` in both orders, with `a` in between. -/
def hiddenConflict : List (List PrecedenceEntry) :=
  [[.name "b", .name "a", .name "c"], [.name "c", .name "b"]]

/-- The swap of `b` and `a` hides that `b` comes before `c`. -/
theorem not_exact_hiddenConflict : validatePrecedences hiddenConflict [] = .ok () ∧
    ¬ (OrderingError hiddenConflict [] ↔ ConflictingOrders hiddenConflict) := by
  have hok : validatePrecedences hiddenConflict [] = .ok () := by decide +kernel
  have hconflict : ConflictingOrders hiddenConflict :=
    ⟨.name "b", .name "c", by decide, ⟨_, mem_cons_self, by decide⟩,
      _, mem_cons_of_mem _ mem_cons_self, by decide⟩
  refine ⟨hok, fun h => ?_⟩
  obtain ⟨p1, p2, herror⟩ := h.mpr hconflict
  rw [hok] at herror
  cases herror

end TreeSitter.Generate
