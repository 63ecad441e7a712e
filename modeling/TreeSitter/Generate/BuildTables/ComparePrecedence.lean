import TreeSitter.Generate.PrepareGrammar.ValidatePrecedences

/-!
# TreeSitter.Generate.BuildTables.ComparePrecedence

`compare_precedence` of `build_parse_table.rs`: which of two sides has **more precedence**. Named
precedences and variables are looked up in the lists of the grammar, and the first list in which
the two sides match different entries decides.

An entry that matches both sides counts for the left one only. So the result depends on which side
is the left one (`comparePrecedence_swap_iff`), and no check of the lists prevents that: a list
with a variable and another entry is enough (`antisymmetric_all_iff`).
-/

namespace TreeSitter.Generate

open List

/-! ### The scan of a list -/

section Scan

variable {α : Type*} (p q : α → Bool)

/-- The loop over the entries of a list, where `p` tells what the left side matches and `q` what
the right one. -/
def scanEntries (sawLeft sawRight : Bool) : List α → Option Ordering
  | [] => none
  | entry :: list =>
    if p entry then
      if sawRight then some .lt else scanEntries true sawRight list
    else if q entry then
      if sawLeft then some .gt else scanEntries sawLeft true list
    else scanEntries sawLeft sawRight list

/-- Some entry matches the left side, and some entry only the right one. -/
def tellsApart (list : List α) : Bool := list.any p && list.any fun entry => q entry && !p entry

/-- The first entry that matches a side matches the left one. -/
def leftFirst (list : List α) : Bool := (list.find? fun entry => p entry || q entry).any p

theorem scanEntries_sawLeft (list : List α) :
    scanEntries p q true false list =
      if list.any fun entry => q entry && !p entry then some .gt else none := by
  induction list with
  | nil => rfl
  | cons entry list ih =>
    rw [scanEntries, ih, any_cons]
    cases p entry <;> cases q entry <;> simp

theorem scanEntries_sawRight (list : List α) :
    scanEntries p q false true list = if list.any p then some .lt else none := by
  induction list with
  | nil => rfl
  | cons entry list ih =>
    rw [scanEntries, any_cons]
    cases p entry <;> cases q entry <;> simp [ih]

/-- The side that comes first has more precedence. -/
def verdict : Bool → Ordering
  | true => .gt
  | false => .lt

/-- **A list decides if it tells the sides apart**, for the side that comes first. -/
theorem scanEntries_eq (list : List α) :
    scanEntries p q false false list =
      if tellsApart p q list then some (verdict (leftFirst p q list)) else none := by
  induction list with
  | nil => rfl
  | cons entry list ih =>
    rw [scanEntries, scanEntries_sawLeft, scanEntries_sawRight, ih]
    simp only [tellsApart, leftFirst, any_cons, find?_cons]
    by_cases hp : p entry = true
    · simp [hp, verdict]
    · by_cases hq : q entry = true
      · simp [hp, hq, verdict]
      · simp [hp, hq]

theorem findSome?_scanEntries (lists : List (List α)) :
    lists.findSome? (scanEntries p q false false) =
      ((lists.find? (tellsApart p q)).map (leftFirst p q)).map verdict := by
  induction lists with
  | nil => rfl
  | cons list lists ih =>
    rw [findSome?_cons, scanEntries_eq, find?_cons, ih]
    cases tellsApart p q list <;> rfl

/-- No entry matches both sides beside one that matches a single side. -/
def Unmixed (list : List α) : Prop :=
  ∀ entry ∈ list, p entry → q entry → ∀ other ∈ list, p other = q other

variable {p q}
variable {list : List α}

theorem tellsApart_iff : tellsApart p q list ↔
    (∃ entry ∈ list, p entry) ∧ ∃ entry ∈ list, q entry ∧ ¬ p entry := by
  simp [tellsApart]

/-- A list that tells the sides apart has a first entry that matches a side. -/
theorem exists_first (h : tellsApart p q list) :
    ∃ entry ∈ list, (p entry || q entry) ∧ leftFirst p q list = p entry ∧
      leftFirst q p list = q entry := by
  obtain ⟨⟨entry, hmem, hp⟩, -⟩ := tellsApart_iff.mp h
  have hsome : (list.find? fun entry => p entry || q entry).isSome :=
    find?_isSome.mpr ⟨entry, hmem, by rw [hp]; rfl⟩
  obtain ⟨first, hfirst⟩ := Option.isSome_iff_exists.mp hsome
  have hswap : (list.find? fun entry => q entry || p entry) = some first := by
    rw [← hfirst]
    congr 1
    funext entry
    exact Bool.or_comm _ _
  have hany := @List.find?_some _ (fun entry => p entry || q entry) _ _ hfirst
  exact ⟨first, mem_of_find?_eq_some hfirst, hany, by rw [leftFirst, hfirst]; rfl,
    by rw [leftFirst, hswap]; rfl⟩

theorem Unmixed.swap (h : Unmixed p q list) : tellsApart q p list = tellsApart p q list ∧
      (tellsApart p q list → leftFirst q p list = !leftFirst p q list) := by
  by_cases hboth : ∃ entry ∈ list, p entry ∧ q entry
  · -- the sides match the same entries
    obtain ⟨entry, hmem, hp, hq⟩ := hboth
    have hsame := h entry hmem hp hq
    have hleft : ¬ tellsApart p q list := by
      rw [tellsApart_iff]
      rintro ⟨-, other, hother, hq', hp'⟩
      exact hp' (hsame other hother ▸ hq')
    have hright : ¬ tellsApart q p list := by
      rw [tellsApart_iff]
      rintro ⟨-, other, hother, hp', hq'⟩
      exact hq' (hsame other hother ▸ hp')
    exact ⟨Bool.eq_iff_iff.mpr (iff_of_false hright hleft), fun htells => absurd htells hleft⟩
  · -- no entry matches both
    have hexclusive : ∀ entry ∈ list, p entry → ¬ q entry :=
      fun entry hmem hp hq => hboth ⟨entry, hmem, hp, hq⟩
    constructor
    · rw [Bool.eq_iff_iff, tellsApart_iff, tellsApart_iff]
      constructor
      · rintro ⟨⟨x, hx, hqx⟩, y, hy, hpy, -⟩
        exact ⟨⟨y, hy, hpy⟩, x, hx, hqx, fun hpx => hexclusive x hx hpx hqx⟩
      · rintro ⟨⟨x, hx, hpx⟩, y, hy, hqy, -⟩
        exact ⟨⟨y, hy, hqy⟩, x, hx, hpx, hexclusive x hx hpx⟩
    · intro hapart
      obtain ⟨first, hmem, hany, hleft, hright⟩ := exists_first hapart
      cases hp : p first <;> cases hq : q first <;> simp_all

end Scan

/-! ### The comparison -/

/-- `SyntaxGrammar`, of what the comparison reads: the names of the variables, and the lists. -/
structure PrecedenceGrammar where
  vars : List String
  precedenceOrderings : List (List PrecedenceEntry)

/-- `precedence_entry_matches`, for symbols that are variables of the grammar. -/
def precedenceEntryMatches (grammar : PrecedenceGrammar) (precedence : Precedence)
    (symbols : List Symbol) (entry : PrecedenceEntry) : Bool :=
  match entry with
  | .name n =>
    match precedence with
    | .name p => n == p
    | _ => false
  | .symbol n => symbols.any fun s => grammar.vars[s.index]? == some n

/-- Integer precedences can be compared to other integer precedences, and to the default
precedence, which is zero. -/
def compareIntegers : Precedence → Precedence → Option Ordering
  | .integer l, .integer r => if l ≠ 0 ∨ r ≠ 0 then some (compare l r) else none
  | .integer l, .none => if l ≠ 0 then some (compare l 0) else none
  | .none, .integer r => if r ≠ 0 then some (compare 0 r) else none
  | _, _ => none

/-- `ParseTableBuilder::compare_precedence`, for symbols that are variables of the grammar. -/
def comparePrecedence (grammar : PrecedenceGrammar) (left : Precedence)
    (leftSymbols : List Symbol) (right : Precedence) (rightSymbols : List Symbol) : Ordering :=
  match compareIntegers left right with
  | some ordering => ordering
  | none =>
    (grammar.precedenceOrderings.findSome? (scanEntries
      (precedenceEntryMatches grammar left leftSymbols)
      (precedenceEntryMatches grammar right rightSymbols) false false)).getD .eq

section Checked

variable (grammar : PrecedenceGrammar)

/-- Whether one of the symbols has the name. One that is no variable, which the item of the start
rule has, is an index outside of them. -/
def anyVariable? (name : String) : List Symbol → Option Bool
  | [] => some false
  | s :: symbols => do
    let variableName ← grammar.vars[s.index]?
    if variableName = name then some true else anyVariable? name symbols

/-- `precedence_entry_matches`, unless it fails. -/
def precedenceEntryMatches? (precedence : Precedence) (symbols : List Symbol) :
    PrecedenceEntry → Option Bool
  | .name n => some (precedenceEntryMatches grammar precedence symbols (.name n))
  | .symbol n => anyVariable? grammar n symbols

/-- The loop over the entries of a list, if neither side fails. -/
def scanEntries? {α : Type*} (p q : α → Option Bool) (sawLeft sawRight : Bool) :
    List α → Option (Option Ordering)
  | [] => some none
  | entry :: list => do
    let matchesLeft ← p entry
    let matchesRight ← q entry
    if matchesLeft then
      if sawRight then some (some .lt) else scanEntries? p q true sawRight list
    else if matchesRight then
      if sawLeft then some (some .gt) else scanEntries? p q sawLeft true list
    else scanEntries? p q sawLeft sawRight list

/-- The loop over the lists. -/
def findOrdering? {α : Type*} (p q : α → Option Bool) : List (List α) → Option (Option Ordering)
  | [] => some none
  | list :: lists => do
    match ← scanEntries? p q false false list with
    | some ordering => some (some ordering)
    | none => findOrdering? p q lists

/-- `ParseTableBuilder::compare_precedence`, unless it fails. -/
def comparePrecedence? (left : Precedence) (leftSymbols : List Symbol) (right : Precedence)
    (rightSymbols : List Symbol) : Option Ordering :=
  match compareIntegers left right with
  | some ordering => some ordering
  | none =>
    (findOrdering? (precedenceEntryMatches? grammar left leftSymbols)
      (precedenceEntryMatches? grammar right rightSymbols) grammar.precedenceOrderings).map
        (Option.getD · .eq)

variable {grammar}

theorem anyVariable?_of_lt {name : String} {symbols : List Symbol}
    (h : ∀ s ∈ symbols, s.index < grammar.vars.length) :
    anyVariable? grammar name symbols =
      some (symbols.any fun s => grammar.vars[s.index]? == some name) := by
  induction symbols with
  | nil => rfl
  | cons s symbols ih =>
    have hlt := h s mem_cons_self
    obtain ⟨variableName, hs⟩ : ∃ name, grammar.vars[s.index]? = some name :=
      ⟨_, getElem?_eq_getElem hlt⟩
    rw [anyVariable?, any_cons, hs, ih fun s hs => h s (mem_cons_of_mem _ hs)]
    by_cases hname : variableName = name <;> simp [hname]

theorem precedenceEntryMatches?_of_lt {precedence : Precedence} {symbols : List Symbol}
    (h : ∀ s ∈ symbols, s.index < grammar.vars.length) (entry : PrecedenceEntry) :
    precedenceEntryMatches? grammar precedence symbols entry =
      some (precedenceEntryMatches grammar precedence symbols entry) := by
  cases entry with
  | name n => rfl
  | symbol n => exact anyVariable?_of_lt h

theorem scanEntries?_of_some {α : Type*} {p q : α → Bool} {p' q' : α → Option Bool}
    (hp : ∀ entry, p' entry = some (p entry)) (hq : ∀ entry, q' entry = some (q entry))
    (list : List α) (sawLeft sawRight : Bool) :
    scanEntries? p' q' sawLeft sawRight list = some (scanEntries p q sawLeft sawRight list) := by
  induction list generalizing sawLeft sawRight with
  | nil => rfl
  | cons entry list ih =>
    rw [scanEntries?, hp, hq, scanEntries]
    cases p entry <;> cases q entry <;> cases sawLeft <;> cases sawRight <;> simp [ih]

theorem comparePrecedence?_of_lt {left right : Precedence} {leftSymbols rightSymbols : List Symbol}
    (hleft : ∀ s ∈ leftSymbols, s.index < grammar.vars.length)
    (hright : ∀ s ∈ rightSymbols, s.index < grammar.vars.length) :
    comparePrecedence? grammar left leftSymbols right rightSymbols =
      some (comparePrecedence grammar left leftSymbols right rightSymbols) := by
  rw [comparePrecedence?, comparePrecedence]
  cases compareIntegers left right with
  | some ordering => rfl
  | none =>
    have hfind (lists : List (List PrecedenceEntry)) :
        findOrdering? (precedenceEntryMatches? grammar left leftSymbols)
          (precedenceEntryMatches? grammar right rightSymbols) lists =
        some (lists.findSome? (scanEntries (precedenceEntryMatches grammar left leftSymbols)
          (precedenceEntryMatches grammar right rightSymbols) false false)) := by
      induction lists with
      | nil => rfl
      | cons list lists ih =>
        rw [findOrdering?, scanEntries?_of_some (precedenceEntryMatches?_of_lt hleft)
          (precedenceEntryMatches?_of_lt hright), findSome?_cons]
        cases scanEntries (precedenceEntryMatches grammar left leftSymbols)
          (precedenceEntryMatches grammar right rightSymbols) false false list with
        | some ordering => rfl
        | none => exact ih
    rw [hfind]
    rfl

end Checked

theorem compareIntegers_swap (left right : Precedence) :
    compareIntegers right left = (compareIntegers left right).map Ordering.swap := by
  have hswap (l r : Int) : compare r l = (compare l r).swap := Std.OrientedCmp.eq_swap
  cases left with
  | none =>
    cases right with
    | integer r =>
      rw [compareIntegers, compareIntegers, hswap 0 r]
      split <;> rfl
    | _ => rfl
  | integer l =>
    cases right with
    | none =>
      rw [compareIntegers, compareIntegers, hswap l 0]
      split <;> rfl
    | integer r =>
      rw [compareIntegers, compareIntegers, hswap l r]
      by_cases h : l ≠ 0 ∨ r ≠ 0
      · rw [if_pos h, if_pos h.symm]
        rfl
      · rw [if_neg h, if_neg fun h' => h h'.symm]
        rfl
    | name => rfl
  | name => cases right <;> rfl

/-! ### Both ways around -/

section Swap

variable (grammar : PrecedenceGrammar) (left : Precedence) (leftSymbols : List Symbol)
  (right : Precedence) (rightSymbols : List Symbol)

/-- The result is the reverse if the sides are exchanged. -/
def Antisymmetric : Prop :=
  comparePrecedence grammar right rightSymbols left leftSymbols =
    (comparePrecedence grammar left leftSymbols right rightSymbols).swap

/-- Take the first list in which an entry matches the left side and another one the right side
only, and the first list in which an entry matches the right side and another one the left side
only. There are none, or the same side comes first in both, where an entry that matches both sides
counts for the left one in the first list and for the right one in the second. -/
def SameSideFirst : Prop :=
  let p := precedenceEntryMatches grammar left leftSymbols
  let q := precedenceEntryMatches grammar right rightSymbols
  (grammar.precedenceOrderings.find? (tellsApart p q)).map (leftFirst p q) =
    (grammar.precedenceOrderings.find? (tellsApart q p)).map fun list => !leftFirst q p list

/-- Two verdicts are each other's reverse if they put the same side first. -/
theorem getD_eq_swap_iff (first second : Option Bool) :
    (second.map verdict).getD .eq = ((first.map verdict).getD .eq).swap ↔
      first = second.map not := by
  rcases first with _ | _ | _ <;> rcases second with _ | _ | _ <;> decide

theorem antisymmetric_iff : Antisymmetric grammar left leftSymbols right rightSymbols ↔
    (compareIntegers left right).isSome ∨
      SameSideFirst grammar left leftSymbols right rightSymbols := by
  rw [Antisymmetric, comparePrecedence, comparePrecedence, compareIntegers_swap, SameSideFirst]
  cases compareIntegers left right with
  | some ordering => simp
  | none =>
    simp only [Option.map_none, findSome?_scanEntries, Option.isSome_none, Bool.false_eq_true,
      false_or]
    rw [getD_eq_swap_iff, Option.map_map]
    rfl

/-- In particular if no list has an entry that matches both sides beside one that matches a single
side. -/
theorem antisymmetric_of_unmixed (h : ∀ list ∈ grammar.precedenceOrderings,
    Unmixed (precedenceEntryMatches grammar left leftSymbols)
      (precedenceEntryMatches grammar right rightSymbols) list) :
    Antisymmetric grammar left leftSymbols right rightSymbols := by
  refine (antisymmetric_iff ..).mpr (.inr ?_)
  dsimp only [SameSideFirst]
  rw [find?_congr fun list hlist => (h list hlist).swap.1]
  cases hfind : grammar.precedenceOrderings.find? (tellsApart
    (precedenceEntryMatches grammar left leftSymbols)
    (precedenceEntryMatches grammar right rightSymbols)) with
  | none => rfl
  | some list =>
    have hapart := find?_some hfind
    have hlist := mem_of_find?_eq_some hfind
    rw [Option.map_some, Option.map_some, (h list hlist).swap.2 hapart, Bool.not_not]

end Swap

/-! ### For all sides -/

section All

variable (grammar : PrecedenceGrammar)

/-- Some side matches the entry: it is a name, or it is a variable of the grammar. -/
def Matchable : PrecedenceEntry → Prop
  | .name _ => True
  | .symbol n => n ∈ grammar.vars

/-- An entry for a variable is the only entry of its list that can match. -/
def VariablesAlone : Prop :=
  ∀ list ∈ grammar.precedenceOrderings, ∀ n ∈ grammar.vars, .symbol n ∈ list →
    ∀ entry ∈ list, Matchable grammar entry → entry = .symbol n

variable {grammar}
variable {precedence : Precedence} {entry : PrecedenceEntry} {left right : Precedence}
  {leftSymbols rightSymbols : List Symbol} {n : String}

theorem matchable_of_matches {symbols : List Symbol}
    (h : precedenceEntryMatches grammar precedence symbols entry) :
    Matchable grammar entry := by
  cases entry with
  | name => trivial
  | symbol n =>
    obtain ⟨s, -, hs⟩ := any_eq_true.mp h
    exact mem_of_getElem? (beq_iff_eq.mp hs)

theorem VariablesAlone.unmixed (h : VariablesAlone grammar) {list : List PrecedenceEntry}
    (hlist : list ∈ grammar.precedenceOrderings) :
    Unmixed (precedenceEntryMatches grammar left leftSymbols)
      (precedenceEntryMatches grammar right rightSymbols) list := by
  intro entry hentry hp hq other hother
  -- what cannot match is not matched
  by_cases hmatchable : Matchable grammar other
  · cases entry with
    | symbol n =>
      have heq := h list hlist n (matchable_of_matches hp) hentry other hother hmatchable
      rw [heq, hp, hq]
    | name n =>
      cases other with
      | symbol n' => cases h list hlist n' hmatchable hother (.name n) hentry trivial
      | name n' =>
        cases left <;> cases right <;> simp_all [precedenceEntryMatches]
  · have hnone (precedence : Precedence) (symbols : List Symbol) :
        precedenceEntryMatches grammar precedence symbols other = false :=
      Bool.eq_false_iff.mpr fun h => hmatchable (matchable_of_matches h)
    rw [hnone, hnone]

/-- If all that the left side matches is matched by the right one as well, then a list that tells
them apart does so only one way around. -/
theorem not_antisymmetric (hintegers : compareIntegers left right = none)
    (hsub : ∀ entry, precedenceEntryMatches grammar left leftSymbols entry →
      precedenceEntryMatches grammar right rightSymbols entry)
    (hlist : ∃ list ∈ grammar.precedenceOrderings,
      tellsApart (precedenceEntryMatches grammar left leftSymbols)
        (precedenceEntryMatches grammar right rightSymbols) list) :
    ¬ Antisymmetric grammar left leftSymbols right rightSymbols := by
  rw [antisymmetric_iff, hintegers]
  rintro (hnone | hsame)
  · cases hnone
  · have hback : grammar.precedenceOrderings.find? (tellsApart
        (precedenceEntryMatches grammar right rightSymbols)
        (precedenceEntryMatches grammar left leftSymbols)) = none := by
      rw [find?_eq_none]
      intro list _ hapart
      obtain ⟨-, entry, -, hp, hq⟩ := tellsApart_iff.mp hapart
      exact hq (hsub entry hp)
    dsimp only [SameSideFirst] at hsame
    rw [hback, Option.map_none, Option.map_eq_none_iff, find?_eq_none] at hsame
    obtain ⟨list, hmem, hapart⟩ := hlist
    exact hsame list hmem hapart

theorem matches_symbol_iff {symbols : List Symbol} :
    precedenceEntryMatches grammar precedence symbols (.symbol n) ↔
      ∃ s ∈ symbols, grammar.vars[s.index]? = some n := by
  simp [precedenceEntryMatches]

theorem matches_single {i : Nat} (hi : grammar.vars[i]? = some n) (entry : PrecedenceEntry) :
    precedenceEntryMatches grammar .none [.nonTerminal i] entry ↔ entry = .symbol n := by
  cases entry with
  | name => simp [precedenceEntryMatches]
  | symbol n' =>
    simp only [matches_symbol_iff, mem_singleton, exists_eq_left, Symbol.nonTerminal, hi,
      Option.some.injEq, PrecedenceEntry.symbol.injEq]
    exact eq_comm

theorem exists_matches {i : Nat} (hi : grammar.vars[i]? = some n)
    (hentry : Matchable grammar entry) :
    ∃ right rightSymbols, compareIntegers .none right = none ∧
      ∀ other, precedenceEntryMatches grammar right rightSymbols other ↔
        other = .symbol n ∨ other = entry := by
  cases entry with
  | name m =>
    refine ⟨.name m, [.nonTerminal i], rfl, fun other => ?_⟩
    cases other with
    | name => simp [precedenceEntryMatches]
    | symbol n' =>
      simp only [matches_symbol_iff, mem_singleton, exists_eq_left, Symbol.nonTerminal, hi,
        Option.some.injEq, PrecedenceEntry.symbol.injEq, reduceCtorEq, or_false]
      exact eq_comm
  | symbol m =>
    obtain ⟨j, hj⟩ := mem_iff_getElem?.mp hentry
    refine ⟨.none, [.nonTerminal i, .nonTerminal j], rfl, fun other => ?_⟩
    cases other with
    | name => simp [precedenceEntryMatches]
    | symbol n' =>
      simp only [matches_symbol_iff, mem_cons, not_mem_nil, or_false, exists_eq_or_imp,
        exists_eq_left, Symbol.nonTerminal, hi, hj, Option.some.injEq, PrecedenceEntry.symbol.injEq]
      exact or_congr eq_comm eq_comm

theorem antisymmetric_all_iff :
    (∀ left leftSymbols right rightSymbols,
      Antisymmetric grammar left leftSymbols right rightSymbols) ↔ VariablesAlone grammar := by
  constructor
  · intro hall list hlist n hn hsymbol entry hentry hmatchable
    by_contra hne
    obtain ⟨i, hi⟩ := mem_iff_getElem?.mp hn
    obtain ⟨right, rightSymbols, hintegers, hright⟩ := exists_matches hi hmatchable
    have hleft := matches_single hi
    refine not_antisymmetric hintegers (fun other hother => ?_) ⟨list, hlist, ?_⟩
      (hall .none [.nonTerminal i] right rightSymbols)
    · exact (hright other).mpr (.inl ((hleft other).mp hother))
    · rw [tellsApart_iff]
      exact ⟨⟨_, hsymbol, (hleft _).mpr rfl⟩, entry, hentry, (hright entry).mpr (.inr rfl),
        fun h => hne ((hleft entry).mp h)⟩
  · intro h left leftSymbols right rightSymbols
    exact antisymmetric_of_unmixed _ _ _ _ _ fun list hlist => h.unmixed hlist

end All

/-- **Exchanging the sides reverses the result** just if integers decide, or the same side comes
first both ways around. It does for all sides just if an entry for a variable is the only one of
its list that can match. -/
theorem comparePrecedence_swap_iff (grammar : PrecedenceGrammar) :
    (∀ left leftSymbols right rightSymbols,
      Antisymmetric grammar left leftSymbols right rightSymbols ↔
        (compareIntegers left right).isSome ∨
          SameSideFirst grammar left leftSymbols right rightSymbols) ∧
    ((∀ left leftSymbols right rightSymbols,
      Antisymmetric grammar left leftSymbols right rightSymbols) ↔ VariablesAlone grammar) :=
  ⟨antisymmetric_iff grammar, antisymmetric_all_iff⟩

def twoVariables : PrecedenceGrammar where
  vars := ["A", "B"]
  precedenceOrderings := [[.symbol "A", .symbol "B"]]

/-- `A` against `A` and `B`: the first has more precedence from one side, none from the other. -/
theorem comparePrecedence_not_antisymmetric :
    validatePrecedences twoVariables.precedenceOrderings
        (twoVariables.vars.map fun name => ⟨name, .named, .string name⟩) = .ok () ∧
      comparePrecedence twoVariables .none [.nonTerminal 0] .none [.nonTerminal 0, .nonTerminal 1] =
        .gt ∧
      ¬ Antisymmetric twoVariables .none [.nonTerminal 0] .none
        [.nonTerminal 0, .nonTerminal 1] := by
  refine ⟨by decide +kernel, by decide, ?_⟩
  rw [Antisymmetric]
  decide

end TreeSitter.Generate
