import TreeSitter.Generate.PrepareGrammar.FlattenGrammarSound
import TreeSitter.Library.CycleSearch
import TreeSitter.Library.IndexMap

/-!
# TreeSitter.Generate.PrepareGrammar.ValidateIndirectRecursion

`validate_indirect_recursion` of `prepare_grammar.rs`: a **cycle of single-symbol productions** is
an error. The symbols are read off the rules, by a walk through choices and metadata only; then a
depth-first search from every variable looks for a cycle.

The search is right, and what the walk finds are productions. But a production of one symbol may
also come from a sequence of which nothing else is left, from a repetition or from a reserved-word
context; a cycle of these is missed (`validateIndirectRecursion_exact_iff`).
-/

namespace TreeSitter.Generate

open List Library CycleSearch

/-! ### The pass -/

mutual

/-- The names that a walk through choices and metadata finds. -/
def unwrappedNames : Rule → List String
  | .namedSymbol name => [name]
  | .choice es => unwrappedNamesAll es
  | .metadata _ r => unwrappedNames r
  | _ => []

def unwrappedNamesAll : List Rule → List String
  | [] => []
  | r :: rs => unwrappedNames r ++ unwrappedNamesAll rs

end

/-- `get_single_symbol_productions`: a set in the order of the interned names. Rules that directly
reference themselves don't cause a parsing loop. -/
def singleSymbolProductions (strId : String → Nat) (v : Variable) : List String :=
  ((unwrappedNames v.root).filter (· ≠ v.name)).dedup.mergeSort (strId · ≤ strId ·)

/-- `epsilon_transitions`. -/
def epsilonTransitions (strId : String → Nat) (g : InputGrammar) : List (String × List String) :=
  g.vars.foldl (fun transitions v =>
    insertEntry v.name (singleSymbolProductions strId v) transitions) []

/-- The symbols that a search goes on with. -/
def nextSymbols (transitions : List (String × List String)) (current : String) : List String :=
  (lookupEntry current transitions).getD []

/-- `get_cycle`; `none` if it calls itself more often than the bound says. -/
def getCycle (transitions : List (String × List String)) (bound : Nat) (current : String)
    (visited path : List String) : Option (Result String) :=
  search (nextSymbols transitions) bound current visited path

/-- `IndirectRecursionError`. -/
structure IndirectRecursionError where
  cycle : List String
deriving DecidableEq

/-- The loop over the start symbols. -/
def validateFrom (transitions : List (String × List String)) (bound : Nat) :
    List String → Option (Except IndirectRecursionError Unit)
  | [] => some (.ok ())
  | start :: starts =>
    (getCycle transitions bound start [] []).bind fun
      | .found path first => some (.error ⟨path.drop first⟩)
      | .missed _ => validateFrom transitions bound starts

def transitionNames (transitions : List (String × List String)) : List String :=
  transitions.map Prod.fst ++ transitions.flatMap Prod.snd

/-- `validate_indirect_recursion`. A path is no longer than there are names. -/
def validateIndirectRecursion (strId : String → Nat) (g : InputGrammar) :
    Option (Except IndirectRecursionError Unit) :=
  let transitions := epsilonTransitions strId g
  validateFrom transitions ((transitionNames transitions).length + 1) (transitions.map Prod.fst)

/-! ### The search -/

section Search

variable {transitions : List (String × List String)}

theorem mem_of_mem_nextSymbols {a b : String} (h : b ∈ nextSymbols transitions a) :
    a ∈ transitions.map Prod.fst ∧ b ∈ transitionNames transitions := by
  rw [nextSymbols] at h
  cases hlookup : lookupEntry a transitions with
  | none =>
    rw [hlookup] at h
    cases h
  | some names =>
    rw [hlookup] at h
    have hmem := lookupEntry_eq_some hlookup
    exact ⟨mem_map_of_mem hmem, mem_append_right _ (mem_flatMap.mpr ⟨_, hmem, h⟩)⟩

/-- **The loop ends, with a cycle if there is one.** -/
theorem validateFrom_spec : ∀ {starts : List String},
    (∀ start ∈ starts, start ∈ transitionNames transitions) →
    (∃ a as, validateFrom transitions ((transitionNames transitions).length + 1) starts =
        some (.error ⟨a :: as ++ [a]⟩) ∧ IsCycle (Edge (nextSymbols transitions)) a as) ∨
    (validateFrom transitions ((transitionNames transitions).length + 1) starts = some (.ok ()) ∧
      ∀ start ∈ starts, ¬ Relation.TransGen (Edge (nextSymbols transitions)) start start) := by
  intro starts
  induction starts with
  | nil => exact fun _ => Or.inr ⟨rfl, by simp⟩
  | cons start starts ih =>
    intro hstarts
    obtain ⟨hstart, hstarts⟩ := forall_mem_cons.mp hstarts
    obtain ⟨result, hresult⟩ := search_isSome
      (fun _ _ _ hy => (mem_of_mem_nextSymbols hy).2) nodup_nil (nil_subset _) hstart
      (Nat.lt_succ_self _)
    rw [validateFrom, getCycle, hresult, Option.bind_some]
    cases result with
    | found path first =>
      obtain ⟨a, as, hdrop, hcycle⟩ :=
        search_found nodup_nil (isChain_singleton _) hresult
      exact Or.inl ⟨a, as, hdrop ▸ rfl, hcycle⟩
    | missed visited =>
      obtain ⟨hsettled, -, hleft⟩ := search_missed (settled_nil _) hresult
      refine (ih hstarts).imp id ?_
      rintro ⟨hok, hrest⟩
      exact ⟨hok, forall_mem_cons.mpr ⟨hsettled.acyclic start hleft, hrest⟩⟩

end Search

/-! ### What the walk finds -/

/-- The last variable of a name, with its index: the one that the name stands for. -/
def findVariable (g : InputGrammar) (name : String) : Option (Variable × Nat) :=
  g.vars.zipIdx.reverse.find? fun entry => entry.1.name = name

/-- **The variable of one name refers to the other name** through choices and metadata only. -/
def NamesDirectly (g : InputGrammar) (a b : String) : Prop :=
  ∃ v i, findVariable g a = some (v, i) ∧ a ≠ b ∧ b ∈ unwrappedNames v.root

theorem lookupEntry_foldl (strId : String → Nat) (name : String) (vs : List Variable) :
    ∀ (transitions : List (String × List String)),
      lookupEntry name (vs.foldl (fun transitions v =>
        insertEntry v.name (singleSymbolProductions strId v) transitions) transitions) =
      ((vs.reverse.find? fun v => v.name = name).map (singleSymbolProductions strId)).or
        (lookupEntry name transitions) := by
  induction vs with
  | nil => exact fun _ => rfl
  | cons v vs ih =>
    intro transitions
    rw [foldl_cons, ih, lookupEntry_insertEntry, reverse_cons, find?_append]
    cases vs.reverse.find? fun v => v.name = name with
    | some u => rfl
    | none =>
      by_cases hname : v.name = name
      · simp [hname]
      · simp [hname]

theorem find?_zipIdx (vs : List Variable) (name : String) :
    (vs.zipIdx.reverse.find? fun entry => entry.1.name = name).map Prod.fst =
      vs.reverse.find? fun v => v.name = name := by
  have hmap : vs.reverse = vs.zipIdx.reverse.map Prod.fst := by
    rw [map_reverse, zipIdx_map_fst]
  rw [hmap, find?_map]
  rfl

/-- **The search goes along the references.** -/
theorem edge_iff_namesDirectly (strId : String → Nat) (g : InputGrammar) (a b : String) :
    Edge (nextSymbols (epsilonTransitions strId g)) a b ↔ NamesDirectly g a b := by
  have hlookup : lookupEntry a (epsilonTransitions strId g) =
      (findVariable g a).map fun entry => singleSymbolProductions strId entry.1 := by
    rw [epsilonTransitions, lookupEntry_foldl, ← find?_zipIdx, Option.map_map]
    exact Option.or_none
  rw [Edge, nextSymbols, hlookup, NamesDirectly]
  cases hfind : findVariable g a with
  | none => simp
  | some entry =>
    obtain ⟨v, i⟩ := entry
    have hname : v.name = a := by simpa using find?_some hfind
    rw [Option.map_some, Option.getD_some, singleSymbolProductions, mem_mergeSort,
      mem_dedup, mem_filter, hname, decide_eq_true_iff]
    constructor
    · rintro ⟨hb, hne⟩
      exact ⟨v, i, rfl, hne.symm, hb⟩
    · rintro ⟨v, i, ⟨⟩, hne, hb⟩
      exact ⟨hb, hne.symm⟩

/-- **The pass reports a cycle of references if there is one.** -/
theorem validateIndirectRecursion_spec (strId : String → Nat) (g : InputGrammar) :
    (∃ a as, validateIndirectRecursion strId g = some (.error ⟨a :: as ++ [a]⟩) ∧
        IsCycle (NamesDirectly g) a as) ∨
    (validateIndirectRecursion strId g = some (.ok ()) ∧
      ¬ ∃ a as, IsCycle (NamesDirectly g) a as) := by
  have hedge := edge_iff_namesDirectly strId g
  have hstarts : ∀ start ∈ (epsilonTransitions strId g).map Prod.fst,
      start ∈ transitionNames (epsilonTransitions strId g) :=
    fun _ h => mem_append_left _ h
  refine (validateFrom_spec hstarts).imp ?_ ?_
  · rintro ⟨a, as, herror, hcycle⟩
    exact ⟨a, as, herror, hcycle.imp fun x y => (hedge x y).mp⟩
  · rintro ⟨hok, hacyclic⟩
    refine ⟨hok, ?_⟩
    rintro ⟨a, as, hcycle⟩
    have hreach := (hcycle.imp fun x y => (hedge x y).mpr).transGen
    obtain ⟨b, hb, -⟩ := Relation.TransGen.head'_iff.mp hreach
    exact hacyclic a (mem_of_mem_nextSymbols hb).1 hreach

/-! ### Flattened productions -/

section Syntactic

variable (g : InputGrammar) (externalOf : String → Nat) (tokenOf : Rule → Nat)

/-- The symbol of a name: a variable, or else an external token. -/
def symbolOf (name : String) : Symbol :=
  match findVariable g name with
  | some entry => .nonTerminal entry.2
  | none => .external (externalOf name)

mutual

/-- **A rule as `flatten_grammar` gets it**, but for repetitions: `intern_symbols` replaces names
and `extract_tokens` tokens, under some numbers. -/
def Rule.syntactic : Rule → Rule
  | .namedSymbol name => .sym (symbolOf g externalOf name)
  | .string s => .sym (.terminal (tokenOf (.string s)))
  | .pattern p flags => .sym (.terminal (tokenOf (.pattern p flags)))
  | .metadata params r =>
    if params.isToken then .sym (.terminal (tokenOf (.metadata params r)))
    else .metadata params r.syntactic
  | .seq es => .seq (syntacticAll es)
  | .choice es => .choice (syntacticAll es)
  | .repeat r => .repeat r.syntactic
  | .reserved r name => .reserved r.syntactic name
  | r => r

def syntacticAll : List Rule → List Rule
  | [] => []
  | r :: rs => r.syntactic :: syntacticAll rs

end

/-- The grammar with its rules like that. A variable that is a token stays a variable. -/
def InputGrammar.syntactic : InputGrammar :=
  { g with vars := g.vars.map fun v => { v with root := v.root.syntactic g externalOf tokenOf } }

end Syntactic

mutual

/-- No name is found in a token. -/
def Rule.PlainTokens : Rule → Prop
  | .metadata params r => (params.isToken = true → unwrappedNames r = []) ∧ r.PlainTokens
  | .seq es | .choice es => PlainTokensAll es
  | .repeat r | .reserved r _ => r.PlainTokens
  | _ => True

def PlainTokensAll : List Rule → Prop
  | [] => True
  | r :: rs => r.PlainTokens ∧ PlainTokensAll rs

end

/-- A flattened production of the rule consists of exactly that symbol; the end of the input
behind it is not a step of the production. -/
def Rule.Single (r : Rule) (s : Symbol) : Prop := [s] ∈ paths r ∨ [s, .eof] ∈ paths r

/-- A variable has a flattened production that consists of exactly the other one. -/
def SingleProduction (g : InputGrammar) (i j : Nat) : Prop :=
  ∃ r, g.roots[i]? = some r ∧ r.Single (.nonTerminal j)

/-- There is a cycle of at least two variables with such productions. -/
def IndirectlyRecursive (g : InputGrammar) : Prop :=
  ∃ i is, IsCycle (SingleProduction g) i is ∧ is ≠ []

/-- The names are those of such a cycle, and the first one again. -/
def NamesCycle (g : InputGrammar) (names : List String) : Prop :=
  ∃ i is, IsCycle (SingleProduction g) i is ∧ is ≠ [] ∧
    names.map some = (i :: is ++ [i]).map fun k => g.vars[k]?.map Variable.name

section Flattened

variable {g : InputGrammar} {externalOf : String → Nat} {tokenOf : Rule → Nat} {n : Nat}
  {contents : List Rule} {name : String}

mutual

/-- **What the walk finds is a production.** -/
theorem single_of_unwrapped : ∀ {r r' : Rule}, r.PlainTokens → name ∈ unwrappedNames r →
    ExpandedRule n contents (r.syntactic g externalOf tokenOf) r' →
    [symbolOf g externalOf name] ∈ paths r'
  | .namedSymbol _, _, _, hname, rfl => by
    obtain rfl := mem_singleton.mp hname
    exact mem_singleton_self _
  | .choice es, _, hplain, hname, ⟨es', hes, rfl⟩ =>
    single_of_unwrappedAll hplain hname hes
  | .metadata params r, r', ⟨htoken, hplain⟩, hname, hr' => by
    rw [Rule.syntactic] at hr'
    split at hr'
    · rename_i hisToken
      rw [unwrappedNames, htoken hisToken] at hname
      cases hname
    · obtain ⟨r₁, hr₁, rfl⟩ := hr'
      have hmem := single_of_unwrapped (r := r) hplain hname hr₁
      exact hmem
  | .blank, _, _, hname, _ | .string _, _, _, hname, _ | .pattern _ _, _, _, hname, _
  | .sym _, _, _, hname, _ | .eof, _, _, hname, _ | .seq _, _, _, hname, _
  | .repeat _, _, _, hname, _ | .reserved _ _, _, _, hname, _ => nomatch hname

theorem single_of_unwrappedAll : ∀ {rs rs' : List Rule}, PlainTokensAll rs →
    name ∈ unwrappedNamesAll rs →
    ExpandedAll n contents (syntacticAll g externalOf tokenOf rs) rs' →
    [symbolOf g externalOf name] ∈ choicePaths rs'
  | [], _, _, hname, _ => nomatch hname
  | r :: rs, _, ⟨hplain, hplain'⟩, hname, ⟨_, _, hr, hrs, rfl⟩ => by
    rcases mem_append.mp hname with hname | hname
    · exact mem_append_left _ (single_of_unwrapped hplain hname hr)
    · exact mem_append_right _ (single_of_unwrappedAll hplain' hname hrs)

end

theorem findVariable_eq_some {v : Variable} {i : Nat} (h : findVariable g name = some (v, i)) :
    g.vars[i]? = some v ∧ v.name = name := by
  have hmem := mem_of_find?_eq_some h
  rw [mem_reverse, mem_zipIdx_iff_getElem?] at hmem
  exact ⟨hmem, by simpa using find?_some h⟩

theorem unwrappedNames_of_syntactic {r c : Rule}
    (h : r.syntactic g externalOf tokenOf = .repeat c) : unwrappedNames r = [] := by
  cases r with
  | metadata params r =>
    rw [Rule.syntactic] at h
    split at h <;> cases h
  | «repeat» r => rfl
  | _ => cases h

section Cycle

variable {g' : InputGrammar}

theorem expandedVar_of_findVariable
    (hshape : Shape (g.syntactic externalOf tokenOf) g' contents) {v : Variable} {i : Nat}
    (hv : findVariable g name = some (v, i)) : ∃ v', g'.vars[i]? = some v' ∧ v'.name = name ∧
      ExpandedVar (g.syntactic externalOf tokenOf).vars.length contents i
        { v with root := v.root.syntactic g externalOf tokenOf } v' := by
  obtain ⟨hget, rfl⟩ := findVariable_eq_some hv
  have hvs : (g.syntactic externalOf tokenOf).vars[i]? =
      some { v with root := v.root.syntactic g externalOf tokenOf } := by
    rw [InputGrammar.syntactic, getElem?_map, hget]
    rfl
  have hi := (List.getElem?_eq_some_iff.mp hvs).1
  obtain ⟨v', hv'⟩ : ∃ v', g'.vars[i]? = some v' :=
    ⟨_, getElem?_eq_getElem (by rw [hshape.length]; omega)⟩
  have hvar := hshape.original i _ v' hvs hv'
  exact ⟨v', hv', hvar.name, hvar⟩

/-- **A reference is a flattened production.** -/
theorem singleProduction_of_namesDirectly (hplain : ∀ v ∈ g.vars, v.root.PlainTokens)
    (hshape : Shape (g.syntactic externalOf tokenOf) g' contents) {a b : String}
    (hab : NamesDirectly g a b) {v u : Variable} {i j : Nat} (ha : findVariable g a = some (v, i))
    (hb : findVariable g b = some (u, j)) : SingleProduction g' i j := by
  obtain ⟨v₁, i₁, hv₁, -, hname⟩ := hab
  cases ha.symm.trans hv₁
  obtain ⟨v', hv', -, hvar⟩ := expandedVar_of_findVariable hshape ha
  have hnone : hiddenRepeat { v with root := v.root.syntactic g externalOf tokenOf } = none := by
    cases hhidden : hiddenRepeat { v with root := v.root.syntactic g externalOf tokenOf } with
    | none => rfl
    | some c =>
      rw [unwrappedNames_of_syntactic (hiddenRepeat_eq_some hhidden)] at hname
      cases hname
  have hv := mem_of_getElem? (findVariable_eq_some ha).1
  have hsingle := single_of_unwrapped (hplain v hv) hname (hvar.other hnone).2
  rw [symbolOf, hb] at hsingle
  exact ⟨v'.root, getElem?_roots.mpr ⟨v', hv', rfl⟩, Or.inl hsingle⟩

/-- **A cycle of references is one of productions.** -/
theorem namesCycle_of_namesDirectly (hplain : ∀ v ∈ g.vars, v.root.PlainTokens)
    (h : expandRepeats (g.syntactic externalOf tokenOf) = .ok g') {a : String} {as : List String}
    (hcycle : IsCycle (NamesDirectly g) a as) : NamesCycle g' (a :: as ++ [a]) := by
  have hfind : ∀ x ∈ a :: as, ∃ v i, findVariable g x = some (v, i) := by
    intro x hx
    obtain ⟨y, v, i, hv, -⟩ := exists_edge_of_isChain hcycle.edges x hx
    exact ⟨v, i, hv⟩
  obtain ⟨contents, hshape⟩ := expandRepeats_shape h
  let indexOf : String → Nat := fun x => ((findVariable g x).map Prod.snd).getD 0
  have hindexOf : ∀ {x v i}, findVariable g x = some (v, i) → indexOf x = i := by
    intro x v i hx
    simp only [indexOf, hx, Option.map_some, Option.getD_some]
  have hedge : ∀ x ∈ a :: as, ∀ y ∈ a :: as, NamesDirectly g x y →
      SingleProduction g' (indexOf x) (indexOf y) := by
    intro x hx y hy hxy
    obtain ⟨v, i, hv⟩ := hfind x hx
    obtain ⟨u, j, hu⟩ := hfind y hy
    rw [hindexOf hv, hindexOf hu]
    exact singleProduction_of_namesDirectly hplain hshape hxy hv hu
  have hname : ∀ x ∈ a :: as, g'.vars[indexOf x]?.map Variable.name = some x := by
    intro x hx
    obtain ⟨v, i, hv⟩ := hfind x hx
    obtain ⟨v', hv', hname, -⟩ := expandedVar_of_findVariable hshape hv
    rw [hindexOf hv, hv', Option.map_some, hname]
  have hinj : ∀ x ∈ a :: as, ∀ y ∈ a :: as, indexOf x = indexOf y → x = y := by
    intro x hx y hy hxy
    have hy' := hname y hy
    rw [← hxy, hname x hx] at hy'
    exact Option.some_inj.mp hy'
  refine ⟨indexOf a, as.map indexOf, hcycle.map indexOf hinj hedge, ?_, ?_⟩
  · intro hnil
    obtain rfl := map_eq_nil_iff.mp hnil
    obtain ⟨-, -, -, hne, -⟩ := isChain_pair.mp hcycle.edges
    exact hne rfl
  · have hmap : indexOf a :: as.map indexOf ++ [indexOf a] = (a :: as ++ [a]).map indexOf := by
      simp
    rw [hmap, map_map]
    refine map_congr_left fun x hx => (hname x ?_).symm
    rcases mem_append.mp hx with hx | hx
    · exact hx
    · rw [mem_singleton.mp hx]
      exact mem_cons_self

end Cycle

end Flattened

/-- **The pass reports indirect recursion exactly if there is a cycle through choices and metadata
whenever there is one of flattened productions.** What it reports is such a cycle. -/
theorem validateIndirectRecursion_exact_iff (strId : String → Nat) {g g' : InputGrammar}
    (externalOf : String → Nat) (tokenOf : Rule → Nat)
    (hplain : ∀ v ∈ g.vars, v.root.PlainTokens)
    (h : expandRepeats (g.syntactic externalOf tokenOf) = .ok g') :
    (((∃ names, validateIndirectRecursion strId g = some (.error ⟨names⟩)) ↔
        IndirectlyRecursive g') ∧
      ∀ names, validateIndirectRecursion strId g = some (.error ⟨names⟩) → NamesCycle g' names) ↔
    (IndirectlyRecursive g' → ∃ a as, IsCycle (NamesDirectly g) a as) := by
  rcases validateIndirectRecursion_spec strId g with ⟨a, as, herror, hcycle⟩ | ⟨hok, hacyclic⟩
  · refine iff_of_true ⟨iff_of_true ⟨_, herror⟩ ?_, ?_⟩ fun _ => ⟨a, as, hcycle⟩
    · obtain ⟨i, is, hcycle', hne, -⟩ := namesCycle_of_namesDirectly hplain h hcycle
      exact ⟨i, is, hcycle', hne⟩
    · intro names hnames
      rw [herror] at hnames
      cases hnames
      exact namesCycle_of_namesDirectly hplain h hcycle
  · have hno : ∀ names, validateIndirectRecursion strId g ≠ some (.error ⟨names⟩) := by
      intro names hnames
      rw [hok] at hnames
      cases hnames
    constructor
    · rintro ⟨hiff, -⟩ hrecursive
      obtain ⟨names, hnames⟩ := hiff.mpr hrecursive
      exact absurd hnames (hno names)
    · intro hcovered
      refine ⟨⟨?_, fun hrecursive => absurd (hcovered hrecursive) hacyclic⟩,
        fun names hnames => absurd hnames (hno names)⟩
      rintro ⟨names, hnames⟩
      exact absurd hnames (hno names)

/-- Two variables that derive each other, where what follows the name in the first one may be
left out. -/
def optionalTail : InputGrammar where
  vars := [⟨"a", .named, .seq [.namedSymbol "b", .choice [.string "x", .blank]]⟩,
    ⟨"b", .named, .namedSymbol "a"⟩]
  inline := []

/-- The same in a repetition, and in a context of reserved words. -/
def wrapped : InputGrammar where
  vars := [⟨"a", .named, .repeat (.namedSymbol "b")⟩,
    ⟨"b", .named, .reserved (.namedSymbol "a") "words"⟩]
  inline := []

/-- Two variables that name each other. -/
def namesEachOther : InputGrammar where
  vars := [⟨"a", .named, .choice [.namedSymbol "b", .string "x"]⟩, ⟨"b", .named, .namedSymbol "a"⟩]
  inline := []

theorem isCycle_pair {α : Type*} {E : α → α → Prop} {a b : α} (hne : a ≠ b) (hab : E a b)
    (hba : E b a) : IsCycle E a [b] :=
  ⟨by simpa using hne, by simp [hab, hba]⟩

theorem validateIndirectRecursion_namesEachOther :
    ∃ g', expandRepeats (namesEachOther.syntactic (fun _ => 0) (fun _ => 0)) = .ok g' ∧
      ((∃ names, validateIndirectRecursion String.length namesEachOther =
        some (.error ⟨names⟩)) ↔ IndirectlyRecursive g') := by
  refine ⟨_, rfl, ((validateIndirectRecursion_exact_iff String.length _ _ ?_ rfl).mpr ?_).1⟩
  · simp [namesEachOther, Rule.PlainTokens, PlainTokensAll]
  · refine fun _ => ⟨"a", ["b"], isCycle_pair (by decide) ?_ ?_⟩
    · exact ⟨_, _, rfl, by decide, by decide⟩
    · exact ⟨_, _, rfl, by decide, by decide⟩

/-- **Cycles through an optional tail, and through a repetition and a context of reserved words,
are missed.** -/
theorem not_exact_optionalTail :
    (validateIndirectRecursion String.length optionalTail = some (.ok ()) ∧
      ∃ g', expandRepeats (optionalTail.syntactic (fun _ => 0) (fun _ => 0)) = .ok g' ∧
        IndirectlyRecursive g') ∧
    validateIndirectRecursion String.length wrapped = some (.ok ()) ∧
      ∃ g', expandRepeats (wrapped.syntactic (fun _ => 0) (fun _ => 0)) = .ok g' ∧
        IndirectlyRecursive g' := by
  refine ⟨⟨by decide +kernel, _, rfl, 0, [1], isCycle_pair (by decide) ?_ ?_, by simp⟩,
    by decide +kernel, _, rfl, 0, [2, 1], ⟨by decide, ?_⟩, by simp⟩
  · exact ⟨_, rfl, Or.inl (by decide)⟩
  · exact ⟨_, rfl, Or.inl (by decide)⟩
  · simp only [cons_append, nil_append, isChain_cons_cons]
    refine ⟨⟨_, rfl, Or.inl (by decide)⟩, ⟨_, rfl, Or.inl (by decide)⟩,
      ⟨_, rfl, Or.inl (by decide)⟩, isChain_singleton _⟩

end TreeSitter.Generate
