import TreeSitter.Generate.PrepareGrammar.FlattenGrammarSound
import TreeSitter.Generate.PrepareGrammar.ProcessInlinesSound

/-!
# TreeSitter.Generate.PrepareGrammar.PreparedLanguages

**What `prepare_grammar` keeps of a grammar**: reading the productions with the map of
`process_inlines`, a variable derives the strings of its rule as it was before `expand_repeats`.

Flattened productions have two readings: the least solution of their equations, which
`flatten_grammar` is compared by, and derivations, which `process_inlines` is compared by. They
are the same as long as no production ends in `eof()`.
-/

namespace TreeSitter.Generate

open List Library

/-! ### Two readings of productions -/

section Readings

variable {store : ProductionStore}

theorem productionsOf_eq {s : Symbol} {ps : List Production} (h : store[s.index]? = some ps) :
    productionsOf store s = ps := by
  rw [productionsOf, h]
  rfl

variable {env : Nat → Language Symbol}

theorem lang_of_plain {p : Production}
    (h : p.requiresEofLookahead = false) : p.lang env = pathLang env (p.rest 0) := by
  simp [Production.lang, h, Production.rest_zero]

variable (hplain : ∀ p ∈ store.flatten, p.requiresEofLookahead = false)

include hplain

theorem Derives.mem_pathLang {ss w : List Symbol} {e : Bool} (h : Derives store ss w e) :
    e = false ∧ w ∈ pathLang (productionLanguages store) ss := by
  induction h with
  | nil => exact ⟨rfl, rfl⟩
  | @token s ss b f hkind _ ih =>
    refine ⟨ih.1, mem_pathLang_cons.mpr ⟨[s], ?_, b, ih.2, rfl⟩⟩
    rw [symbolLang, if_neg hkind]
    rfl
  | @rule s ss a b e f p hkind hp _ _ _ ihfirst ihrest =>
    have hp' := hplain p (mem_flatten_of_productionsOf hp)
    refine ⟨by rw [ihfirst.1, hp', ihrest.1]; rfl,
      mem_pathLang_cons.mpr ⟨a, ?_, b, ihrest.2, rfl⟩⟩
    rw [symbolLang, if_pos hkind, productionLanguages, ← least_eq (productionEquations_mono store),
      productionEquations]
    cases hps : store[s.index]? with
    | none => simp [productionsOf, hps] at hp
    | some ps =>
      rw [productionsOf_eq hps] at hp
      refine Language.mem_iSup.mpr ⟨p, Language.mem_iSup.mpr ⟨hp, ?_⟩⟩
      rw [lang_of_plain hp']
      exact ihfirst.2

omit hplain in
theorem derives_of_mem_pathLang (henv : ∀ i, ∀ a ∈ env i,
    ∃ p ∈ productionsOf store (.nonTerminal i), p.requiresEofLookahead = false ∧
      Derives store (p.rest 0) a false) (ss : List Symbol) :
    ∀ w ∈ pathLang env ss, Derives store ss w false := by
  induction ss with
  | nil =>
    rintro w rfl
    exact .nil
  | cons s ss ih =>
    intro w hw
    obtain ⟨a, ha, b, hb, rfl⟩ := mem_pathLang_cons.mp hw
    rw [symbolLang] at ha
    split at ha
    · rename_i hkind
      obtain ⟨p, hp, hplain, hfirst⟩ := henv s.index a ha
      have hrule := Derives.rule hkind hp hfirst (ih b hb) (by simp [hplain])
      simpa [hplain] using hrule
    · rename_i hkind
      obtain rfl : a = [s] := ha
      exact .token hkind (ih b hb)

/-- **The equations define what can be derived.** -/
theorem mem_productionLanguages_iff (i : Nat) (w : List Symbol) :
    w ∈ productionLanguages store i ↔ Derives store [.nonTerminal i] w false := by
  let env : Nat → Language Symbol := fun i => {a | ∃ p ∈ productionsOf store (.nonTerminal i),
    p.requiresEofLookahead = false ∧ Derives store (p.rest 0) a false}
  constructor
  · intro hw
    have hsolved : productionEquations env store ≤ env := by
      intro i a ha
      rw [productionEquations] at ha
      cases hps : store[i]? with
      | none =>
        rw [hps] at ha
        exact absurd ha (Language.notMem_zero a)
      | some ps =>
        rw [hps] at ha
        obtain ⟨p, ha⟩ := Language.mem_iSup.mp ha
        obtain ⟨hp, ha⟩ := Language.mem_iSup.mp ha
        have hp : p ∈ productionsOf store (.nonTerminal i) := by rwa [productionsOf_eq hps]
        have hp' := hplain p (mem_flatten_of_productionsOf hp)
        rw [lang_of_plain hp'] at ha
        exact ⟨p, hp, hp', derives_of_mem_pathLang (fun _ _ h => h) _ a ha⟩
    obtain ⟨p, hp, hp', hfirst⟩ := least_le hsolved i hw
    simpa [hp'] using Derives.rule rfl hp hfirst .nil (by simp)
  · intro h
    obtain ⟨a, ha, b, rfl, rfl⟩ := mem_pathLang_cons.mp (h.mem_pathLang hplain).2
    rw [append_nil]
    exact ha

end Readings

/-! ### No empty symbols -/

theorem of_forM_ok {ε α : Type} {f : α → Except ε Unit} {xs : List α} (h : xs.forM f = .ok ()) :
    ∀ x ∈ xs, f x = .ok () := by
  induction xs with
  | nil => exact fun x hx => absurd hx not_mem_nil
  | cons x xs ih =>
    obtain ⟨_, hx, hxs⟩ := bind_eq_ok.mp h
    exact forall_mem_cons.mpr ⟨hx, ih hxs⟩

variable {g g' : InputGrammar} {reservedSets : List String} {store : ProductionStore}

theorem steps_ne_nil_of_used (h : flattenGrammar g reservedSets = .ok store) {s : Symbol}
    (hkind : s.kind = .nonTerminal) (hused : Used store [s]) {p : Production}
    (hp : p ∈ productionsOf store s) (hplain : p.requiresEofLookahead = false) : p.steps ≠ [] := by
  rw [flattenGrammar] at h
  split at h
  · cases h
  obtain ⟨store', hmap, h⟩ := bind_eq_ok.mp h
  obtain ⟨⟨⟩, hcheck, h⟩ := bind_eq_ok.mp h
  cases h
  obtain ⟨step, hstep, hsymbol⟩ := hused s mem_cons_self
  obtain ⟨kind, index⟩ := s
  obtain rfl : kind = .nonTerminal := hkind
  cases hps : store[index]? with
  | none => simp [productionsOf, hps] at hp
  | some ps =>
    rw [productionsOf_eq hps] at hp
    have hlt := (List.getElem?_eq_some_iff.mp hps).1
    obtain ⟨v, hv⟩ : ∃ v, g.vars[index]? = some v :=
      ⟨_, getElem?_eq_getElem ((forall₂_of_mapM_ok hmap).length_eq.symm ▸ hlt)⟩
    have hentry : (((v, ps), index) : (Variable × List Production) × Nat) ∈
        (g.vars.zip store).zipIdx :=
      mem_zipIdx_iff_getElem?.mpr (getElem?_zip_eq_some.mpr ⟨hv, hps⟩)
    have hproduction := of_forM_ok (of_forM_ok hcheck _ hentry) p hp
    intro hnil
    have hany : (store.steps.any fun t => t.symbol = .nonTerminal index) = true :=
      any_eq_true.mpr ⟨step, hstep, decide_eq_true hsymbol⟩
    simp [checkProduction, hany, hnil, hplain] at hproduction

/-- **`check` leaves no symbol that derives the empty string.** -/
theorem noEmpty_of_flattenGrammar (h : flattenGrammar g reservedSets = .ok store)
    (hplain : ∀ p ∈ store.flatten, p.requiresEofLookahead = false) : NoEmpty store := by
  have hne : ∀ {ss w : List Symbol} {e : Bool}, Derives store ss w e → Used store ss → ss ≠ [] →
      w ≠ [] := by
    intro ss w e hderives
    induction hderives with
    | nil => exact fun _ hss => absurd rfl hss
    | token => exact fun _ _ => cons_ne_nil _ _
    | @rule s ss a b e f p hkind hp _ _ _ ihfirst _ =>
      intro hused _ hnil
      have hsteps := steps_ne_nil_of_used h hkind (fun t ht => hused t (by simp_all)) hp
        (hplain p (mem_flatten_of_productionsOf hp))
      exact ihfirst (used_of_productionsOf hp) (by simpa [Production.rest_zero] using hsteps)
        (append_eq_nil_iff.mp hnil).1
  intro step hstep e hderives
  exact hne hderives (fun s hs => ⟨step, hstep, (mem_singleton.mp hs).symm⟩) (cons_ne_nil _ _) rfl

/-! ### All passes -/

variable {productions : List Production} {map : IndexMap (Nat × Nat) (List Nat)}

/-- What `process_inlines` returns is what stands for the inlined symbols. -/
theorem inlinedExactly_of_processInlines {inline : List Symbol} {fuel : Nat} {names : SymbolNames}
    (hrules : ∀ s ∈ inline, s.kind = .nonTerminal)
    (h : processInlines store inline fuel names = some (.ok (productions, map))) :
    InlinedExactly store inline productions map := by
  rw [processInlines] at h
  split at h
  · rename_i hnil
    cases h
    have hacyclic := @acyclic_of_refers store inline fun s hs => by
      obtain ⟨t, ht, -⟩ := Relation.TransGen.head'_iff.mp hs
      simpa [hnil] using ht.1
    refine inlinedExactly (b := ⟨store.flatten, ⟨[], nodup_nil⟩, []⟩) hrules (valid_empty _ _)
      prefix_rfl fun id _ => ⟨fun e _ x _ hinlined => ?_, fun x _ => ?_⟩
    · obtain ⟨step, -, hmem⟩ := hinlined
      simp [hnil] at hmem
    · exact (Macros.forall_terminates_iff (finite_inlineMacros store inline)).mpr hacyclic _
  · split at h
    · cases h
    · obtain ⟨⟨b, dead⟩, hbuild, h⟩ := Option.bind_eq_some_iff.mp h
      obtain ⟨hvalid, hgrown, hfinished⟩ := buildInlines_spec hbuild
      dsimp only at h
      cases hreachable : checkReachable store names b dead <;> rw [hreachable] at h <;> cases h
      exact inlinedExactly hrules hvalid hgrown hfinished

/-- **`prepare_grammar` keeps the languages of the variables**, where no production ends in
`eof()`. -/
theorem expandRepeats_processInlines_languages {inline : List Symbol} {fuel : Nat}
    {names : SymbolNames}
    (hscoped : g.Scoped) (hext : ∀ r ∈ g.roots, r.Extracted)
    (hreserved : ∀ r ∈ g.roots, r.ReservedRepeatFree) (hexpand : expandRepeats g = .ok g')
    (hflatten : flattenGrammar g' reservedSets = .ok store)
    (heof : ∀ r ∈ g'.roots, ∀ p ∈ paths r, EofGuarded (languages tokenLeaf g'.roots) p)
    (hplain : ∀ p ∈ store.flatten, p.requiresEofLookahead = false)
    (hrules : ∀ s ∈ inline, s.kind = .nonTerminal)
    (hinline : processInlines store inline fuel names = some (.ok (productions, map))) :
    ∀ i < g.vars.length, ∀ w, EofLast w → (w ∈ languages tokenLeaf g.roots i ↔
      ∃ id, ProductionId store i id ∧
        InlinedDerives store inline productions map (id, 0) w false) := by
  intro i hi w hw
  obtain ⟨contents, hshape⟩ := expandRepeats_shape hexpand
  have hsame : languages tokenLeaf g'.roots i = languages tokenLeaf g.roots i :=
    le_antisymm (le_languages hscoped hshape hi) (languages_le hshape i)
  rw [← hsame, ← mem_productionLanguages hflatten (hshape.repeatFree_iff.mpr hreserved)
    (hshape.extracted hext) heof i hw, mem_productionLanguages_iff hplain]
  exact (inlinedExactly_of_processInlines hrules hinline).strings
    (noEmpty_of_flattenGrammar hflatten hplain) i w false

/-- A list of items, whose rule is inlined. -/
def itemGrammar : InputGrammar where
  vars := [⟨"list", .named, .repeat (.sym (.nonTerminal 1))⟩, ⟨"item", .hidden, .sym (.terminal 0)⟩]
  inline := [.nonTerminal 1]

theorem expandRepeats_processInlines_languages_item : ∃ store productions map,
    ∀ i < 2, ∀ w, EofLast w → (w ∈ languages tokenLeaf itemGrammar.roots i ↔
      ∃ id, ProductionId store i id ∧
        InlinedDerives store [.nonTerminal 1] productions map (id, 0) w false) := by
  obtain ⟨g', store, productions, map, hexpand, hroots, hflatten, hplain, hinline⟩ :
      ∃ g' store productions map, expandRepeats itemGrammar = .ok g' ∧
      g'.roots = [.sym (.nonTerminal 2), .sym (.terminal 0),
        .choice [.seq [.sym (.nonTerminal 2), .sym (.nonTerminal 2)], .sym (.nonTerminal 1)]] ∧
      flattenGrammar g' [] = .ok store ∧
      (∀ p ∈ store.flatten, p.requiresEofLookahead = false) ∧
      processInlines store [.nonTerminal 1] 20 ⟨["list", "item", "list_repeat1"], [], []⟩ =
        some (.ok (productions, map)) :=
    ⟨_, _, _, _, rfl, rfl, rfl, by decide, rfl⟩
  refine ⟨store, productions, map, expandRepeats_processInlines_languages ?_ ?_ ?_ hexpand hflatten
    ?_ hplain (by decide) hinline⟩
  · simp [InputGrammar.Scoped, InputGrammar.roots, itemGrammar, Rule.ScopedBy, Symbol.nonTerminal,
      Symbol.terminal]
  · simp [InputGrammar.roots, itemGrammar, Rule.Extracted]
  · simp [InputGrammar.roots, itemGrammar, Rule.ReservedRepeatFree]
  · rw [hroots]
    simp [paths, seqPaths, choicePaths, EofGuarded, cons_eq_append_iff, Symbol.eof, Symbol.terminal,
      Symbol.nonTerminal]

end TreeSitter.Generate
