import TreeSitter.Generate.PrepareGrammar.ProcessInlinesTerminates

/-!
# TreeSitter.Generate.PrepareGrammar.ProcessInlinesSound

**What inlining makes of a grammar.** Each entry of the map lists the productions that come of
putting the inlined rule in place of the step (`spliced`), until no symbol there is inlined, and
there is an entry wherever one is needed. A production that requires the end of the input only
takes the place of a last step. Reading productions with the help of the map, the variables derive
the same strings as before (`processInlines_exact`).
-/

namespace TreeSitter.Generate

open Option List Library Relation

/-! ### Substitutions -/

/-- A step of an inlined rule, with the attributes of the step it takes the place of. -/
def splicedStep (removed : ProductionStep) (isLast : Bool) (step : ProductionStep) :
    ProductionStep :=
  { step with
    aliasAs := removed.aliasAs.or step.aliasAs
    field := removed.field.or step.field
    precedence := if isLast ∧ step.precedence = .none then removed.precedence
                  else step.precedence
    associativity := if isLast then step.associativity.or removed.associativity
                     else step.associativity }

/-- The production `p` of an inlined rule in place of the step at index `k` of `x`. -/
def spliced (x : Production) (k : Nat) (removed : ProductionStep) (p : Production) :
    Production where
  steps := x.steps.take k ++
    p.steps.mapIdx (fun i step => splicedStep removed (i + 1 = p.steps.length) step) ++
    x.steps.drop (k + 1)
  dynamicPrecedence := if absI32 x.dynamicPrecedence < absI32 p.dynamicPrecedence
                       then p.dynamicPrecedence else x.dynamicPrecedence
  requiresEofLookahead := x.requiresEofLookahead || p.requiresEofLookahead

/-- One production for another, with an inlined rule in place of the step at index `k`. -/
def SplicedAt (store : ProductionStore) (inline : List Symbol) (k : Nat)
    (x y : Production) : Prop :=
  ∃ step p, x.steps[k]? = some step ∧ step.symbol ∈ inline ∧ p ∈ productionsOf store step.symbol ∧
    (p.requiresEofLookahead = true → k + 1 = x.steps.length) ∧ y = spliced x k step p

theorem ite_isSome_eq_or {α : Type*} (a b : Option α) : (if a.isSome then a else b) = a.or b := by
  cases a <;> rfl

theorem ite_isNone_eq_or {α : Type*} (a b : Option α) : (if a.isNone then b else a) = a.or b := by
  cases a <;> rfl

theorem insertedSteps_eq (removed : ProductionStep) (p : Production) :
    insertedSteps removed p =
      p.steps.mapIdx (fun i step => splicedStep removed (i + 1 = p.steps.length) step) := by
  refine ext_getElem (by simp [insertedSteps]) fun i hi hi' => ?_
  have hlt : i < p.steps.length := by simpa using hi'
  simp only [insertedSteps, getElem_modify, getElem_map, getElem_mapIdx,
    length_map, overrideStep, inheritStep, splicedStep, ite_isSome_eq_or, ite_isNone_eq_or]
  by_cases hlast : p.steps.length - 1 = i
  · have hlast' : i + 1 = p.steps.length := by omega
    simp [hlast, hlast']
  · have hlast' : i + 1 ≠ p.steps.length := by omega
    simp [hlast, hlast']

theorem substitutedAt_eq_splicedAt (store : ProductionStore) (inline : List Symbol) (k : Nat) :
    SubstitutedAt store inline k = SplicedAt store inline k := by
  funext x y
  refine propext ⟨fun h => ?_, fun h => ?_⟩
  · obtain ⟨step, hstep, hinline, hy⟩ := h
    obtain ⟨p, hp, hsubst⟩ := mem_filterMap.mp hy
    obtain ⟨hlt, -⟩ := List.getElem?_eq_some_iff.mp hstep
    unfold substitute at hsubst
    split at hsubst
    · cases hsubst
    · rename_i hnot
      cases hsubst
      refine ⟨step, p, hstep, hinline, hp, fun heof => ?_, ?_⟩
      · rw [heof, Bool.true_and, decide_eq_true_eq] at hnot
        omega
      · rw [spliced, insertedSteps_eq]
  · obtain ⟨step, p, hstep, hinline, hp, heof, rfl⟩ := h
    refine ⟨step, hstep, hinline, mem_filterMap.mpr ⟨p, hp, ?_⟩⟩
    have hnot : ¬ (p.requiresEofLookahead && k + 1 < x.steps.length) = true := by
      rw [Bool.and_eq_true, decide_eq_true_eq]
      intro h
      have hlast := heof h.1
      omega
    rw [substitute, if_neg hnot, spliced, insertedSteps_eq]

/-! ### Derivations -/

section Derivations

variable (store : ProductionStore) (inline : List Symbol)

/-- The strings that some symbols derive, and whether the end of the input has to follow: a
production can require that. Nothing stands behind such a part of a string. -/
inductive Derives : List Symbol → List Symbol → Bool → Prop
  | nil : Derives [] [] false
  | token {s : Symbol} {ss b : List Symbol} {f : Bool} : s.kind ≠ .nonTerminal →
      Derives ss b f → Derives (s :: ss) (s :: b) f
  | rule {s : Symbol} {ss a b : List Symbol} {e f : Bool} {p : Production} :
      s.kind = .nonTerminal → p ∈ productionsOf store s → Derives (p.rest 0) a e →
      Derives ss b f → ((e || p.requiresEofLookahead) = true → b = []) →
      Derives (s :: ss) (a ++ b) (e || p.requiresEofLookahead || f)

/-- The id of a production of the variable at index `i`. -/
def ProductionId (i id : Nat) : Prop :=
  ∃ ps j, store[i]? = some ps ∧ j < ps.length ∧ id = prodStart store i + j

/-- The strings that a production derives from a step on, with the map for inlined symbols. -/
inductive InlinedDerives (productions : List Production) (map : IndexMap (Nat × Nat) (List Nat)) :
    Nat × Nat → List Symbol → Bool → Prop
  | finish {id k : Nat} {x : Production} : productions[id]? = some x → x.steps[k]? = none →
      InlinedDerives productions map (id, k) [] x.requiresEofLookahead
  | token {id k : Nat} {x : Production} {step : ProductionStep} {b : List Symbol} {f : Bool} :
      productions[id]? = some x → x.steps[k]? = some step → step.symbol ∉ inline →
      step.symbol.kind ≠ .nonTerminal → InlinedDerives productions map (id, k + 1) b f →
      InlinedDerives productions map (id, k) (step.symbol :: b) f
  | rule {id k id' : Nat} {x : Production} {step : ProductionStep} {a b : List Symbol}
      {e f : Bool} :
      productions[id]? = some x → x.steps[k]? = some step → step.symbol ∉ inline →
      step.symbol.kind = .nonTerminal → ProductionId store step.symbol.index id' →
      InlinedDerives productions map (id', 0) a e →
      InlinedDerives productions map (id, k + 1) b f → (e = true → b = []) →
      InlinedDerives productions map (id, k) (a ++ b) (e || f)
  | inlined {id k id' : Nat} {ids : List Nat} {w : List Symbol} {e : Bool} :
      map.get? (id, k) = some ids → id' ∈ ids → InlinedDerives productions map (id', k) w e →
      InlinedDerives productions map (id, k) w e

/-- The strings that some symbols derive if inlined symbols are expanded from the left, with
whether the end of the input is required already. -/
inductive StackDerives : List Symbol → Bool → List Symbol → Bool → Prop
  | nil {flag : Bool} : StackDerives [] flag [] flag
  | token {s : Symbol} {ss b : List Symbol} {flag f : Bool} : s ∉ inline → s.kind ≠ .nonTerminal →
      StackDerives ss flag b f → StackDerives (s :: ss) flag (s :: b) f
  | rule {s : Symbol} {ss a b : List Symbol} {flag e f : Bool} {p : Production} : s ∉ inline →
      s.kind = .nonTerminal → p ∈ productionsOf store s →
      StackDerives (p.rest 0) p.requiresEofLookahead a e → StackDerives ss flag b f →
      (e = true → b = []) → StackDerives (s :: ss) flag (a ++ b) (e || f)
  | expand {s : Symbol} {ss w : List Symbol} {flag e : Bool} {p : Production} : s ∈ inline →
      p ∈ productionsOf store s → (p.requiresEofLookahead = true → ss = []) →
      StackDerives (p.rest 0 ++ ss) (flag || p.requiresEofLookahead) w e →
      StackDerives (s :: ss) flag w e

end Derivations

section Strings

variable {store : ProductionStore} {inline : List Symbol}

variable {w : List Symbol} {e : Bool}

theorem Derives.eq_nil (h : Derives store [] w e) :
    w = [] ∧ e = false := by
  cases h
  exact ⟨rfl, rfl⟩

variable {flag : Bool}

theorem StackDerives.eq_nil (h : StackDerives store inline [] flag w e) : w = [] ∧ e = flag := by
  cases h
  exact ⟨rfl, rfl⟩

theorem Derives.of_append {xs ys : List Symbol} (h : Derives store (xs ++ ys) w e) :
    ∃ a b e₁ e₂, w = a ++ b ∧ Derives store xs a e₁ ∧ Derives store ys b e₂ ∧ e = (e₁ || e₂) ∧
      (e₁ = true → b = []) := by
  induction xs generalizing w e with
  | nil => exact ⟨[], w, false, e, rfl, .nil, h, rfl, nofun⟩
  | cons x xs ih =>
    rw [cons_append] at h
    cases h with
    | token hkind hrest =>
      obtain ⟨a, b, e₁, e₂, rfl, ha, hb, rfl, hend⟩ := ih hrest
      exact ⟨x :: a, b, e₁, e₂, rfl, .token hkind ha, hb, rfl, hend⟩
    | rule hkind hp hfirst hrest hend =>
      obtain ⟨a, b, e₁, e₂, rfl, ha, hb, rfl, hend'⟩ := ih hrest
      refine ⟨_ ++ a, b, _, e₂, (append_assoc _ _ _).symm, .rule hkind hp hfirst ha ?_, hb,
        (Bool.or_assoc _ _ _).symm, ?_⟩
      · exact fun h => (append_eq_nil_iff.mp (hend h)).1
      · intro h
        rw [Bool.or_eq_true] at h
        rcases h with h | h
        · exact (append_eq_nil_iff.mp (hend h)).2
        · exact hend' h

variable {ss : List Symbol}

theorem StackDerives.derives (hrules : ∀ s ∈ inline, s.kind = .nonTerminal)
    (h : StackDerives store inline ss flag w e) :
    ∃ e', Derives store ss w e' ∧ e = (e' || flag) := by
  induction h with
  | nil => exact ⟨false, .nil, rfl⟩
  | token _ hkind _ ih =>
    obtain ⟨e', hrest, rfl⟩ := ih
    exact ⟨e', .token hkind hrest, rfl⟩
  | rule _ hkind hp _ _ hend ihfirst ihrest =>
    obtain ⟨e', hfirst, rfl⟩ := ihfirst
    obtain ⟨f', hrest, rfl⟩ := ihrest
    exact ⟨_, .rule hkind hp hfirst hrest hend, by simp [Bool.or_assoc]⟩
  | @expand s ss w flag e p hinline hp hlast _ ih =>
    obtain ⟨e', hderives, rfl⟩ := ih
    obtain ⟨a, b, e₁, e₂, rfl, ha, hb, rfl, hend⟩ := hderives.of_append
    refine ⟨_, .rule (hrules s hinline) hp ha hb fun h => ?_, ?_⟩
    · rw [Bool.or_eq_true] at h
      rcases h with h | h
      · exact hend h
      · have hnil := hlast h
        subst hnil
        exact hb.eq_nil.1
    · cases e₁ <;> cases e₂ <;> cases flag <;> simp

/-- No symbol of a production derives the empty string, not even at the end of the input. -/
def NoEmpty (store : ProductionStore) : Prop :=
  ∀ step ∈ store.steps, ∀ e, ¬ Derives store [step.symbol] [] e

/-- The symbols are those of steps. -/
def Used (store : ProductionStore) (ss : List Symbol) : Prop :=
  ∀ s ∈ ss, ∃ step ∈ store.steps, step.symbol = s

variable {s : Symbol} {p : Production}

theorem used_of_productionsOf (hp : p ∈ productionsOf store s) :
    Used store (p.rest 0) := by
  intro t ht
  obtain ⟨step, hstep, rfl⟩ := mem_map.mp ht
  exact ⟨step, mem_flatMap.mpr ⟨p, mem_flatten_of_productionsOf hp, hstep⟩, rfl⟩

theorem NoEmpty.eq_nil (hempty : NoEmpty store) (hused : Used store ss)
    (h : Derives store ss [] e) : ss = [] := by
  cases ss with
  | nil => rfl
  | cons s ss =>
    obtain ⟨step, hstep, rfl⟩ := hused s mem_cons_self
    rw [← singleton_append] at h
    obtain ⟨a, b, e₁, e₂, hnil, ha, -⟩ := h.of_append
    rw [(append_eq_nil_iff.mp hnil.symm).1] at ha
    exact absurd ha (hempty step hstep e₁)

/-- **Expanding inlined symbols does not lose strings**, whatever follows. -/
theorem Derives.stackDerives (hrules : ∀ s ∈ inline, s.kind = .nonTerminal)
    (hempty : NoEmpty store) (h : Derives store ss w e) :
    Used store ss → ∀ (post v : List Symbol) (flag f : Bool),
      StackDerives store inline post flag v f → (e = true → post = []) →
      StackDerives store inline (ss ++ post) flag (w ++ v) (e || f) := by
  induction h with
  | nil => exact fun _ post v flag f hpost _ => hpost
  | @token s ss b f hkind _ ih =>
    intro hused post v flag f' hpost hend
    obtain ⟨-, hused⟩ := forall_mem_cons.mp hused
    exact .token (fun hinline => hkind (hrules s hinline)) hkind (ih hused _ _ _ _ hpost hend)
  | @rule s ss a b e f p hkind hp hfirst hrest hlast ihfirst ihrest =>
    intro hused post v flag f' hpost hend
    obtain ⟨-, hused⟩ := forall_mem_cons.mp hused
    have hpost' := ihrest hused _ _ _ _ hpost fun h => hend (by rw [h, Bool.or_true])
    have hsub := ihfirst (used_of_productionsOf hp)
    -- Behind a part that requires the end of the input there are no symbols at all.
    have hnil : (e || p.requiresEofLookahead) = true → ss ++ post = [] := by
      intro h
      have hb := hlast h
      subst hb
      rw [hempty.eq_nil hused hrest, hend (by rw [h, Bool.true_or])]
      rfl
    have hrest' : (e || p.requiresEofLookahead) = true → b ++ v = [] ∧ (f || f') = flag := by
      intro h
      rw [hnil h] at hpost'
      exact hpost'.eq_nil
    rw [append_assoc, Bool.or_assoc, cons_append]
    by_cases hinline : s ∈ inline
    · refine .expand hinline hp (fun h => hnil (by rw [h, Bool.or_true])) ?_
      cases heof : p.requiresEofLookahead with
      | false =>
        rw [Bool.or_false, Bool.or_false]
        exact hsub _ _ _ _ hpost' fun h => hnil (by rw [h, Bool.true_or])
      | true =>
        rw [heof, Bool.or_true] at hnil hrest'
        rw [hnil rfl, (hrest' rfl).1, Bool.or_true, Bool.or_true, Bool.true_or]
        have hend' := hsub [] [] true true .nil fun _ => rfl
        rwa [Bool.or_true] at hend'
    · refine .rule hinline hkind hp ?_ hpost' fun h => (hrest' h).1
      have hfirst' := hsub [] [] p.requiresEofLookahead p.requiresEofLookahead .nil fun _ => rfl
      rwa [append_nil, append_nil] at hfirst'

/-! ### Productions with ids -/

theorem getElem?_flatten {i j : Nat} {ps : List Production} (hps : store[i]? = some ps)
    (hj : j < ps.length) : store.flatten[prodStart store i + j]? = ps[j]? := by
  obtain ⟨hlt, hget⟩ := List.getElem?_eq_some_iff.mp hps
  have hsplit : store.flatten = (store.take i).flatten ++ (ps ++ (store.drop (i + 1)).flatten) := by
    rw [← flatten_cons, ← hget, ← drop_eq_getElem_cons hlt, ← flatten_append, take_append_drop]
  rw [hsplit, prodStart, getElem?_append_right (Nat.le_add_right _ _), Nat.add_sub_cancel_left,
    getElem?_append_left hj]

theorem exists_productionId (hp : p ∈ productionsOf store s) :
    ∃ id, ProductionId store s.index id ∧ store.flatten[id]? = some p := by
  unfold productionsOf at hp
  cases hps : store[s.index]? with
  | none => rw [hps] at hp; cases hp
  | some ps =>
    rw [hps, getD_some] at hp
    obtain ⟨j, hj⟩ := mem_iff_getElem?.mp hp
    have hlt := (List.getElem?_eq_some_iff.mp hj).1
    exact ⟨_, ⟨ps, j, hps, hlt, rfl⟩, (getElem?_flatten hps hlt).trans hj⟩

theorem ProductionId.exists_production {id : Nat} (h : ProductionId store s.index id) :
    ∃ p ∈ productionsOf store s, store.flatten[id]? = some p := by
  obtain ⟨ps, j, hps, hlt, rfl⟩ := h
  refine ⟨_, ?_, (getElem?_flatten hps hlt).trans (getElem?_eq_getElem hlt)⟩
  rw [productionsOf, hps, getD_some]
  exact getElem_mem hlt

variable {x y : Production} {k : Nat}

theorem requiresEofLookahead_substitute {step : ProductionStep}
    (h : substitute x k step p = some y) :
    y.requiresEofLookahead = (x.requiresEofLookahead || p.requiresEofLookahead) := by
  unfold substitute at h
  split at h
  · cases h
  · cases h
    rfl

theorem SubstitutedAt.exists_production (h : SubstitutedAt store inline k x y) :
    ∃ s p, s ∈ inline ∧ p ∈ productionsOf store s ∧ x.rest k = s :: x.rest (k + 1) ∧
      (p.requiresEofLookahead = true → x.rest (k + 1) = []) ∧
      y.rest k = p.rest 0 ++ x.rest (k + 1) ∧
      y.requiresEofLookahead = (x.requiresEofLookahead || p.requiresEofLookahead) := by
  obtain ⟨step, hstep, hinline, hy⟩ := h
  obtain ⟨p, hp, hsubst⟩ := mem_filterMap.mp hy
  obtain ⟨heof, hrest⟩ := substitute_eq_some hstep hsubst
  exact ⟨step.symbol, p, hinline, hp, Production.rest_of_getElem? hstep, heof, hrest,
    requiresEofLookahead_substitute hsubst⟩

theorem stackDerives_of_substituted (h : ReflTransGen (SubstitutedAt store inline k) x y)
    (hy : StackDerives store inline (y.rest k) y.requiresEofLookahead w e) :
    StackDerives store inline (x.rest k) x.requiresEofLookahead w e := by
  induction h using ReflTransGen.head_induction_on with
  | refl => exact hy
  | head hstep _ ih =>
    obtain ⟨s, p, hinline, hp, hx, heof, hrest, hflag⟩ := hstep.exists_production
    rw [hrest, hflag] at ih
    rw [hx]
    exact .expand hinline hp heof ih

variable {b : InlineBuilder}

/-- **Reading productions with the map does not add strings.** -/
theorem InlinedDerives.stackDerives (hvalid : b.Valid store inline)
    (hgrown : store.flatten <+: b.productions) {e : Nat × Nat} {f : Bool}
    (h : InlinedDerives store inline b.productions b.map e w f) :
    ∀ x, b.productions[e.1]? = some x →
      StackDerives store inline (x.rest e.2) x.requiresEofLookahead w f := by
  induction h with
  | @finish id k x hx hstep =>
    intro y hy
    obtain rfl := some_inj.mp (hx.symm.trans hy)
    rw [Production.rest_of_getElem?_none hstep]
    exact .nil
  | @token id k x step b f hx hstep hinline hkind _ ih =>
    intro y hy
    obtain rfl := some_inj.mp (hx.symm.trans hy)
    rw [Production.rest_of_getElem? hstep]
    exact .token hinline hkind (ih x hx)
  | @rule id k id' x step a b e f hx hstep hinline hkind hid' _ _ hend ihfirst ihrest =>
    intro y hy
    obtain rfl := some_inj.mp (hx.symm.trans hy)
    obtain ⟨p, hp, hget⟩ := hid'.exists_production
    rw [Production.rest_of_getElem? hstep]
    exact .rule hinline hkind hp (ihfirst p (getElem?_of_isPrefix hgrown hget)) (ihrest x hx) hend
  | @inlined id k id' ids w e hids hid' _ ih =>
    intro x hx
    obtain ⟨x', ys, hentry⟩ := hvalid id k ids hids
    obtain rfl := some_inj.mp (hx.symm.trans hentry.production)
    obtain ⟨y, hy, hget⟩ := hentry.listed.exists_production hid'
    exact stackDerives_of_substituted ((hentry.expanded y).mp hy).1 (ih y hget)

/-- A production and a step that reading gets to. -/
def ReachedAt (store : ProductionStore) (inline : List Symbol) (productions : List Production)
    (map : IndexMap (Nat × Nat) (List Nat)) (e : Nat × Nat) : Prop :=
  ∃ id < store.flatten.length, ReflTransGen (Moves inline productions map) (id, 0) e

theorem ReachedAt.advance {id : Nat} {step : ProductionStep}
    (h : ReachedAt store inline b.productions b.map (id, k)) (hx : b.productions[id]? = some x)
    (hstep : x.steps[k]? = some step) (hinline : step.symbol ∉ inline) :
    ReachedAt store inline b.productions b.map (id, k + 1) := by
  obtain ⟨id₀, hid₀, hmoves⟩ := h
  exact ⟨id₀, hid₀, hmoves.tail (Or.inl ⟨x, step, hx, hstep, hinline, rfl⟩)⟩

theorem exists_step (h : x.rest k = s :: ss) :
    ∃ step, x.steps[k]? = some step ∧ step.symbol = s ∧ x.rest (k + 1) = ss := by
  cases hstep : x.steps[k]? with
  | none =>
    rw [Production.rest_of_getElem?_none hstep] at h
    cases h
  | some step =>
    rw [Production.rest_of_getElem? hstep] at h
    obtain ⟨hs, hss⟩ := List.cons.inj h
    exact ⟨step, rfl, hs, hss⟩

/-- **Reading productions with the map does not lose strings.** What is read is a production that
was reached, or one that comes of it by substitutions at the step. -/
theorem StackDerives.inlinedDerives (hvalid : b.Valid store inline)
    (hgrown : store.flatten <+: b.productions)
    (hfinished : ∀ id < store.flatten.length, Finished store inline b (id, 0)) {f : Bool}
    (h : StackDerives store inline ss flag w f) :
    ∀ (id k : Nat) (x y : Production), ReachedAt store inline b.productions b.map (id, k) →
      b.productions[id]? = some x → ReflTransGen (SubstitutedAt store inline k) x y →
      y.rest k = ss → y.requiresEofLookahead = flag →
      InlinedDerives store inline b.productions b.map (id, k) w f := by
  have hfinal : ∀ (id k : Nat) (x y : Production) (w : List Symbol) (f : Bool),
      ReachedAt store inline b.productions b.map (id, k) →
      b.productions[id]? = some x → ReflTransGen (SubstitutedAt store inline k) x y →
      ¬ InlinedAt inline k y →
      (∀ id', ReachedAt store inline b.productions b.map (id', k) → b.productions[id']? = some y →
        InlinedDerives store inline b.productions b.map (id', k) w f) →
      InlinedDerives store inline b.productions b.map (id, k) w f := by
    intro id k x y w f hreached hx hsubst hnot hderives
    by_cases hinlined : InlinedAt inline k x
    · obtain ⟨id₀, hid₀, hmoves⟩ := hreached
      obtain ⟨ids, hids⟩ := isSome_iff_exists.mp
        ((hfinished id₀ hid₀).covered _ hmoves x hx hinlined)
      obtain ⟨x', ys, hentry⟩ := hvalid id k ids hids
      obtain rfl := some_inj.mp (hx.symm.trans hentry.production)
      obtain ⟨id', hid', hget⟩ := hentry.listed.exists_id ((hentry.expanded y).mpr ⟨hsubst, hnot⟩)
      refine .inlined hids hid' (hderives id' ⟨id₀, hid₀, hmoves.tail ?_⟩ hget)
      exact Or.inr ⟨ids, hids, id', hid', rfl⟩
    · obtain rfl := (expandedAt_iff_eq hinlined).mp ⟨hsubst, hnot⟩
      exact hderives id hreached hx
  induction h with
  | nil =>
    intro id k x y hreached hx hsubst hrest hflag
    have hstep : y.steps[k]? = none := by
      rw [Production.rest, map_eq_nil_iff, drop_eq_nil_iff] at hrest
      exact getElem?_eq_none hrest
    refine hfinal id k x y _ _ hreached hx hsubst (not_inlinedAt_of_none hstep)
      fun id' _ hy => ?_
    rw [← hflag]
    exact .finish hy hstep
  | @token s ss b flag f hinline hkind _ ih =>
    intro id k x y hreached hx hsubst hrest hflag
    obtain ⟨step, hstep, rfl, hrest'⟩ := exists_step hrest
    refine hfinal id k x y _ _ hreached hx hsubst (not_inlinedAt hstep hinline)
      fun id' hreached' hy => ?_
    refine .token hy hstep hinline hkind (ih id' (k + 1) y y ?_ hy .refl hrest' hflag)
    exact hreached'.advance hy hstep hinline
  | @rule s ss a b flag e f p hinline hkind hp _ _ hend ihfirst ihrest =>
    intro id k x y hreached hx hsubst hrest hflag
    obtain ⟨step, hstep, rfl, hrest'⟩ := exists_step hrest
    refine hfinal id k x y _ _ hreached hx hsubst (not_inlinedAt hstep hinline)
      fun id' hreached' hy => ?_
    obtain ⟨id₁, hid₁, hget⟩ := exists_productionId hp
    have hlt := (List.getElem?_eq_some_iff.mp hget).1
    exact .rule hy hstep hinline hkind hid₁
      (ihfirst id₁ 0 p p ⟨id₁, hlt, .refl⟩ (getElem?_of_isPrefix hgrown hget) .refl rfl rfl)
      (ihrest id' (k + 1) y y (hreached'.advance hy hstep hinline) hy .refl hrest' hflag) hend
  | @expand s ss w flag e p hinline hp heof _ ih =>
    intro id k x y hreached hx hsubst hrest hflag
    obtain ⟨step, hstep, rfl, hrest'⟩ := exists_step hrest
    obtain ⟨z, hz⟩ := exists_substitute step fun h => hrest'.trans (heof h)
    have hsubst' : SubstitutedAt store inline k y z :=
      ⟨step, hstep, hinline, mem_filterMap.mpr ⟨p, hp, hz⟩⟩
    refine ih id k x z hreached hx (hsubst.tail hsubst') ?_ ?_
    · rw [(substitute_eq_some hstep hz).2, hrest']
    · rw [requiresEofLookahead_substitute hz, hflag]

/-! ### Whole grammars -/

/-- An inlined rule has a step with another one. -/
def Refers (store : ProductionStore) (inline : List Symbol) (s t : Symbol) : Prop :=
  s ∈ inline ∧ t ∈ inline ∧ ∃ p ∈ productionsOf store s, t ∈ p.rest 0

theorem acyclic_of_refers (h : ∀ s, ¬ TransGen (Refers store inline) s s) :
    (inlineMacros store inline).Acyclic := by
  intro x hx
  refine h x.1 (hx.lift Prod.fst fun a c hac => ?_)
  have hc := (isSome_inlineMacros store inline).mp hac.isSome
  obtain ⟨bodies, body, atEnd, u, v, ha, hbody, -, hsplit, -⟩ := hac
  unfold inlineMacros at ha
  split at ha
  · rename_i hinline
    cases ha
    obtain ⟨p, hp, heq⟩ := mem_map.mp hbody
    refine ⟨hinline, hc, p, hp, ?_⟩
    rw [Production.rest_zero, (Prod.mk.inj heq).1, hsplit]
    simp
  · cases ha

/-- What the productions and the map are to be. -/
structure InlinedExactly (store : ProductionStore) (inline : List Symbol)
    (productions : List Production) (map : IndexMap (Nat × Nat) (List Nat)) : Prop where
  /-- The ids of the productions stay. -/
  original : store.flatten <+: productions
  /-- Wherever reading gets to an inlined symbol, there is an entry with what stands for it. -/
  entry : ∀ id k x, ReachedAt store inline productions map (id, k) → productions[id]? = some x →
    InlinedAt inline k x → ∃ ids ys, map.get? (id, k) = some ids ∧ Listed productions ids ys ∧
      ∀ y, y ∈ ys ↔ ReflTransGen (SplicedAt store inline k) x y ∧ ¬ InlinedAt inline k y
  /-- The variables derive the same strings. -/
  strings : NoEmpty store → ∀ i w e, Derives store [.nonTerminal i] w e ↔
    ∃ id, ProductionId store i id ∧ InlinedDerives store inline productions map (id, 0) w e

theorem inlinedExactly (hrules : ∀ s ∈ inline, s.kind = .nonTerminal)
    (hvalid : b.Valid store inline) (hgrown : store.flatten <+: b.productions)
    (hfinished : ∀ id < store.flatten.length, Finished store inline b (id, 0)) :
    InlinedExactly store inline b.productions b.map where
  original := hgrown
  entry id k x hreached hx hinlined := by
    obtain ⟨id₀, hid₀, hmoves⟩ := hreached
    obtain ⟨ids, hids⟩ := isSome_iff_exists.mp
      ((hfinished id₀ hid₀).covered _ hmoves x hx hinlined)
    obtain ⟨x', ys, hentry⟩ := hvalid id k ids hids
    obtain rfl := some_inj.mp (hx.symm.trans hentry.production)
    refine ⟨ids, ys, hids, hentry.listed, fun y => ?_⟩
    rw [hentry.expanded, ExpandedAt, substitutedAt_eq_splicedAt]
  strings hempty i w e := by
    constructor
    · intro h
      cases h with
      | token hkind _ => exact absurd rfl hkind
      | @rule _ _ a b' e₁ f p _ hp hfirst hrest _ =>
        obtain ⟨rfl, rfl⟩ := hrest.eq_nil
        obtain ⟨id, hid, hget⟩ := exists_productionId hp
        have hlt := (List.getElem?_eq_some_iff.mp hget).1
        have hstack := hfirst.stackDerives hrules hempty (used_of_productionsOf hp) [] []
          p.requiresEofLookahead p.requiresEofLookahead .nil fun _ => rfl
        rw [append_nil] at hstack
        refine ⟨id, hid, ?_⟩
        rw [Bool.or_false]
        exact hstack.inlinedDerives hvalid hgrown hfinished id 0 p p ⟨id, hlt, .refl⟩
          (getElem?_of_isPrefix hgrown hget) .refl rfl rfl
    · intro h
      obtain ⟨id, hid, hderives⟩ := h
      obtain ⟨p, hp, hget⟩ := hid.exists_production (s := .nonTerminal i)
      obtain ⟨e', hstack, rfl⟩ := (hderives.stackDerives hvalid hgrown p
        (getElem?_of_isPrefix hgrown hget)).derives hrules
      have hrule := Derives.rule (s := .nonTerminal i) rfl hp hstack .nil fun _ => rfl
      rwa [append_nil, Bool.or_false] at hrule

/-- **Inlining is exact.** If the inlined rules do not refer to each other, it ends, and unless it
returns an error, the map has what stands for every inlined symbol that reading gets to, and the
strings of all variables are the same. -/
theorem processInlines_exact (names : SymbolNames) (hrules : ∀ s ∈ inline, s.kind = .nonTerminal)
    (hrefers : ∀ s, ¬ TransGen (Refers store inline) s s) :
    (∃ fuel r, processInlines store inline fuel names = some r) ∧
      ∀ fuel productions map,
        processInlines store inline fuel names = some (.ok (productions, map)) →
        InlinedExactly store inline productions map := by
  have hacyclic := acyclic_of_refers hrefers
  by_cases hnil : inline = []
  · refine ⟨⟨0, _, by rw [processInlines, if_pos hnil]⟩, fun fuel productions map h => ?_⟩
    rw [processInlines, if_pos hnil] at h
    cases h
    refine inlinedExactly (b := ⟨store.flatten, ⟨[], nodup_nil⟩, []⟩) hrules
      (valid_empty _ _) prefix_rfl fun id hid => ⟨fun e _ x _ hinlined => ?_, fun x _ => ?_⟩
    · obtain ⟨step, -, hinline⟩ := hinlined
      rw [hnil] at hinline
      cases hinline
    · exact (Macros.forall_terminates_iff (finite_inlineMacros store inline)).mpr hacyclic _
  · cases hcheck : inline.forM (checkInlined names) with
    | error e =>
      have hrun : ∀ fuel, processInlines store inline fuel names = some (.error e) := fun fuel => by
        rw [processInlines, if_neg hnil, hcheck]
      refine ⟨⟨0, _, hrun 0⟩, fun fuel productions map h => ?_⟩
      rw [hrun] at h
      cases h
    | ok _ =>
      have hrun : ∀ fuel, processInlines store inline fuel names =
          (buildInlines store inline fuel).bind fun r =>
            some ((checkReachable store names r.1 r.2).map
              fun _ => (r.1.productions, r.1.map)) := fun fuel => by
        rw [processInlines, if_neg hnil, hcheck]
        rfl
      refine ⟨?_, fun fuel productions map h => ?_⟩
      · obtain ⟨fuel, r, hbuild⟩ := exists_buildInlines_iff.mpr hacyclic
        exact ⟨fuel, _, by rw [hrun, hbuild]; rfl⟩
      · rw [hrun, bind_eq_some_iff] at h
        obtain ⟨⟨b, dead⟩, hbuild, h⟩ := h
        cases hreachable : checkReachable store names b dead with
        | error e =>
          rw [hreachable] at h
          cases h
        | ok _ =>
          rw [hreachable] at h
          cases h
          obtain ⟨hvalid, hgrown, hfinished⟩ := buildInlines_spec hbuild
          exact inlinedExactly hrules hvalid hgrown hfinished

end Strings

/-- A rule with two productions, inlined between two tokens. -/
def betweenStore : ProductionStore :=
  [[⟨[⟨.terminal 0, .none, none, none, none, 0⟩, ⟨.nonTerminal 1, .none, none, none, some "f", 0⟩,
      ⟨.terminal 1, .none, none, none, none, 0⟩], 0, false⟩],
    [⟨[⟨.terminal 2, .none, none, none, none, 0⟩, ⟨.terminal 3, .none, none, none, none, 0⟩],
      0, false⟩, ⟨[⟨.terminal 2, .none, none, none, none, 0⟩], 0, false⟩]]

theorem processInlines_exact_between : ∃ productions map,
    processInlines betweenStore [.nonTerminal 1] 20 ⟨["source", "_a"], [], []⟩ =
      some (.ok (productions, map)) ∧ productions.length = 5 ∧
    InlinedExactly betweenStore [.nonTerminal 1] productions map := by
  have hrefers : ∀ s, ¬ TransGen (Refers betweenStore [.nonTerminal 1]) s s := by
    intro s h
    obtain ⟨t, -, ht, hs, p, hp, hmem⟩ := TransGen.tail'_iff.mp h
    rw [mem_singleton] at ht hs
    subst ht hs
    have hnot : ∀ p ∈ productionsOf betweenStore (.nonTerminal 1),
        Symbol.nonTerminal 1 ∉ p.rest 0 := by decide
    exact hnot p hp hmem
  exact ⟨_, _, rfl, rfl,
    (processInlines_exact ⟨["source", "_a"], [], []⟩ (by decide) hrefers).2 20 _ _ rfl⟩

/-- An inlined rule that can require the end of the input, and behind it a rule that is only the
end of the input. -/
def gatedStore : ProductionStore :=
  [[⟨[⟨.nonTerminal 1, .none, none, none, none, 0⟩, ⟨.nonTerminal 2, .none, none, none, none, 0⟩],
      0, false⟩], [⟨[⟨.terminal 1, .none, none, none, none, 0⟩], 0, false⟩,
      ⟨[⟨.terminal 2, .none, none, none, none, 0⟩], 0, true⟩], [⟨[], 0, true⟩]]

theorem derives_gated : Derives gatedStore [.nonTerminal 0] [.terminal 2] true := by
  have hend : Derives gatedStore [.nonTerminal 2] [] true :=
    .rule (p := ⟨[], 0, true⟩) rfl (by decide) .nil .nil fun _ => rfl
  have htoken : Derives gatedStore [.terminal 2] [.terminal 2] false :=
    .token (by decide) .nil
  have hsteps : Derives gatedStore [.nonTerminal 1, .nonTerminal 2] [.terminal 2] true :=
    .rule (p := ⟨[⟨.terminal 2, .none, none, none, none, 0⟩], 0, true⟩) rfl (by decide)
      htoken hend fun _ => rfl
  exact .rule (p := ⟨[⟨.nonTerminal 1, .none, none, none, none, 0⟩,
    ⟨.nonTerminal 2, .none, none, none, none, 0⟩], 0, false⟩) rfl (by decide) hsteps .nil
    fun _ => rfl

/-- An inlined rule whose productions differ in an alias only, and its use under another alias. -/
def aliasedStore : ProductionStore :=
  [[⟨[⟨.nonTerminal 1, .none, none, some ⟨"c", true⟩, none, 0⟩], 0, false⟩],
    [⟨[⟨.terminal 0, .none, none, some ⟨"a", true⟩, none, 0⟩], 0, false⟩,
      ⟨[⟨.terminal 0, .none, none, some ⟨"b", true⟩, none, 0⟩], 0, false⟩]]

/-- The second production of the rule is left out, and so is the string it derives. Where the
productions of the rule become the same one, it is listed twice. -/
theorem processInlines_gated : (∃ productions map,
    processInlines gatedStore [.nonTerminal 1] 20 ⟨["source", "_a", "end"], [], []⟩ =
      some (.ok (productions, map)) ∧ map.get? (0, 0) = some [4] ∧
    (∀ x step p, productions[0]? = some x → x.steps[0]? = some step →
      (productionsOf gatedStore (.nonTerminal 1))[1]? = some p →
        productions[4]? ≠ some (spliced x 0 step p)) ∧
    Derives gatedStore [.nonTerminal 0] [.terminal 2] true ∧ ¬ ∃ id, ProductionId gatedStore 0 id ∧
      InlinedDerives gatedStore [.nonTerminal 1] productions map (id, 0) [.terminal 2] true) ∧
    ∃ productions map, processInlines aliasedStore [.nonTerminal 1] 20 ⟨["source", "_a"], [], []⟩ =
      some (.ok (productions, map)) ∧ map.get? (0, 0) = some [3, 3] := by
  refine ⟨⟨_, _, rfl, rfl, ?_, derives_gated, fun h => ?_⟩, _, _, rfl, rfl⟩
  · intro x step p hx hstep hp
    cases hx
    cases hstep
    cases hp
    decide
  · obtain ⟨id, ⟨ps, j, hps, hlt, rfl⟩, h⟩ := h
    cases hps
    obtain rfl : j = 0 := by
      rw [length_singleton] at hlt
      omega
    generalize hw : [Symbol.terminal 2] = w at h
    generalize true = f at h
    generalize he : (prodStart gatedStore 0 + 0, 0) = e at h
    cases h with
    | finish => cases hw
    | token hx hstep hinline | rule hx hstep hinline =>
      cases he
      cases hx
      cases hstep
      exact hinline mem_cons_self
    | inlined hids hid' h =>
      cases he
      cases hids
      rw [mem_singleton] at hid'
      subst hid'
      cases h with
      | finish => cases hw
      | token hx hstep =>
        cases hx
        cases hstep
        cases hw
      | rule hx hstep _ hkind =>
        cases hx
        cases hstep
        cases hkind
      | inlined hids => cases hids

end TreeSitter.Generate
