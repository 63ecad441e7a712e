import TreeSitter.Generate.PrepareGrammar.FlattenGrammar
import TreeSitter.Generate.PrepareGrammar.ExpandRepeatsSound

/-!
# TreeSitter.Generate.PrepareGrammar.FlattenGrammarSound

**What flattening keeps of a rule.** The walk visits the paths of a rule (`paths`); they make up
its language if no repetition is left in it, since flattening passes over a repetition as if it
were blank (`lang_eq_paths`). Expanding repetitions leaves those inside of `Reserved`, and
flattening drops the paths that go on behind `eof()`; the two passes together keep the languages of
a grammar that has no repetition there, if what goes on is not empty (`flattenGrammar_languages`).
-/

namespace TreeSitter.Generate

open List Library

/-! ### Kinds of rules -/

mutual

/-- No `Repeat` node is reachable. -/
def Rule.RepeatFree : Rule → Prop
  | .repeat _ => False
  | .seq es | .choice es => RepeatFreeAll es
  | .metadata _ r | .reserved r _ => r.RepeatFree
  | _ => True

def RepeatFreeAll : List Rule → Prop
  | [] => True
  | r :: rs => r.RepeatFree ∧ RepeatFreeAll rs

end

mutual

/-- No `Repeat` node is inside of a `Reserved` node. -/
def Rule.ReservedRepeatFree : Rule → Prop
  | .repeat r => r.ReservedRepeatFree
  | .seq es | .choice es => ReservedRepeatFreeAll es
  | .metadata _ r => r.ReservedRepeatFree
  | .reserved r _ => r.RepeatFree
  | _ => True

def ReservedRepeatFreeAll : List Rule → Prop
  | [] => True
  | r :: rs => r.ReservedRepeatFree ∧ ReservedRepeatFreeAll rs

end

mutual

/-- The rule has no texts, patterns and names, which `extract_tokens` and `intern_symbols`
replace by symbols. -/
def Rule.Extracted : Rule → Prop
  | .string _ | .pattern _ _ | .namedSymbol _ => False
  | .seq es | .choice es => ExtractedAll es
  | .repeat r | .metadata _ r | .reserved r _ => r.Extracted
  | _ => True

def ExtractedAll : List Rule → Prop
  | [] => True
  | r :: rs => r.Extracted ∧ ExtractedAll rs

end

/-! ### Paths -/

mutual

/-- The symbols of the paths of a rule. What is not a symbol has none. -/
def paths : Rule → List (List Symbol)
  | .sym s => [[s]]
  | .eof => [[.eof]]
  | .seq es => seqPaths es
  | .choice es => choicePaths es
  | .metadata _ r | .reserved r _ => paths r
  | .blank | .string _ | .pattern _ _ | .namedSymbol _ | .repeat _ => [[]]

def seqPaths : List Rule → List (List Symbol)
  | [] => [[]]
  | r :: rs => (paths r).flatMap fun p => (seqPaths rs).map (p ++ ·)

def choicePaths : List Rule → List (List Symbol)
  | [] => []
  | r :: rs => paths r ++ choicePaths rs

end

mutual

/-- The sequences of symbols and repetitions that a rule chooses from. -/
def sequences : Rule → List (List Rule)
  | .sym s => [[.sym s]]
  | .eof => [[.sym .eof]]
  | .repeat c => [[.repeat c]]
  | .seq es => seqSequences es
  | .choice es => choiceSequences es
  | .metadata _ r | .reserved r _ => sequences r
  | _ => [[]]

def seqSequences : List Rule → List (List Rule)
  | [] => [[]]
  | r :: rs => (sequences r).flatMap fun p => (seqSequences rs).map (p ++ ·)

def choiceSequences : List Rule → List (List Rule)
  | [] => []
  | r :: rs => sequences r ++ choiceSequences rs

end

/-- Symbols stand for themselves. -/
def tokenLeaf : Rule → Language Symbol
  | .sym s => {[s]}
  | .eof => {[.eof]}
  | _ => 0

section Languages

variable {env : Nat → Language Symbol}

theorem pathLang_append (p q : List Symbol) :
    pathLang env (p ++ q) = pathLang env p * pathLang env q := by
  rw [pathLang, map_append, prod_append, pathLang, pathLang]

theorem pathLang_singleton (s : Symbol) : pathLang env [s] = symbolLang env s := by
  rw [pathLang, map_singleton, prod_singleton]

mutual

/-- **The paths of a rule make up its language.** -/
theorem lang_eq_paths : ∀ {r : Rule}, r.RepeatFree → r.Extracted → ∀ w : List Symbol,
    (w ∈ r.langIn tokenLeaf env ↔ ∃ p ∈ paths r, w ∈ pathLang env p)
  | .sym s, _, _, w => by
    rw [Rule.langIn, paths]
    simp only [mem_singleton, exists_eq_left, pathLang_singleton, symbolLang, tokenLeaf]
  | .eof, _, _, w => by
    simp only [Rule.langIn, paths, mem_singleton, exists_eq_left, pathLang_singleton,
      symbolLang, tokenLeaf]
    rfl
  | .blank, _, _, w => by
    simp only [Rule.langIn, paths, mem_singleton, exists_eq_left]
    rfl
  | .seq es, hfree, hext, w => seqLang_eq_paths hfree hext w
  | .choice es, hfree, hext, w => choiceLang_eq_paths hfree hext w
  | .metadata _ r, hfree, hext, w | .reserved r _, hfree, hext, w =>
    lang_eq_paths (r := r) hfree hext w
  | .string _, _, hext, _ | .pattern _ _, _, hext, _ | .namedSymbol _, _, hext, _ => absurd hext id
  | .repeat _, hfree, _, _ => absurd hfree id

theorem seqLang_eq_paths : ∀ {es : List Rule}, RepeatFreeAll es → ExtractedAll es →
    ∀ w : List Symbol, (w ∈ seqLang tokenLeaf env es ↔ ∃ p ∈ seqPaths es, w ∈ pathLang env p)
  | [], _, _, w => by
    simp only [seqLang, seqPaths, mem_singleton, exists_eq_left]
    rfl
  | e :: es, hfree, hext, w => by
    rw [seqLang, Language.mem_mul, seqPaths]
    constructor
    · rintro ⟨a, ha, b, hb, rfl⟩
      obtain ⟨p, hp, hap⟩ := (lang_eq_paths hfree.1 hext.1 a).mp ha
      obtain ⟨q, hq, hbq⟩ := (seqLang_eq_paths hfree.2 hext.2 b).mp hb
      refine ⟨p ++ q, mem_flatMap.mpr ⟨p, hp, mem_map.mpr ⟨q, hq, rfl⟩⟩, ?_⟩
      rw [pathLang_append]
      exact Language.append_mem_mul hap hbq
    · rintro ⟨_, hpq, hw⟩
      obtain ⟨p, hp, hmem⟩ := mem_flatMap.mp hpq
      obtain ⟨q, hq, rfl⟩ := mem_map.mp hmem
      rw [pathLang_append] at hw
      obtain ⟨a, ha, b, hb, rfl⟩ := Language.mem_mul.mp hw
      exact ⟨a, (lang_eq_paths hfree.1 hext.1 a).mpr ⟨p, hp, ha⟩, b,
        (seqLang_eq_paths hfree.2 hext.2 b).mpr ⟨q, hq, hb⟩, rfl⟩

theorem choiceLang_eq_paths : ∀ {es : List Rule}, RepeatFreeAll es → ExtractedAll es →
    ∀ w : List Symbol,
      (w ∈ choiceLang tokenLeaf env es ↔ ∃ p ∈ choicePaths es, w ∈ pathLang env p)
  | [], _, _, w => by simp [choiceLang, choicePaths]
  | e :: es, hfree, hext, w => by
    rw [choiceLang, Language.mem_add, lang_eq_paths hfree.1 hext.1,
      choiceLang_eq_paths hfree.2 hext.2, choicePaths]
    simp only [mem_append, or_and_right, exists_or]

end

end Languages

/-! ### The walk -/

theorem leaves_andThen (w : FlattenWalk) (k : Bool × FlattenState → FlattenWalk) :
    (w.andThen k).leaves = w.leaves.flatMap fun
      | .ok result => (k result).leaves
      | .error e => [.error e] := by
  rw [FlattenWalk.andThen, Walk.leaves_bind]
  congr 1
  funext result
  cases result <;> rfl

mutual

theorem applyRule_positive (ids : String → Option Nat) : ∀ (r : Rule) (ctx : FlattenCtx)
    (atEnd : Bool) (st : FlattenState), (applyRule ids r ctx atEnd st).Positive
  | .sym _, _, _, _ => trivial
  | .seq es, ctx, atEnd, st => applySeq_positive ids es ctx atEnd false st
  | .choice es, ctx, atEnd, st => by
    rw [applyRule]
    split
    · trivial
    · rename_i hne
      refine ⟨?_, fun i => applyNth_positive ids es i ctx atEnd st⟩
      rwa [length_pos_iff, ← isEmpty_eq_false_iff, ← Bool.not_eq_true]
  | .eof, _, _, _ => trivial
  | .metadata params r, ctx, atEnd, st => by
    rw [applyRule]
    refine (applyRule_positive ids r _ atEnd _).bind fun result => ?_
    cases result <;> trivial
  | .reserved r name, ctx, atEnd, st => by
    rw [applyRule]
    split
    · trivial
    · exact applyRule_positive ids r _ atEnd st
  | .blank, _, _, _ | .string _, _, _, _ | .pattern _ _, _, _, _ | .namedSymbol _, _, _, _
  | .repeat _, _, _, _ => trivial

theorem applySeq_positive (ids : String → Option Nat) : ∀ (es : List Rule) (ctx : FlattenCtx)
    (atEnd didPush : Bool) (st : FlattenState), (applySeq ids es ctx atEnd didPush st).Positive
  | [], _, _, _, _ => trivial
  | e :: es, ctx, atEnd, didPush, st => by
    rw [applySeq]
    refine (applyRule_positive ids e ctx _ st).bind fun result => ?_
    cases result with
    | error e => trivial
    | ok result =>
      dsimp only
      split
      · trivial
      · exact applySeq_positive ids es ctx atEnd _ _

theorem applyNth_positive (ids : String → Option Nat) : ∀ (es : List Rule) (i : Nat)
    (ctx : FlattenCtx) (atEnd : Bool) (st : FlattenState),
    (applyNth ids es i ctx atEnd st).Positive
  | [], _, _, _, _ => trivial
  | e :: _, 0, ctx, atEnd, st => applyRule_positive ids e ctx atEnd st
  | _ :: es, i + 1, ctx, atEnd, st => applyNth_positive ids es i ctx atEnd st

end

def FlattenState.syms (st : FlattenState) : List Symbol := st.steps.map ProductionStep.symbol

/-- The symbols of an outcome that is not dead. -/
def aliveSymbols : Except FlattenGrammarError (Bool × FlattenState) → Option (List Symbol)
  | .ok (_, st) => if st.dead then none else some st.syms
  | .error _ => none

theorem syms_modifyLast (st : FlattenState) {f : ProductionStep → ProductionStep}
    (hf : ∀ step, (f step).symbol = step.symbol) : (st.modifyLast f).syms = st.syms := by
  refine ext_getElem (by simp [FlattenState.modifyLast, FlattenState.syms]) fun k hk hk' => ?_
  simp only [FlattenState.modifyLast, FlattenState.syms, getElem_map, getElem_modify]
  split
  · exact hf _
  · rfl

theorem aliveSymbols_restoreOuter (params : MetadataParams) (ctx : FlattenCtx) (atEnd : Bool)
    (result : Bool × FlattenState) :
    aliveSymbols (.ok (restoreOuter params ctx atEnd result)) = aliveSymbols (.ok result) := by
  have hprec : ∀ st : FlattenState, (st.restoreOuterPrec ctx.prec).syms = st.syms :=
    fun st => syms_modifyLast st fun _ => rfl
  have hassoc : ∀ st : FlattenState, (st.restoreOuterAssoc ctx.assoc).syms = st.syms :=
    fun st => syms_modifyLast st fun _ => rfl
  have hdead : ∀ (st : FlattenState) (f : ProductionStep → ProductionStep),
      (st.modifyLast f).dead = st.dead := fun _ _ => rfl
  unfold restoreOuter
  split
  · unfold aliveSymbols
    split_ifs <;>
      simp_all [FlattenState.restoreOuterPrec, FlattenState.restoreOuterAssoc]
  · rfl

/-- No outcome is an error. -/
def AllOk (w : FlattenWalk) : Prop := ∀ result ∈ w.leaves, ∃ x, result = .ok x

theorem filterMap_andThen {w : FlattenWalk} {k : Bool × FlattenState → FlattenWalk}
    (ps qs : List (List Symbol)) (pre : List Symbol) (hok : AllOk (w.andThen k))
    (hw : AllOk w → w.leaves.filterMap aliveSymbols = ps.map (pre ++ ·))
    (hdead : ∀ x : Bool × FlattenState, x.2.dead = true → (k x).leaves.filterMap aliveSymbols = [])
    (halive : ∀ x : Bool × FlattenState, x.2.dead = false → AllOk (k x) →
      (k x).leaves.filterMap aliveSymbols = qs.map (x.2.syms ++ ·)) :
    (w.andThen k).leaves.filterMap aliveSymbols =
      (ps.flatMap fun p => qs.map (p ++ ·)).map (pre ++ ·) := by
  have hleaves := leaves_andThen w k
  have hwok : AllOk w := by
    intro result hresult
    cases result with
    | ok x => exact ⟨x, rfl⟩
    | error e =>
      refine hok (.error e) ?_
      rw [hleaves, mem_flatMap]
      exact ⟨_, hresult, by simp⟩
  have hkok : ∀ x, .ok x ∈ w.leaves → AllOk (k x) := by
    intro x hx result hresult
    refine hok result ?_
    rw [hleaves, mem_flatMap]
    exact ⟨_, hx, hresult⟩
  have hstep : ∀ result ∈ w.leaves, (match result with
      | .ok x => (k x).leaves
      | .error e => [.error e]).filterMap aliveSymbols =
        (aliveSymbols result).toList.flatMap fun p => qs.map (p ++ ·) := by
    intro result hresult
    obtain ⟨x, rfl⟩ := hwok result hresult
    cases hx : x.2.dead with
    | true => simp [hdead x hx, aliveSymbols, hx]
    | false => simp [halive x hx (hkok x hresult), aliveSymbols, hx]
  have hfilter : ∀ results : List (Except FlattenGrammarError (Bool × FlattenState)),
      (∀ result ∈ results, result ∈ w.leaves) →
      (results.flatMap fun
        | .ok x => (k x).leaves
        | .error e => [.error e]).filterMap aliveSymbols =
        (results.filterMap aliveSymbols).flatMap fun p => qs.map (p ++ ·) := by
    intro results
    induction results with
    | nil => exact fun _ => rfl
    | cons result results ih =>
      intro hsub
      rw [flatMap_cons, filterMap_append, hstep result (hsub _ mem_cons_self),
        ih fun r hr => hsub r (mem_cons_of_mem _ hr)]
      cases halive' : aliveSymbols result with
      | none => rw [filterMap_cons_none halive']; rfl
      | some p => rw [filterMap_cons_some halive']; simp
  rw [hleaves, hfilter _ fun _ h => h, hw hwok, map_flatMap, flatMap_map]
  simp [Function.comp_def, append_assoc]

mutual

/-- **The outcomes of a walk are the paths of the rule**, behind the steps so far. -/
theorem leaves_applyRule (ids : String → Option Nat) : ∀ (r : Rule) (ctx : FlattenCtx)
    (atEnd : Bool) (st : FlattenState), st.dead = false → AllOk (applyRule ids r ctx atEnd st) →
    (applyRule ids r ctx atEnd st).leaves.filterMap aliveSymbols = (paths r).map (st.syms ++ ·)
  | .sym s, ctx, _, st, hst, _ | .eof, ctx, _, st, hst, _ => by
    simp [applyRule, Walk.leaves, aliveSymbols, paths, FlattenState.pushStep, FlattenState.syms,
      hst]
  | .blank, _, _, st, hst, _ | .string _, _, _, st, hst, _ | .pattern _ _, _, _, st, hst, _
  | .namedSymbol _, _, _, st, hst, _ | .repeat _, _, _, st, hst, _ =>
    by simp [applyRule, Walk.leaves, aliveSymbols, paths, hst]
  | .seq es, ctx, atEnd, st, hst, hok => leaves_applySeq ids es ctx atEnd false st hst hok
  | .choice es, ctx, atEnd, st, hst, hok => by
    rw [applyRule] at hok ⊢
    split at hok
    · rename_i hempty
      rw [List.isEmpty_iff] at hempty
      subst hempty
      simp [Walk.leaves, aliveSymbols, paths, choicePaths]
    · rename_i hne
      rw [if_neg hne, paths, Walk.leaves]
      refine leaves_applyNth ids es ctx atEnd st hst fun i hi result hresult => ?_
      exact hok result (mem_flatMap.mpr ⟨i, mem_range.mpr hi, hresult⟩)
  | .metadata params r, ctx, atEnd, st, hst, hok => by
    rw [applyRule] at hok ⊢
    rw [filterMap_andThen (paths r) [[]] st.syms hok
      (fun hok => leaves_applyRule ids r _ atEnd _ hst hok) (fun x hx => ?_) fun x hx _ => ?_]
    · simp [paths]
    · rw [Walk.leaves, filterMap_cons_none]
      · rfl
      · rw [aliveSymbols_restoreOuter]
        simp [aliveSymbols, hx]
    · rw [Walk.leaves, filterMap_cons_some (b := x.2.syms)]
      · simp
      · rw [aliveSymbols_restoreOuter]
        simp [aliveSymbols, hx]
  | .reserved r name, ctx, atEnd, st, hst, hok => by
    rw [applyRule] at hok ⊢
    cases hid : ids name with
    | none =>
      obtain ⟨x, hx⟩ := hok (.error (.noReservedWordSet name)) (by simp [hid, Walk.leaves])
      cases hx
    | some id =>
      rw [hid] at hok
      exact leaves_applyRule ids r _ atEnd st hst hok

theorem leaves_applySeq (ids : String → Option Nat) : ∀ (es : List Rule) (ctx : FlattenCtx)
    (atEnd didPush : Bool) (st : FlattenState), st.dead = false →
    AllOk (applySeq ids es ctx atEnd didPush st) →
    (applySeq ids es ctx atEnd didPush st).leaves.filterMap aliveSymbols =
      (seqPaths es).map (st.syms ++ ·)
  | [], _, _, _, st, hst, _ => by simp [applySeq, Walk.leaves, aliveSymbols, seqPaths, hst]
  | e :: es, ctx, atEnd, didPush, st, hst, hok => by
    rw [applySeq] at hok ⊢
    refine filterMap_andThen _ _ _ hok (fun hok => leaves_applyRule ids e ctx _ st hst hok)
      (fun x hx => ?_) fun x hx hok => ?_
    · simp [hx, Walk.leaves, aliveSymbols]
    · rw [if_neg (by simp [hx])] at hok ⊢
      exact leaves_applySeq ids es ctx atEnd _ _ hx hok

theorem leaves_applyNth (ids : String → Option Nat) : ∀ (es : List Rule) (ctx : FlattenCtx)
    (atEnd : Bool) (st : FlattenState), st.dead = false →
    (∀ i < es.length, AllOk (applyNth ids es i ctx atEnd st)) →
    ((List.range es.length).flatMap fun i =>
      (applyNth ids es i ctx atEnd st).leaves).filterMap aliveSymbols =
        (choicePaths es).map (st.syms ++ ·)
  | [], _, _, _, _, _ => rfl
  | e :: es, ctx, atEnd, st, hst, hok => by
    rw [length_cons, range_succ_eq_map, flatMap_cons, filterMap_append, choicePaths, map_append]
    congr 1
    · exact leaves_applyRule ids e ctx atEnd st hst (hok 0 (Nat.succ_pos _))
    · rw [flatMap_map]
      exact leaves_applyNth ids es ctx atEnd st hst fun i hi => hok (i + 1) (Nat.succ_lt_succ hi)

end

/-! ### Productions -/

def produced (st : FlattenState) : Option Production :=
  match st.steps.findIdx? fun step => step.symbol = .eof with
  | none => some ⟨st.steps, st.dynPrec, false⟩
  | some eofIndex =>
    if eofIndex ≠ st.steps.length - 1 then none else some ⟨st.steps.dropLast, st.dynPrec, true⟩

theorem emit_eq (productions : List Production) (st : FlattenState) :
    emit productions st = (produced st).map (emitReady productions) := by
  unfold emit produced
  cases st.steps.findIdx? fun step => step.symbol = .eof with
  | none => rfl
  | some eofIndex =>
    dsimp only
    split <;> rfl

theorem mem_emitReady {productions : List Production} {p q : Production} :
    q ∈ emitReady productions p ↔ q ∈ productions ∨ q = p := by
  unfold emitReady
  split
  · rename_i hmem
    exact ⟨Or.inl, fun h => h.elim id fun heq => heq ▸ hmem⟩
  · simp

theorem foldlM_flattenPath : ∀ {results : List (Except FlattenGrammarError (Bool × FlattenState))}
    {out out' : Flattened}, results.foldlM flattenPath out = .ok out' →
    (∀ result ∈ results, ∃ x, result = .ok x) ∧
      ∀ p, p ∈ out'.productions ↔ p ∈ out.productions ∨
        ∃ (d : Bool) (st : FlattenState), .ok (d, st) ∈ results ∧ st.dead = false ∧
          produced st = some p
  | [], out, _, h => by
    cases h
    exact ⟨by simp, by simp⟩
  | result :: results, out, out', h => by
    obtain ⟨out₁, hstep, h⟩ := bind_eq_ok.mp h
    obtain ⟨hok, hmem⟩ := foldlM_flattenPath h
    unfold flattenPath at hstep
    obtain ⟨⟨d, st⟩, rfl, hpath⟩ := bind_eq_ok.mp hstep
    refine ⟨forall_mem_cons.mpr ⟨⟨_, rfl⟩, hok⟩, fun p => ?_⟩
    have hfirst : p ∈ out₁.productions ↔
        p ∈ out.productions ∨ st.dead = false ∧ produced st = some p := by
      dsimp only at hpath
      rw [emit_eq] at hpath
      split at hpath
      · rename_i hdead
        cases hpath
        simp [hdead]
      · rename_i hdead
        cases hproduced : produced st with
        | none =>
          rw [hproduced] at hpath
          cases hpath
          simp
        | some q =>
          rw [hproduced] at hpath
          cases hpath
          rw [mem_emitReady]
          simp [hdead, eq_comm]
    rw [hmem, hfirst, or_assoc]
    refine or_congr_right ⟨?_, ?_⟩
    · rintro (⟨hdead, hp⟩ | ⟨d', st', hmem, hp⟩)
      · exact ⟨d, st, mem_cons_self, hdead, hp⟩
      · exact ⟨d', st', mem_cons_of_mem _ hmem, hp⟩
    · rintro ⟨d', st', hmem, hp⟩
      rcases mem_cons.mp hmem with heq | hmem
      · cases heq
        exact Or.inl hp
      · exact Or.inr ⟨d', st', hmem, hp⟩

/-- Nothing follows `eof()`. -/
def EofLast (p : List Symbol) : Prop := .eof ∉ p.dropLast

theorem eofLast_of_produced {st : FlattenState} {p : Production} (h : produced st = some p) :
    EofLast st.syms := by
  intro hmem
  obtain ⟨k, hk, hget⟩ := mem_iff_getElem.mp hmem
  simp only [FlattenState.syms, length_dropLast, length_map] at hk
  rw [getElem_dropLast] at hget
  simp only [FlattenState.syms, getElem_map] at hget
  unfold produced at h
  cases hfind : st.steps.findIdx? fun step => step.symbol = .eof with
  | none =>
    rw [findIdx?_eq_none_iff] at hfind
    have hne := hfind _ (getElem_mem (by omega : k < st.steps.length))
    simp [hget] at hne
  | some eofIndex =>
    obtain ⟨hlt, heof, hbefore⟩ := findIdx?_eq_some_iff_getElem.mp hfind
    rw [hfind] at h
    dsimp only at h
    split at h
    · cases h
    · have hne := hbefore k (by omega)
      simp [hget] at hne

theorem produced_lang {st : FlattenState} (h : EofLast st.syms) (env : Nat → Language Symbol) :
    ∃ p, produced st = some p ∧ p.lang env = pathLang env st.syms := by
  unfold produced
  cases hfind : st.steps.findIdx? fun step => step.symbol = .eof with
  | none =>
    refine ⟨_, rfl, ?_⟩
    rw [Production.lang, if_neg (by simp), append_nil]
    rfl
  | some eofIndex =>
    obtain ⟨hlt, heof, -⟩ := findIdx?_eq_some_iff_getElem.mp hfind
    rw [decide_eq_true_eq] at heof
    have hlast : eofIndex = st.steps.length - 1 := by
      by_contra hne
      refine h (mem_iff_getElem.mpr ⟨eofIndex, ?_, ?_⟩)
      · simp only [FlattenState.syms, length_dropLast, length_map]
        omega
      · simpa [FlattenState.syms] using heof
    have hne : st.steps ≠ [] := ne_nil_of_length_pos (by omega)
    have hgetLast : (st.steps.getLast hne).symbol = .eof := by
      rw [getLast_eq_getElem]
      simpa only [hlast] using heof
    dsimp only
    rw [if_neg (by simpa using hlast)]
    refine ⟨_, rfl, ?_⟩
    rw [Production.lang, if_pos rfl, FlattenState.syms, ← hgetLast,
      ← map_singleton (f := ProductionStep.symbol), ← map_append, dropLast_append_getLast]

/-- **The productions of a variable have the language of the paths with nothing behind
`eof()`.** -/
theorem flattenVariable_lang {ids : String → Option Nat} {v : Variable} {ps : List Production}
    (h : flattenVariable ids v = .ok ps) (env : Nat → Language Symbol) (w : List Symbol) :
    w ∈ (⨆ p ∈ ps, p.lang env) ↔ ∃ q ∈ paths v.root, EofLast q ∧ w ∈ pathLang env q := by
  obtain ⟨out, hloop, h⟩ := bind_eq_ok.mp h
  rw [Walk.forEach_eq (applyRule_positive ids v.root {} true {})] at hloop
  obtain ⟨hok, hmem⟩ := foldlM_flattenPath hloop
  have hps : ps = out.productions := by
    split at h
    · cases h
    · cases h
      rfl
  have hpaths := leaves_applyRule ids v.root {} true {} rfl hok
  have hsyms : ∀ q, q ∈ paths v.root ↔ ∃ (d : Bool) (st : FlattenState),
      .ok (d, st) ∈ (applyRule ids v.root {} true {}).leaves ∧ st.dead = false ∧ st.syms = q := by
    intro q
    have hq : q ∈ (paths v.root).map (({} : FlattenState).syms ++ ·) ↔ q ∈ paths v.root := by
      simp [FlattenState.syms]
    rw [← hq, ← hpaths, mem_filterMap]
    constructor
    · rintro ⟨result, hresult, halive⟩
      obtain ⟨⟨d, st⟩, rfl⟩ := hok result hresult
      cases hdead : st.dead with
      | true => simp [aliveSymbols, hdead] at halive
      | false => exact ⟨d, st, hresult, hdead, by simpa [aliveSymbols, hdead] using halive⟩
    · rintro ⟨d, st, hresult, hdead, rfl⟩
      exact ⟨_, hresult, by simp [aliveSymbols, hdead]⟩
  simp only [Language.mem_iSup]
  constructor
  · rintro ⟨p, hp, hw⟩
    obtain ⟨d, st, hleaf, hdead, hproduced⟩ :=
      ((hmem p).mp (hps ▸ hp)).resolve_left not_mem_nil
    have heof := eofLast_of_produced hproduced
    obtain ⟨p', hp', hlang⟩ := produced_lang heof env
    obtain rfl := Option.some_inj.mp (hproduced.symm.trans hp')
    exact ⟨st.syms, (hsyms st.syms).mpr ⟨d, st, hleaf, hdead, rfl⟩, heof, hlang ▸ hw⟩
  · rintro ⟨q, hq, heof, hw⟩
    obtain ⟨d, st, hleaf, hdead, rfl⟩ := (hsyms q).mp hq
    obtain ⟨p, hp, hlang⟩ := produced_lang heof env
    refine ⟨p, ?_, hlang ▸ hw⟩
    rw [hps]
    exact (hmem p).mpr (Or.inr ⟨d, st, hleaf, hdead, hp⟩)

/-! ### The two passes together -/

theorem repeatFreeAll_iff {es : List Rule} : RepeatFreeAll es ↔ ∀ e ∈ es, e.RepeatFree := by
  induction es with
  | nil => simp [RepeatFreeAll]
  | cons e es ih => simp [RepeatFreeAll, ih]

theorem extractedAll_iff {es : List Rule} : ExtractedAll es ↔ ∀ e ∈ es, e.Extracted := by
  induction es with
  | nil => simp [ExtractedAll]
  | cons e es ih => simp [ExtractedAll, ih]

mutual

theorem forall_choiceLeaves {P : Rule → Prop}
    (hchoice : ∀ es, P (.choice es) ↔ ∀ e ∈ es, P e) :
    ∀ r : Rule, (∀ x ∈ choiceLeaves r, P x) ↔ P r
  | .choice es => (forall_choiceLeavesAll hchoice es).trans (hchoice es).symm
  | .blank | .string _ | .pattern _ _ | .namedSymbol _ | .sym _ | .seq _ | .repeat _ | .eof
  | .metadata _ _ | .reserved _ _ => forall_mem_singleton

theorem forall_choiceLeavesAll {P : Rule → Prop}
    (hchoice : ∀ es, P (.choice es) ↔ ∀ e ∈ es, P e) :
    ∀ rs : List Rule, (∀ x ∈ choiceLeavesAll rs, P x) ↔ ∀ r ∈ rs, P r
  | [] => by simp [choiceLeavesAll]
  | r :: rs => by
    rw [choiceLeavesAll, forall_mem_append, forall_choiceLeaves hchoice r,
      forall_choiceLeavesAll hchoice rs, forall_mem_cons]

end

theorem mem_foldl_push {rs elements : List Rule} {x : Rule} :
    x ∈ rs.foldl pushUnlessEqual elements ↔ x ∈ elements ∨ x ∈ rs := by
  induction rs generalizing elements with
  | nil => simp
  | cons r rs ih =>
    rw [foldl_cons, ih, pushUnlessEqual]
    split
    · rename_i hmem
      rw [mem_cons]
      exact ⟨fun h => h.imp_right Or.inr,
        fun h => h.elim Or.inl fun h => h.elim (fun h => Or.inl (h ▸ hmem)) Or.inr⟩
    · simp [or_assoc]

/-- Such a property holds of the rule of an auxiliary variable if it does of the content. -/
theorem wrapInBinaryTree_iff {P : Rule → Prop} (hchoice : ∀ es, P (.choice es) ↔ ∀ e ∈ es, P e)
    {s : Symbol} (hseq : P (.seq [.sym s, .sym s])) (inner : Rule) :
    P (wrapInBinaryTree s inner) ↔ P inner := by
  have helements : (∀ x ∈ (choiceLeaves inner).foldl pushUnlessEqual [.seq [.sym s, .sym s]], P x) ↔
      P inner := by
    rw [← forall_choiceLeaves hchoice inner]
    simp only [mem_foldl_push, mem_singleton]
    exact ⟨fun h x hx => h x (Or.inr hx), fun h x hx => hx.elim (fun h => h ▸ hseq) (h x)⟩
  rw [← helements, wrapInBinaryTree]
  split
  · rename_i element heq
    rw [heq, forall_mem_singleton]
  · exact hchoice _

theorem repeatFree_wrap {i : Nat} {inner : Rule} :
    (wrapInBinaryTree (.nonTerminal i) inner).RepeatFree ↔ inner.RepeatFree :=
  wrapInBinaryTree_iff (fun _ => repeatFreeAll_iff) ⟨trivial, trivial, trivial⟩ inner

theorem extracted_wrap {i : Nat} {inner : Rule} :
    (wrapInBinaryTree (.nonTerminal i) inner).Extracted ↔ inner.Extracted :=
  wrapInBinaryTree_iff (fun _ => extractedAll_iff) ⟨trivial, trivial, trivial⟩ inner

section ExpandedRule

variable {n : Nat} {contents : List Rule}

mutual

theorem ExpandedRule.repeatFree : ∀ {r r' : Rule}, ExpandedRule n contents r r' →
    r.ReservedRepeatFree → r'.RepeatFree
  | .repeat _, _, ⟨_, _, _, _, rfl⟩, _ => trivial
  | .seq _, _, ⟨_, hes, rfl⟩, h | .choice _, _, ⟨_, hes, rfl⟩, h => hes.repeatFree h
  | .metadata _ _, _, ⟨_, hr, rfl⟩, h => hr.repeatFree h
  | .blank, _, rfl, _ | .string _, _, rfl, _ | .pattern _ _, _, rfl, _ | .namedSymbol _, _, rfl, _
  | .sym _, _, rfl, _ | .eof, _, rfl, _ => trivial
  | .reserved _ _, _, rfl, h => h

theorem ExpandedAll.repeatFree : ∀ {es es' : List Rule}, ExpandedAll n contents es es' →
    ReservedRepeatFreeAll es → RepeatFreeAll es'
  | [], _, rfl, _ => trivial
  | _ :: _, _, ⟨_, _, he, hes, rfl⟩, h => ⟨he.repeatFree h.1, hes.repeatFree h.2⟩

end

mutual

theorem ExpandedRule.reservedRepeatFree (hcontents : ∀ c ∈ contents, c.RepeatFree) :
    ∀ {r r' : Rule}, ExpandedRule n contents r r' → r'.RepeatFree → r.ReservedRepeatFree
  | .repeat c, _, ⟨k, c', hk, hc, rfl⟩, _ =>
    (hc.reservedRepeatFree hcontents (hcontents c' (mem_of_getElem? hk)) : c.ReservedRepeatFree)
  | .seq _, _, ⟨_, hes, rfl⟩, h | .choice _, _, ⟨_, hes, rfl⟩, h =>
    hes.reservedRepeatFree hcontents h
  | .metadata _ r, _, ⟨_, hr, rfl⟩, h =>
    (hr.reservedRepeatFree hcontents h : r.ReservedRepeatFree)
  | .blank, _, rfl, _ | .string _, _, rfl, _ | .pattern _ _, _, rfl, _ | .namedSymbol _, _, rfl, _
  | .sym _, _, rfl, _ | .eof, _, rfl, _ => trivial
  | .reserved _ _, _, rfl, h => h

theorem ExpandedAll.reservedRepeatFree (hcontents : ∀ c ∈ contents, c.RepeatFree) :
    ∀ {es es' : List Rule}, ExpandedAll n contents es es' → RepeatFreeAll es' →
      ReservedRepeatFreeAll es
  | [], _, rfl, _ => trivial
  | _ :: _, _, ⟨_, _, he, hes, rfl⟩, h =>
    ⟨he.reservedRepeatFree hcontents h.1, hes.reservedRepeatFree hcontents h.2⟩

end

mutual

theorem ExpandedRule.extracted : ∀ {r r' : Rule}, ExpandedRule n contents r r' → r.Extracted → r'.Extracted
  | .repeat _, _, ⟨_, _, _, _, rfl⟩, _ => trivial
  | .seq _, _, ⟨_, hes, rfl⟩, h | .choice _, _, ⟨_, hes, rfl⟩, h => hes.extracted h
  | .metadata _ _, _, ⟨_, hr, rfl⟩, h => hr.extracted h
  | .blank, _, rfl, _ => trivial
  | .string _, _, rfl, h | .pattern _ _, _, rfl, h | .namedSymbol _, _, rfl, h => h
  | .sym _, _, rfl, _ | .eof, _, rfl, _ => trivial
  | .reserved _ _, _, rfl, h => h

theorem ExpandedAll.extracted : ∀ {es es' : List Rule}, ExpandedAll n contents es es' →
    ExtractedAll es → ExtractedAll es'
  | [], _, rfl, _ => trivial
  | _ :: _, _, ⟨_, _, he, hes, rfl⟩, h => ⟨he.extracted h.1, hes.extracted h.2⟩

end

end ExpandedRule

mutual

theorem mem_repeatContents : ∀ {r c : Rule}, c ∈ repeatContents r →
    (r.ReservedRepeatFree → c.ReservedRepeatFree) ∧ (r.Extracted → c.Extracted) ∧
      ∀ n, r.ScopedBy n → c.ScopedBy n
  | .repeat r, c, hc => by
    rcases mem_cons.mp hc with rfl | hc
    · exact ⟨id, id, fun _ => id⟩
    · exact mem_repeatContents (r := r) hc
  | .seq _, _, hc | .choice _, _, hc => mem_repeatContentsAll hc
  | .metadata _ r, _, hc => mem_repeatContents (r := r) hc
  | .blank, _, hc | .string _, _, hc | .pattern _ _, _, hc | .namedSymbol _, _, hc | .sym _, _, hc
  | .eof, _, hc | .reserved _ _, _, hc => absurd hc not_mem_nil

theorem mem_repeatContentsAll : ∀ {rs : List Rule} {c : Rule}, c ∈ repeatContentsAll rs →
    (ReservedRepeatFreeAll rs → c.ReservedRepeatFree) ∧ (ExtractedAll rs → c.Extracted) ∧
      ∀ n, ScopedAll n rs → c.ScopedBy n
  | [], _, hc => absurd hc not_mem_nil
  | r :: rs, c, hc => by
    rcases mem_append.mp hc with hc | hc
    · obtain ⟨hfree, hext, hscoped⟩ := mem_repeatContents hc
      exact ⟨fun h => hfree h.1, fun h => hext h.1, fun n h => hscoped n h.1⟩
    · obtain ⟨hfree, hext, hscoped⟩ := mem_repeatContentsAll hc
      exact ⟨fun h => hfree h.2, fun h => hext h.2, fun n h => hscoped n h.2⟩

end

section Shape

variable {g g' : InputGrammar} {contents : List Rule}

/-- A rule of the expanded grammar is the expansion of a rule, or of the content of one behind
its binary tree. -/
theorem Shape.root_cases (h : Shape g g' contents) {r' : Rule} (hr' : r' ∈ g'.roots) :
    ∃ r c' : Rule, ExpandedRule g.vars.length contents r c' ∧
      (∃ v ∈ g.vars, r = v.root ∨ r ∈ repeatContents v.root) ∧
      (r' = c' ∨ ∃ i, r' = wrapInBinaryTree (.nonTerminal i) c') := by
  obtain ⟨i, hi⟩ := mem_iff_getElem?.mp hr'
  obtain ⟨v', hv', rfl⟩ := getElem?_roots.mp hi
  rcases Nat.lt_or_ge i g.vars.length with hlt | hge
  · have hv : g.vars[i]? = some g.vars[i] := getElem?_eq_getElem hlt
    have hvar := h.original i _ v' hv hv'
    have hmem := mem_of_getElem? hv
    cases hhidden : hiddenRepeat g.vars[i] with
    | none => exact ⟨_, _, (hvar.other hhidden).2, ⟨_, hmem, Or.inl rfl⟩, Or.inl rfl⟩
    | some c =>
      obtain ⟨-, c', hexpanded, hroot⟩ := hvar.hidden c hhidden
      refine ⟨c, c', hexpanded, ⟨_, hmem, Or.inr ?_⟩, Or.inr ⟨i, hroot⟩⟩
      rw [hiddenRepeat_eq_some hhidden]
      exact mem_cons_self
  · have hlt : i < g.vars.length + contents.length := by
      rw [← h.length]
      exact (List.getElem?_eq_some_iff.mp hv').1
    have hk : contents[i - g.vars.length]? = some contents[i - g.vars.length] :=
      getElem?_eq_getElem (by omega)
    have haux := h.aux _ _ hk
    rw [Nat.add_sub_cancel' hge, hi] at haux
    obtain ⟨v, hv, c, hc, hexpanded⟩ := h.origin _ (mem_of_getElem? hk)
    exact ⟨c, _, hexpanded, ⟨v, hv, Or.inr hc⟩, Or.inr ⟨_, Option.some_inj.mp haux⟩⟩

theorem mem_roots {g : InputGrammar} {v : Variable} (hv : v ∈ g.vars) : v.root ∈ g.roots :=
  mem_map.mpr ⟨v, hv, rfl⟩

theorem Shape.extracted (h : Shape g g' contents) (hext : ∀ r ∈ g.roots, r.Extracted) :
    ∀ r ∈ g'.roots, r.Extracted := by
  intro r' hr'
  obtain ⟨r, c', hexpanded, ⟨v, hv, hr⟩, hroot⟩ := h.root_cases hr'
  have hrext : r.Extracted := by
    rcases hr with rfl | hr
    · exact hext _ (mem_roots hv)
    · exact (mem_repeatContents hr).2.1 (hext _ (mem_roots hv))
  rcases hroot with rfl | ⟨i, rfl⟩
  · exact hexpanded.extracted hrext
  · exact extracted_wrap.mpr (hexpanded.extracted hrext)

/-- **No `Repeat` node is left if none was inside of a `Reserved` node**, and only then. -/
theorem Shape.repeatFree_iff (h : Shape g g' contents) :
    (∀ r ∈ g'.roots, r.RepeatFree) ↔ ∀ r ∈ g.roots, r.ReservedRepeatFree := by
  constructor
  · intro hfree r hr
    have hcontents : ∀ c ∈ contents, c.RepeatFree := by
      intro c hc
      obtain ⟨k, hk⟩ := mem_iff_getElem?.mp hc
      exact repeatFree_wrap.mp (hfree _ (mem_of_getElem? (h.aux k c hk)))
    obtain ⟨i, hi⟩ := mem_iff_getElem?.mp hr
    obtain ⟨v, hv, rfl⟩ := getElem?_roots.mp hi
    have hlt := (List.getElem?_eq_some_iff.mp hv).1
    obtain ⟨v', hv'⟩ : ∃ v', g'.vars[i]? = some v' :=
      ⟨_, getElem?_eq_getElem (by rw [h.length]; omega)⟩
    have hvar := h.original i v v' hv hv'
    have hfree' := hfree _ (mem_roots (mem_of_getElem? hv'))
    cases hhidden : hiddenRepeat v with
    | none => exact (hvar.other hhidden).2.reservedRepeatFree hcontents hfree'
    | some c =>
      obtain ⟨-, c', hexpanded, hroot⟩ := hvar.hidden c hhidden
      rw [hroot, repeatFree_wrap] at hfree'
      rw [hiddenRepeat_eq_some hhidden]
      exact hexpanded.reservedRepeatFree hcontents hfree'
  · intro hreserved r' hr'
    obtain ⟨r, c', hexpanded, ⟨v, hv, hr⟩, hroot⟩ := h.root_cases hr'
    have hrfree : r.ReservedRepeatFree := by
      rcases hr with rfl | hr
      · exact hreserved _ (mem_roots hv)
      · exact (mem_repeatContents hr).1 (hreserved _ (mem_roots hv))
    rcases hroot with rfl | ⟨i, rfl⟩
    · exact hexpanded.repeatFree hrfree
    · exact repeatFree_wrap.mpr (hexpanded.repeatFree hrfree)

end Shape

/-! ### Ends of the input -/

section Eof

theorem eofLast_nil : EofLast [] := not_mem_nil

theorem EofLast.of_append {p q : List Symbol} (h : EofLast (p ++ q)) : EofLast p ∧ EofLast q := by
  unfold EofLast at h ⊢
  rw [dropLast_append] at h
  split at h
  · rename_i hempty
    rw [List.isEmpty_iff] at hempty
    subst hempty
    exact ⟨h, eofLast_nil⟩
  · rw [mem_append, not_or] at h
    exact ⟨fun hmem => h.1 (mem_of_mem_dropLast hmem), h.2⟩

theorem EofLast.eq_nil {p q : List Symbol} (h : EofLast (p ++ .eof :: q)) : q = [] := by
  by_contra hne
  refine h ?_
  rw [dropLast_append, if_neg (by simp), dropLast_cons_of_ne_nil hne]
  simp

theorem exists_of_not_eofLast {p : List Symbol} (h : ¬ EofLast p) :
    ∃ q r, p = q ++ .eof :: r ∧ r ≠ [] := by
  rw [EofLast, not_not] at h
  have hne : p ≠ [] := by
    intro heq
    rw [heq] at h
    exact not_mem_nil h
  obtain ⟨q, r, hqr⟩ := append_of_mem h
  refine ⟨q, r ++ [p.getLast hne], ?_, by simp⟩
  rw [← cons_append, ← append_assoc, ← hqr, dropLast_append_getLast]

variable {env env' : Nat → Language Symbol}

theorem mem_pathLang_cons {s : Symbol} {p w : List Symbol} :
    w ∈ pathLang env (s :: p) ↔ ∃ a ∈ symbolLang env s, ∃ b ∈ pathLang env p, a ++ b = w := by
  rfl

theorem mem_pathLang_of_parts {p : List Symbol}
    (h : ∀ i w, EofLast w → w ∈ env i → w ∈ env' i) {w : List Symbol} (heof : EofLast w)
    (hw : w ∈ pathLang env p) : w ∈ pathLang env' p := by
  induction p generalizing w with
  | nil => exact hw
  | cons s p ih =>
    obtain ⟨a, ha, b, hb, rfl⟩ := mem_pathLang_cons.mp hw
    refine mem_pathLang_cons.mpr ⟨a, ?_, b, ih heof.of_append.2 hb, rfl⟩
    unfold symbolLang at ha ⊢
    split
    · rename_i hkind
      rw [if_pos hkind] at ha
      exact h _ a heof.of_append.1 ha
    · rename_i hkind
      rw [if_neg hkind] at ha
      exact ha

theorem pathLang_mono (h : env ≤ env') (p : List Symbol) : pathLang env p ≤ pathLang env' p := by
  induction p with
  | nil => exact le_rfl
  | cons s p ih =>
    intro w hw
    obtain ⟨a, ha, b, hb, rfl⟩ := mem_pathLang_cons.mp hw
    refine mem_pathLang_cons.mpr ⟨a, ?_, b, ih hb, rfl⟩
    unfold symbolLang at ha ⊢
    split
    · rename_i hkind
      rw [if_pos hkind] at ha
      exact h _ ha
    · rename_i hkind
      rw [if_neg hkind] at ha
      exact ha

theorem productionEquations_mono (store : ProductionStore) :
    Monotone fun env => productionEquations env store := by
  intro env env' h i
  dsimp only [productionEquations]
  split
  · exact iSup₂_mono fun p _ => pathLang_mono h _
  · exact le_rfl

end Eof

/-- What stands behind `eof()` in a path does not match the empty string. -/
def EofGuarded (env : Nat → Language Symbol) (p : List Symbol) : Prop :=
  ∀ q r, p = q ++ .eof :: r → r ≠ [] → [] ∉ pathLang env r

/-- What stands behind `eof()` in a sequence does not match the empty string, in the rules of the
variables and in what they repeat. -/
def InputGrammar.GuardsEof (g : InputGrammar) : Prop :=
  ∀ r ∈ g.roots, ∀ c ∈ r :: repeatContents r, ∀ items ∈ sequences c, ∀ before behind,
    items = before ++ .sym .eof :: behind → behind ≠ [] →
      [] ∉ seqLang tokenLeaf (languages tokenLeaf g.roots) behind

section Sequences

variable {n : Nat} {contents : List Rule}

mutual

theorem ExpandedRule.refl : ∀ {r : Rule}, r.RepeatFree → ExpandedRule n contents r r
  | .repeat _, h => absurd h id
  | .seq es, h | .choice es, h => ⟨es, ExpandedAll.refl h, rfl⟩
  | .metadata _ r, h => ⟨r, ExpandedRule.refl h, rfl⟩
  | .blank, _ | .string _, _ | .pattern _ _, _ | .namedSymbol _, _ | .sym _, _ | .eof, _
  | .reserved _ _, _ => rfl

theorem ExpandedAll.refl : ∀ {es : List Rule}, RepeatFreeAll es → ExpandedAll n contents es es
  | [], _ => rfl
  | e :: es, h => ⟨e, es, ExpandedRule.refl h.1, ExpandedAll.refl h.2, rfl⟩

end

/-- The items of a sequence, and the symbols that they are expanded to. -/
structure ExpandedItems (n : Nat) (contents : List Rule) (m : Nat) (items : List Rule)
    (p : List Symbol) : Prop where
  inScope : ∀ item ∈ items, item.ScopedBy m
  expanded : Forall₂ (ExpandedRule n contents) items (p.map .sym)

theorem ExpandedItems.singleton {m : Nat} {item : Rule} {s : Symbol} (hscoped : item.ScopedBy m)
    (h : ExpandedRule n contents item (.sym s)) : ExpandedItems n contents m [item] [s] :=
  ⟨forall_mem_singleton.mpr hscoped, .cons h .nil⟩

theorem ExpandedItems.nil {m : Nat} {p : List Symbol} (h : p ∈ [[]]) :
    ExpandedItems n contents m [] p := by
  obtain rfl := mem_singleton.mp h
  exact ⟨nofun, .nil⟩

mutual

theorem ExpandedRule.paths {m : Nat} : ∀ {r r' : Rule}, ExpandedRule n contents r r' →
    r'.RepeatFree → r.ScopedBy m → ∀ p ∈ paths r',
      ∃ items ∈ sequences r, ExpandedItems n contents m items p
  | .repeat c, _, ⟨k, c', hk, hc, rfl⟩, _, hscoped, p, hp => by
    obtain rfl := mem_singleton.mp hp
    exact ⟨[.repeat c], mem_singleton_self _, .singleton hscoped ⟨k, c', hk, hc, rfl⟩⟩
  | .seq _, _, ⟨_, hes, rfl⟩, hfree, hscoped, p, hp => hes.seqPaths hfree hscoped p hp
  | .choice _, _, ⟨_, hes, rfl⟩, hfree, hscoped, p, hp => hes.choicePaths hfree hscoped p hp
  | .metadata _ r, _, ⟨_, hr, rfl⟩, hfree, hscoped, p, hp =>
    ExpandedRule.paths (r := r) hr hfree hscoped p hp
  | .reserved r _, _, rfl, hfree, hscoped, p, hp =>
    ExpandedRule.paths (r := r) (ExpandedRule.refl hfree) hfree hscoped p hp
  | .sym s, _, rfl, _, hscoped, p, hp => by
    obtain rfl := mem_singleton.mp hp
    exact ⟨[.sym s], mem_singleton_self _, .singleton hscoped rfl⟩
  | .eof, _, rfl, _, _, p, hp => by
    obtain rfl := mem_singleton.mp hp
    exact ⟨[.sym .eof], mem_singleton_self _, .singleton nofun rfl⟩
  | .blank, _, rfl, _, _, _, hp | .string _, _, rfl, _, _, _, hp
  | .pattern _ _, _, rfl, _, _, _, hp | .namedSymbol _, _, rfl, _, _, _, hp =>
    ⟨[], mem_singleton_self _, .nil hp⟩

theorem ExpandedAll.seqPaths {m : Nat} : ∀ {es es' : List Rule}, ExpandedAll n contents es es' →
    RepeatFreeAll es' → ScopedAll m es → ∀ p ∈ seqPaths es',
      ∃ items ∈ seqSequences es, ExpandedItems n contents m items p
  | [], _, rfl, _, _, _, hp => ⟨[], mem_singleton_self _, .nil hp⟩
  | _ :: _, _, ⟨_, _, he, hes, rfl⟩, hfree, hscoped, p, hp => by
    obtain ⟨a, ha, hp⟩ := mem_flatMap.mp hp
    obtain ⟨b, hb, rfl⟩ := mem_map.mp hp
    obtain ⟨items, hitems, hscopedItems, hexpanded⟩ := he.paths hfree.1 hscoped.1 a ha
    obtain ⟨rest, hrest, hscopedRest, hexpandedRest⟩ := hes.seqPaths hfree.2 hscoped.2 b hb
    refine ⟨items ++ rest, mem_flatMap.mpr ⟨items, hitems, mem_map.mpr ⟨rest, hrest, rfl⟩⟩,
      forall_mem_append.mpr ⟨hscopedItems, hscopedRest⟩, ?_⟩
    exact map_append ▸ rel_append hexpanded hexpandedRest

theorem ExpandedAll.choicePaths {m : Nat} : ∀ {es es' : List Rule},
    ExpandedAll n contents es es' → RepeatFreeAll es' → ScopedAll m es → ∀ p ∈ choicePaths es',
      ∃ items ∈ choiceSequences es, ExpandedItems n contents m items p
  | [], _, rfl, _, _, _, hp => absurd hp not_mem_nil
  | _ :: _, _, ⟨_, _, he, hes, rfl⟩, hfree, hscoped, p, hp => by
    rcases mem_append.mp hp with hp | hp
    · obtain ⟨items, hitems, h⟩ := he.paths hfree.1 hscoped.1 p hp
      exact ⟨items, mem_append_left _ hitems, h⟩
    · obtain ⟨items, hitems, h⟩ := hes.choicePaths hfree.2 hscoped.2 p hp
      exact ⟨items, mem_append_right _ hitems, h⟩

end

theorem eq_eof_of_expanded : ∀ {r : Rule}, ExpandedRule n contents r (.sym .eof) → r = .sym .eof
  | .repeat _, ⟨_, _, _, _, h⟩ => by
    cases Rule.sym.inj h
  | .sym _, h => h.symm
  | .seq _, ⟨_, _, h⟩ | .choice _, ⟨_, _, h⟩ | .metadata _ _, ⟨_, _, h⟩ | .blank, h | .string _, h
  | .pattern _ _, h | .namedSymbol _, h | .eof, h | .reserved _ _, h => by cases h

theorem seqLang_of_expanded {env : Nat → Language Symbol}
    (henv : Repeats n contents tokenLeaf env) {items : List Rule} {p : List Symbol}
    (h : Forall₂ (ExpandedRule n contents) items (p.map .sym)) :
    seqLang tokenLeaf env items = pathLang env p := by
  induction p generalizing items with
  | nil =>
    cases h
    rfl
  | cons s p ih =>
    obtain ⟨item, items, hitem, hitems, rfl⟩ := forall₂_cons_right_iff.mp h
    rw [seqLang, ih hitems, ← hitem.lang_eq henv]
    exact prod_cons.symm

end Sequences

theorem mem_choicePaths {p : List Symbol} : ∀ {es : List Rule},
    p ∈ choicePaths es ↔ ∃ e ∈ es, p ∈ paths e
  | [] => by simp [choicePaths]
  | e :: es => by
    rw [choicePaths, mem_append, mem_choicePaths]
    simp

theorem scopedAll_of_forall {m : Nat} : ∀ {rs : List Rule}, (∀ r ∈ rs, r.ScopedBy m) → ScopedAll m rs
  | [], _ => trivial
  | _ :: _, h => ⟨h _ mem_cons_self, scopedAll_of_forall fun r hr => h r (mem_cons_of_mem _ hr)⟩

/-- Nothing that may be empty stands behind `eof()` after repetitions are expanded either. -/
theorem Shape.eofGuarded {g g' : InputGrammar} {contents : List Rule} (h : Shape g g' contents)
    (hscoped : g.Scoped) (hfree : ∀ r ∈ g'.roots, r.RepeatFree) (hguards : g.GuardsEof) :
    ∀ r ∈ g'.roots, ∀ p ∈ paths r, EofGuarded (languages tokenLeaf g'.roots) p := by
  intro r' hr'
  obtain ⟨r, c', hexpanded, ⟨v, hv, hr⟩, hroot⟩ := h.root_cases hr'
  have hroot' := mem_roots hv
  have hscope : r.ScopedBy g.vars.length := by
    rcases hr with rfl | hr
    · exact hscoped _ hroot'
    · exact (mem_repeatContents hr).2.2 _ (hscoped _ hroot')
  have hfree' := hfree r' hr'
  suffices hcontent : c'.RepeatFree → ∀ p ∈ paths c',
      EofGuarded (languages tokenLeaf g'.roots) p by
    rcases hroot with rfl | ⟨i, rfl⟩
    · exact hcontent hfree'
    · refine (@wrapInBinaryTree_iff (fun r => ∀ p ∈ paths r,
        EofGuarded (languages tokenLeaf g'.roots) p) (fun es => ?_) _ ?_ c').mpr
          (hcontent (repeatFree_wrap.mp hfree'))
      · exact ⟨fun h e he p hp => h p (mem_choicePaths.mpr ⟨e, he, hp⟩), fun h p hp => by
          obtain ⟨e, he, hp⟩ := mem_choicePaths.mp hp
          exact h e he p hp⟩
      · intro p hp q s hsplit
        obtain rfl : p = [.nonTerminal i, .nonTerminal i] := by simpa [paths, seqPaths] using hp
        simp [cons_eq_append_iff, Symbol.eof, Symbol.nonTerminal] at hsplit
  intro hfree p hp q s hp' hne hempty
  obtain ⟨items, hitems, hscopedItems, hforall⟩ := hexpanded.paths hfree hscope p hp
  rw [hp', map_append, map_cons] at hforall
  have hdrop := forall₂_drop_append _ _ _ hforall
  obtain ⟨item, behind, hitem, hbehind, hsplit⟩ := forall₂_cons_right_iff.mp hdrop
  have hitems' : items = items.take q.length ++ .sym .eof :: behind := by
    rw [← eq_eof_of_expanded hitem, ← hsplit, length_map, take_append_drop]
  have hsame : ∀ i < g.vars.length,
      languages tokenLeaf g.roots i = languages tokenLeaf g'.roots i := fun i hi =>
    le_antisymm (languages_le h i) (le_languages hscoped h hi)
  refine hguards _ hroot' r (hr.elim (fun h => h ▸ mem_cons_self) (mem_cons_of_mem _)) items hitems
    _ behind hitems' (fun hnil => ?_) ?_
  · rw [hnil, forall₂_nil_left_iff, map_eq_nil_iff] at hbehind
    exact hne hbehind
  · rw [seqLang_congr hsame behind (scopedAll_of_forall fun item hmem => hscopedItems item ?_),
      seqLang_of_expanded (repeats_languages h) hbehind]
    · exact hempty
    · rw [hitems']
      exact mem_append_right _ (mem_cons_of_mem _ hmem)

section Store

variable {g : InputGrammar} {reservedSets : List String} {store : ProductionStore}

section

variable (h : flattenGrammar g reservedSets = .ok store)

include h

theorem mem_productionEquations (env : Nat → Language Symbol) (i : Nat) (w : List Symbol) :
    w ∈ productionEquations env store i ↔
      ∃ r, g.roots[i]? = some r ∧ ∃ q ∈ paths r, EofLast q ∧ w ∈ pathLang env q := by
  rw [flattenGrammar] at h
  split at h
  · cases h
  obtain ⟨store', hmap, h⟩ := bind_eq_ok.mp h
  obtain ⟨_, _, h⟩ := bind_eq_ok.mp h
  cases h
  have hforall := forall₂_of_mapM_ok hmap
  rw [productionEquations]
  cases hv : g.vars[i]? with
  | none =>
    have hstore : store[i]? = none := by
      rw [getElem?_eq_none_iff] at hv ⊢
      exact hforall.length_eq ▸ hv
    rw [hstore, InputGrammar.roots, getElem?_map, hv]
    simp
  | some v =>
    have hlt := (List.getElem?_eq_some_iff.mp hv).1
    have hlt' : i < store.length := hforall.length_eq ▸ hlt
    have hget := hforall.get hlt hlt'
    rw [get_eq_getElem, get_eq_getElem, (List.getElem?_eq_some_iff.mp hv).2] at hget
    rw [getElem?_eq_getElem hlt', getElem?_roots.mpr ⟨v, hv, rfl⟩]
    simp only [Option.some.injEq, exists_eq_left']
    exact flattenVariable_lang hget env w

theorem productionLanguages_le
    (hfree : ∀ r ∈ g.roots, r.RepeatFree) (hext : ∀ r ∈ g.roots, r.Extracted) :
    productionLanguages store ≤ languages tokenLeaf g.roots := by
  refine least_le fun i w hw => ?_
  obtain ⟨r, hr, q, hq, -, hword⟩ := (mem_productionEquations h _ i w).mp hw
  have hmem := mem_of_getElem? hr
  rw [← equations_languages, equations, hr]
  exact (lang_eq_paths (hfree r hmem) (hext r hmem) w).mpr ⟨q, hq, hword⟩

/-- **The productions of a grammar have the words of its rules**, up to those that go on behind
the end of the input. -/
theorem mem_productionLanguages
    (hfree : ∀ r ∈ g.roots, r.RepeatFree) (hext : ∀ r ∈ g.roots, r.Extracted)
    (heof : ∀ r ∈ g.roots, ∀ p ∈ paths r, EofGuarded (languages tokenLeaf g.roots) p)
    (i : Nat) {w : List Symbol} (hw : EofLast w) :
    w ∈ productionLanguages store i ↔ w ∈ languages tokenLeaf g.roots i := by
  have hle := productionLanguages_le h hfree hext
  refine ⟨fun hmem => hle i hmem, fun hmem => ?_⟩
  -- What is no input may be in the language of every variable; nothing else comes of it.
  let env : Nat → Language Symbol := fun i => {w | EofLast w → w ∈ productionLanguages store i}
  have hparts : ∀ i w, EofLast w → w ∈ env i → w ∈ productionLanguages store i :=
    fun i w hw hmem => hmem hw
  suffices hsolved : equations tokenLeaf g.roots env ≤ env from
    hparts i w hw (least_le hsolved i hmem)
  intro i w hmem hlast
  unfold equations at hmem
  cases hr : g.roots[i]? with
  | none =>
    rw [hr] at hmem
    exact absurd hmem (Language.notMem_zero w)
  | some r =>
    rw [hr] at hmem
    have hroot := mem_of_getElem? hr
    obtain ⟨p, hp, hword⟩ := (lang_eq_paths (hfree r hroot) (hext r hroot) w).mp hmem
    have hpath : EofLast p := by
      by_contra hnot
      obtain ⟨q, q', rfl, hne⟩ := exists_of_not_eofLast hnot
      rw [pathLang_append] at hword
      obtain ⟨a, -, b, hb, rfl⟩ := Language.mem_mul.mp hword
      obtain ⟨c, hc, d, hd, rfl⟩ := mem_pathLang_cons.mp hb
      obtain rfl : c = [.eof] := hc
      obtain rfl := hlast.eq_nil
      have hempty := mem_pathLang_of_parts hparts eofLast_nil hd
      exact heof r hroot _ hp q q' rfl hne (pathLang_mono hle q' hempty)
    rw [productionLanguages, ← least_eq (productionEquations_mono store)]
    refine (mem_productionEquations h _ i w).mpr ⟨r, hr, p, hp, hpath, ?_⟩
    exact mem_pathLang_of_parts hparts hlast hword

end

end Store

/-- **The languages of the variables are kept, and no repetition is left behind.** Inputs have
nothing behind their end. -/
def KeepsLanguages (g g' : InputGrammar) (store : ProductionStore) : Prop :=
  (∀ r ∈ g'.roots, r.RepeatFree) ∧ ∀ i < g.vars.length, ∀ w, EofLast w →
    (w ∈ productionLanguages store i ↔ w ∈ languages tokenLeaf g.roots i)

/-- **When expanding repetitions and flattening keep the languages of the variables**: if no
repetition is inside of a `Reserved` node and nothing that may be empty stands behind `eof()`. No
repetition is left only if none is there. -/
theorem flattenGrammar_languages {g g' : InputGrammar} {reservedSets : List String}
    {store : ProductionStore} (hscoped : g.Scoped) (hext : ∀ r ∈ g.roots, r.Extracted)
    (hexpand : expandRepeats g = .ok g') (hflatten : flattenGrammar g' reservedSets = .ok store) :
    ((∀ r ∈ g.roots, r.ReservedRepeatFree) ∧ g.GuardsEof → KeepsLanguages g g' store) ∧
      ((∀ r ∈ g'.roots, r.RepeatFree) ↔ ∀ r ∈ g.roots, r.ReservedRepeatFree) := by
  obtain ⟨contents, hshape⟩ := expandRepeats_shape hexpand
  refine ⟨fun ⟨hreserved, hguards⟩ => ?_, hshape.repeatFree_iff⟩
  have hfree := hshape.repeatFree_iff.mpr hreserved
  have heof := hshape.eofGuarded hscoped hfree hguards
  refine ⟨hfree, fun i hi w hw => ?_⟩
  have heq : languages tokenLeaf g'.roots i = languages tokenLeaf g.roots i :=
    le_antisymm (le_languages hscoped hshape hi) (languages_le hshape i)
  have hmem := mem_productionLanguages hflatten hfree (hshape.extracted hext) heof i hw
  rwa [heq] at hmem

/-- A list behind a token with its own reserved words. -/
def headedGrammar : InputGrammar where
  vars := [⟨"list", .named, .choice [
    .seq [.reserved (.sym (.terminal 1)) "head", .repeat (.sym (.terminal 0))],
    .seq [.eof, .sym (.terminal 0)]]⟩]
  inline := []

theorem flattenGrammar_languages_headed : ∃ g' store, expandRepeats headedGrammar = .ok g' ∧
    flattenGrammar g' ["head"] = .ok store ∧ g'.vars.length = 2 ∧
    KeepsLanguages headedGrammar g' store := by
  have hexpand : ∃ g', expandRepeats headedGrammar = .ok g' ∧
      g'.roots = [.choice [.seq [.reserved (.sym (.terminal 1)) "head", .sym (.nonTerminal 1)],
          .seq [.eof, .sym (.terminal 0)]],
        .choice [.seq [.sym (.nonTerminal 1), .sym (.nonTerminal 1)], .sym (.terminal 0)]] :=
    ⟨_, rfl, rfl⟩
  obtain ⟨g', hexpand, hroots⟩ := hexpand
  have hflatten : ∃ store, flattenGrammar g' ["head"] = .ok store := by
    cases hexpand
    exact ⟨_, rfl⟩
  obtain ⟨store, hflatten⟩ := hflatten
  refine ⟨g', store, hexpand, hflatten, by simpa [InputGrammar.roots] using congrArg List.length hroots,
    (flattenGrammar_languages ?_ ?_ hexpand hflatten).1 ⟨?_, ?_⟩⟩
  · simp [InputGrammar.Scoped, InputGrammar.roots, headedGrammar, Rule.ScopedBy, ScopedAll,
      Symbol.terminal]
  · simp [InputGrammar.roots, headedGrammar, Rule.Extracted, ExtractedAll]
  · simp [InputGrammar.roots, headedGrammar, Rule.ReservedRepeatFree, ReservedRepeatFreeAll,
      Rule.RepeatFree]
  · simp [InputGrammar.GuardsEof, InputGrammar.roots, headedGrammar, repeatContents,
      repeatContentsAll, sequences, seqSequences, choiceSequences, cons_eq_append_iff, seqLang,
      Rule.langIn, tokenLeaf, Symbol.eof, Symbol.terminal]
    exact fun h : [] = [_] => cons_ne_nil _ _ h.symm

def reservedListGrammar : InputGrammar where
  vars := [⟨"list", .named, .reserved (.repeat (.sym (.terminal 0))) "item"⟩]
  inline := []

/-- A token or the end of the input, with a variable behind it that may be empty. -/
def openEndGrammar : InputGrammar where
  vars := [⟨"v", .named, .choice [.sym (.terminal 1), .seq [.eof, .sym (.nonTerminal 1)]]⟩,
    ⟨"x", .named, .choice [.blank, .sym (.terminal 0)]⟩]
  inline := []

/-- The repetition stays, and what it matches is lost; and so is the end of the input where a
variable that may be empty stands behind it. -/
theorem flattenGrammar_languages_reserved : (∃ store,
    expandRepeats reservedListGrammar = .ok reservedListGrammar ∧
    flattenGrammar reservedListGrammar ["item"] = .ok store ∧
    ¬ (∀ r ∈ reservedListGrammar.roots, r.RepeatFree) ∧ EofLast [.terminal 0] ∧
    [.terminal 0] ∈ languages tokenLeaf reservedListGrammar.roots 0 ∧
    [.terminal 0] ∉ productionLanguages store 0) ∧
    ∃ store, expandRepeats openEndGrammar = .ok openEndGrammar ∧
      flattenGrammar openEndGrammar [] = .ok store ∧ EofLast [.eof] ∧
      [.eof] ∈ languages tokenLeaf openEndGrammar.roots 0 ∧
      [.eof] ∉ productionLanguages store 0 := by
  refine ⟨⟨[[⟨[], 0, false⟩]], rfl, rfl, ?_, ?_, ?_, fun hmem => ?_⟩,
    [[⟨[⟨.terminal 1, .none, none, none, none, 0⟩], 0, false⟩],
      [⟨[], 0, false⟩, ⟨[⟨.terminal 0, .none, none, none, none, 0⟩], 0, false⟩]],
    rfl, rfl, ?_, ?_, fun hmem => ?_⟩
  · simp [InputGrammar.roots, reservedListGrammar, Rule.RepeatFree]
  · simp [EofLast]
  · rw [← equations_languages]
    exact le_plus _ rfl
  · have hle : productionLanguages [[⟨[], 0, false⟩]] ≤ fun _ => 1 := by
      refine least_le fun i w hw => ?_
      cases i with
      | zero => simpa [productionEquations, Production.lang, pathLang] using hw
      | succ i => exact absurd hw (Language.notMem_zero w)
    exact cons_ne_nil _ _ ((Language.mem_one _).mp (hle 0 hmem))
  · simp [EofLast]
  · have hempty : [] ∈ languages tokenLeaf openEndGrammar.roots 1 := by
      rw [← equations_languages]
      exact .inl rfl
    rw [← equations_languages]
    exact .inr (.inl ⟨[.eof], rfl, [], ⟨[], hempty, [], rfl, rfl⟩, rfl⟩)
  · have hle : productionLanguages [[⟨[⟨.terminal 1, .none, none, none, none, 0⟩], 0, false⟩],
        [⟨[], 0, false⟩, ⟨[⟨.terminal 0, .none, none, none, none, 0⟩], 0, false⟩]] ≤
        fun i => if i = 0 then {[.terminal 1]} else ⊤ := by
      refine least_le fun i w hw => ?_
      cases i with
      | zero =>
        simpa [productionEquations, Production.lang, pathLang, symbolLang, Symbol.terminal] using hw
      | succ i => trivial
    have heq : [Symbol.eof] = [.terminal 1] := hle 0 hmem
    cases heq

end TreeSitter.Generate
