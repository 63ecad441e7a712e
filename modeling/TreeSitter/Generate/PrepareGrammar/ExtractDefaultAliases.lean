import TreeSitter.Generate.Grammars
import TreeSitter.Library.IndexMap
import TreeSitter.Library.Fallible

/-!
# TreeSitter.Generate.PrepareGrammar.ExtractDefaultAliases

`extract_default_aliases.rs`: a symbol that always appears aliased gets its most frequent alias as
its **default alias**, and steps with the default alias of their symbol lose it. What a step is
shown as, its **effective alias**, stays the same. The root of a tree is shown as its symbol is: the
start rule appears there without an alias, and this is not counted
(`extractDefaultAliases_keepsAliases_iff`).
-/

namespace TreeSitter.Generate

open Option List Library

/-- `SymbolStatus`. -/
structure SymbolStatus where
  aliases : List (Alias × Nat) := []
  appearsUnaliased : Bool := false

/-- The three status lists. -/
structure StatusLists where
  terminal : List SymbolStatus
  nonTerminal : List SymbolStatus
  external : List SymbolStatus

namespace StatusLists

/-- The status of a symbol; the source panics at `none`. -/
def get? (lists : StatusLists) (s : Symbol) : Option SymbolStatus :=
  match s.kind with
  | .external => lists.external[s.index]?
  | .nonTerminal => lists.nonTerminal[s.index]?
  | .terminal => lists.terminal[s.index]?
  | .endOfFile | .endOfNonTerminalExtra => none

def set (lists : StatusLists) (s : Symbol) (status : SymbolStatus) : StatusLists :=
  match s.kind with
  | .external => { lists with external := lists.external.set s.index status }
  | .nonTerminal => { lists with nonTerminal := lists.nonTerminal.set s.index status }
  | .terminal => { lists with terminal := lists.terminal.set s.index status }
  | .endOfFile | .endOfNonTerminalExtra => lists

/-- `symbols_with_statuses`. -/
def symbolsWithStatuses (lists : StatusLists) : List (Symbol × SymbolStatus) :=
  lists.terminal.mapIdx (fun i status => (.terminal i, status)) ++
    lists.nonTerminal.mapIdx (fun i status => (.nonTerminal i, status)) ++
    lists.external.mapIdx (fun i status => (.external i, status))

end StatusLists

/-- One more step with the alias. -/
def countAlias (a : Alias) : List (Alias × Nat) → List (Alias × Nat)
  | [] => [(a, 1)]
  | (b, count) :: aliases =>
    if b = a then (b, count + 1) :: aliases else (b, count) :: countAlias a aliases

/-- The first loop, for one step. -/
def countStep (inline : List Symbol) (lists : StatusLists) (step : ProductionStep) :
    Option StatusLists := do
  let status ← lists.get? step.symbol
  -- Default aliases don't work for inlined variables.
  if inline.contains step.symbol then return lists
  else
    match step.aliasAs with
    | some a => return lists.set step.symbol { status with aliases := countAlias a status.aliases }
    | none => return lists.set step.symbol { status with appearsUnaliased := true }

/-- The loop over the extra symbols, for one of them. -/
def countExtra (lists : StatusLists) (s : Symbol) : Option StatusLists := do
  let status ← lists.get? s
  return lists.set s { status with appearsUnaliased := true }

/-- `max_by_key`: the last of the elements with the greatest key. -/
def maxByKey {α κ : Type*} [LinearOrder κ] (key : α → κ) (xs : List α) : Option α :=
  xs.foldl (fun best x => match best with
    | none => some x
    | some b => if key b ≤ key x then some x else some b) none

/-- `default_entry`: the alias that occurs most often, the first of several. -/
def defaultEntry (aliases : List (Alias × Nat)) : Option (Alias × Nat) :=
  (maxByKey (fun entry : (Alias × Nat) × Nat => toLex (entry.1.2, -(entry.2 : Int)))
    aliases.zipIdx).map Prod.fst

/-- The third loop, for the status of one symbol: what it becomes, and the default alias. -/
def designate (status : SymbolStatus) : SymbolStatus × Option Alias :=
  if status.appearsUnaliased then ({ status with aliases := [] }, none)
  else
    match defaultEntry status.aliases with
    | some entry => ({ status with aliases := [entry] }, some entry.1)
    | none => (status, none)

/-- `AliasMap`. -/
abbrev AliasMap := IndexMap Symbol Alias

/-- The third loop. -/
def designateAll (entries : List (Symbol × SymbolStatus)) : AliasMap :=
  entries.foldl (fun result entry => match (designate entry.2).2 with
    | some a => result.insert entry.1 a
    | none => result) ⟨[], nodup_nil⟩

/-- `other_productions_must_use_this_alias_at_this_index`. -/
def otherMustUse (result : AliasMap) (productions : List Production) (i j : Nat)
    (step : ProductionStep) : Bool :=
  productions.zipIdx.any fun other =>
    other.2 ≠ i &&
      match other.1.steps[j]? with
      | some otherStep =>
        otherStep.aliasAs = step.aliasAs && result.get? otherStep.symbol ≠ step.aliasAs
      | none => false

/-- The fourth loop, for the step at index `j` of the production at index `i`. -/
def clearAlias (lists : StatusLists) (result : AliasMap) (productions : List Production)
    (i j : Nat) (step : ProductionStep) : Option ProductionStep := do
  let status ← lists.get? step.symbol
  if step.aliasAs.isSome && step.aliasAs = (designate status).1.aliases.head?.map Prod.fst &&
      !otherMustUse result productions i j step then
    return { step with aliasAs := none }
  else return step

/-- The fourth loop, for the productions of one variable. The positions to clear are found before
any is cleared. -/
def clearAliases (lists : StatusLists) (result : AliasMap) (productions : List Production) :
    Option (List Production) :=
  productions.zipIdx.mapM fun prod => do
    let steps ← prod.1.steps.zipIdx.mapM fun step =>
      clearAlias lists result productions prod.2 step.2 step.1
    return { prod.1 with steps }

/-- `extract_default_aliases`, with the numbers of lexical variables, variables and external
tokens; `none` where the source panics. -/
def extractDefaultAliases (lexicalCount variableCount externalCount : Nat)
    (inline extraSymbols : List Symbol) (out : ProductionStore) :
    Option (ProductionStore × AliasMap) := do
  let lists : StatusLists := ⟨List.replicate lexicalCount {}, List.replicate variableCount {},
    List.replicate externalCount {}⟩
  let lists ← out.steps.foldlM (countStep inline) lists
  let lists ← extraSymbols.foldlM countExtra lists
  let result := designateAll lists.symbolsWithStatuses
  let out ← out.mapM (clearAliases lists result)
  return (out, result)

/-! ### Statuses -/

/-- The symbol is one of those the grammar declares. -/
def Declared (lexicalCount variableCount externalCount : Nat) (s : Symbol) : Prop :=
  match s.kind with
  | .external => s.index < externalCount
  | .nonTerminal => s.index < variableCount
  | .terminal => s.index < lexicalCount
  | .endOfFile | .endOfNonTerminalExtra => False

namespace StatusLists

theorem get?_set (lists : StatusLists) (s s' : Symbol) (status : SymbolStatus) :
    (lists.set s status).get? s' =
      if s = s' then (lists.get? s').map fun _ => status else lists.get? s' := by
  obtain ⟨kind, index⟩ := s
  obtain ⟨kind', index'⟩ := s'
  have hset : ∀ statuses : List SymbolStatus, (statuses.set index status)[index']? =
      if index = index' then statuses[index']?.map fun _ => status else statuses[index']? := by
    intro statuses
    rw [getElem?_set]
    by_cases hindex : index = index'
    · subst hindex
      by_cases hlt : index < statuses.length
      · simp [hlt]
      · simp [hlt]
    · rw [if_neg hindex, if_neg hindex]
  cases kind <;> cases kind' <;> simp [StatusLists.set, StatusLists.get?, hset]

theorem get?_set_eq_map {lists : StatusLists} {s : Symbol} {status status' : SymbolStatus}
    {g : Symbol → SymbolStatus → SymbolStatus} (hget : lists.get? s = some status)
    (hself : g s status = status') (hother : ∀ s' status, s ≠ s' → g s' status = status)
    (s' : Symbol) : (lists.set s status').get? s' = (lists.get? s').map (g s') := by
  rw [get?_set]
  split
  · rename_i heq
    rw [← heq, hget, map_some, map_some, hself]
  · rename_i hne
    cases lists.get? s' with
    | none => rfl
    | some other => rw [map_some, hother s' other hne]

variable {s : Symbol}

theorem mem_symbolsWithStatuses {lists : StatusLists} {status : SymbolStatus} :
    (s, status) ∈ lists.symbolsWithStatuses ↔ lists.get? s = some status := by
  obtain ⟨kind, index⟩ := s
  simp only [symbolsWithStatuses, mem_append, mem_mapIdx, Prod.mk.injEq,
    Symbol.terminal, Symbol.nonTerminal, Symbol.external, Symbol.mk.injEq]
  cases kind <;> simp [get?, getElem?_eq_some_iff]

theorem exists_foldlM_get? {α : Type} {f : StatusLists → α → Option StatusLists} {key : α → Symbol}
    {g : Symbol → SymbolStatus → α → SymbolStatus}
    (hf : ∀ lists x, (lists.get? (key x)).isSome → ∃ lists', f lists x = some lists' ∧
      ∀ s, lists'.get? s = (lists.get? s).map fun status => g s status x) :
    ∀ (xs : List α) (lists : StatusLists), (∀ x ∈ xs, (lists.get? (key x)).isSome) →
      ∃ lists', xs.foldlM f lists = some lists' ∧
        ∀ s, lists'.get? s = (lists.get? s).map fun status => xs.foldl (g s) status
  | [], lists, _ => ⟨lists, rfl, fun s => by cases lists.get? s <;> rfl⟩
  | x :: xs, lists, hxs => by
    obtain ⟨lists₁, hstep, hget⟩ := hf lists x (hxs x mem_cons_self)
    obtain ⟨lists₂, hfold, hget'⟩ := exists_foldlM_get? hf xs lists₁ fun y hy => by
      rw [hget, isSome_map]
      exact hxs y (mem_cons_of_mem _ hy)
    refine ⟨lists₂, by rw [foldlM_cons, hstep]; exact hfold, fun s => ?_⟩
    rw [hget', hget, Option.map_map]
    rfl

end StatusLists

open StatusLists

/-- What counting a step makes of the status of a symbol. -/
def afterStep (inline : List Symbol) (s : Symbol) (status : SymbolStatus) (step : ProductionStep) :
    SymbolStatus :=
  if step.symbol = s ∧ s ∉ inline then
    match step.aliasAs with
    | some a => { status with aliases := countAlias a status.aliases }
    | none => { status with appearsUnaliased := true }
  else status

def afterExtra (s : Symbol) (status : SymbolStatus) (extra : Symbol) : SymbolStatus :=
  if extra = s then { status with appearsUnaliased := true } else status

theorem get?_countStep (inline : List Symbol) (lists : StatusLists) (step : ProductionStep)
    (h : (lists.get? step.symbol).isSome) :
    ∃ lists', countStep inline lists step = some lists' ∧
      ∀ s, lists'.get? s = (lists.get? s).map fun status => afterStep inline s status step := by
  obtain ⟨status, hget⟩ := isSome_iff_exists.mp h
  have hother : ∀ s status, step.symbol ≠ s → afterStep inline s status step = status :=
    fun s status hne => if_neg fun h => hne h.1
  rw [countStep, hget]
  by_cases hinline : step.symbol ∈ inline
  · refine ⟨lists, by simp [hinline], fun s => ?_⟩
    have hsame : ∀ status, afterStep inline s status step = status :=
      fun status => if_neg fun h => h.2 (h.1 ▸ hinline)
    simp only [hsame]
    cases lists.get? s <;> rfl
  · cases halias : step.aliasAs with
    | some _ | none =>
      refine ⟨_, by simp [hinline]; rfl, get?_set_eq_map hget ?_ hother⟩
      rw [afterStep, if_pos ⟨rfl, hinline⟩, halias]

theorem get?_countExtra (lists : StatusLists) (extra : Symbol) (h : (lists.get? extra).isSome) :
    ∃ lists', countExtra lists extra = some lists' ∧
      ∀ s, lists'.get? s = (lists.get? s).map fun status => afterExtra s status extra := by
  obtain ⟨status, hget⟩ := isSome_iff_exists.mp h
  rw [countExtra, hget]
  exact ⟨_, rfl, get?_set_eq_map hget (if_pos rfl) fun s status hne => if_neg hne⟩

theorem countAlias_ne_nil (a : Alias) (aliases : List (Alias × Nat)) :
    countAlias a aliases ≠ [] := by
  cases aliases with
  | nil => exact cons_ne_nil _ _
  | cons entry aliases =>
    rw [countAlias]
    split <;> exact cons_ne_nil _ _

theorem foldl_afterStep (inline : List Symbol) (s : Symbol) (steps : List ProductionStep)
    (status : SymbolStatus) :
    ((steps.foldl (afterStep inline s) status).appearsUnaliased ↔ status.appearsUnaliased ∨
      s ∉ inline ∧ ∃ step ∈ steps, step.symbol = s ∧ step.aliasAs = none) ∧
    ((steps.foldl (afterStep inline s) status).aliases = [] ↔ status.aliases = [] ∧
      (s ∈ inline ∨ ∀ step ∈ steps, step.symbol = s → step.aliasAs = none)) := by
  induction steps generalizing status with
  | nil => simp
  | cons step steps ih =>
    obtain ⟨hunaliased, haliases⟩ := ih (afterStep inline s status step)
    rw [foldl_cons, hunaliased, haliases, afterStep]
    by_cases hs : step.symbol = s ∧ s ∉ inline
    · rw [if_pos hs]
      cases halias : step.aliasAs <;> simp [hs, halias, countAlias_ne_nil]
    · rw [if_neg hs]
      by_cases hinline : s ∈ inline
      · simp [hinline]
      · have hne : step.symbol ≠ s := fun h => hs ⟨h, hinline⟩
        simp [hinline, hne]

theorem foldl_afterExtra (s : Symbol) (extras : List Symbol) (status : SymbolStatus) :
    ((extras.foldl (afterExtra s) status).appearsUnaliased ↔
      status.appearsUnaliased ∨ s ∈ extras) ∧
    (extras.foldl (afterExtra s) status).aliases = status.aliases := by
  induction extras generalizing status with
  | nil => simp
  | cons extra extras ih =>
    obtain ⟨hunaliased, haliases⟩ := ih (afterExtra s status extra)
    rw [foldl_cons, hunaliased, haliases, afterExtra, mem_cons]
    by_cases hs : extra = s
    · simp [hs]
    · simp [hs, Ne.symm hs]

/-! ### Default aliases -/

theorem maxByKey_eq_none {α κ : Type*} [LinearOrder κ] {key : α → κ} {xs : List α}
    (h : maxByKey key xs = none) : xs = [] := by
  unfold maxByKey at h
  match xs with
  | [] => rfl
  | x :: xs =>
    have hsome : ∀ (ys : List α) (b : α), (ys.foldl (fun best x => match best with
        | none => some x
        | some b => if key b ≤ key x then some x else some b) (some b)).isSome = true := by
      intro ys
      induction ys with
      | nil => exact fun _ => rfl
      | cons y ys ih =>
        intro b
        rw [foldl_cons]
        dsimp only
        split
        · exact ih y
        · exact ih b
    have hx := hsome xs x
    rw [foldl_cons] at h
    simp [h] at hx

theorem head?_designate (status : SymbolStatus) :
    (designate status).1.aliases.head?.map Prod.fst = (designate status).2 := by
  unfold designate
  split
  · rfl
  · cases hentry : defaultEntry status.aliases with
    | some entry => rfl
    | none =>
      rw [defaultEntry, map_eq_none_iff] at hentry
      have hnil : status.aliases = [] := by simpa using maxByKey_eq_none hentry
      simp [hnil]

theorem isSome_designate_iff {status : SymbolStatus} :
    (designate status).2.isSome ↔ ¬ status.appearsUnaliased ∧ status.aliases ≠ [] := by
  rw [designate]
  split
  · rename_i h
    simp [h]
  · rename_i h
    rw [and_iff_right h]
    cases hentry : defaultEntry status.aliases with
    | some entry =>
      refine iff_of_true rfl fun hnil => ?_
      rw [hnil] at hentry
      cases hentry
    | none =>
      rw [defaultEntry, map_eq_none_iff] at hentry
      exact iff_of_false Bool.false_ne_true fun hne => hne (by simpa using maxByKey_eq_none hentry)

theorem get?_foldl_designate {s : Symbol} {d : Option Alias} :
    ∀ (entries : List (Symbol × SymbolStatus)) (result : AliasMap),
      (∀ status, (s, status) ∈ entries → (designate status).2 = d) →
      (entries.foldl (fun (result : AliasMap) entry => match (designate entry.2).2 with
        | some a => result.insert entry.1 a
        | none => result) result).get? s =
      if s ∈ entries.map Prod.fst then d.or (result.get? s) else result.get? s
  | [], result, _ => by simp
  | entry :: entries, result, h => by
    have hrest := fun result => get?_foldl_designate (s := s) (d := d) entries result
      fun status hmem => h status (mem_cons_of_mem _ hmem)
    rw [foldl_cons, hrest]
    by_cases hentry : entry.1 = s
    · have hd : (designate entry.2).2 = d :=
        h entry.2 (by rw [← hentry]; exact mem_cons_self)
      rw [if_pos (by simp [hentry] : s ∈ (entry :: entries).map Prod.fst), hd]
      cases d with
      | none => simp
      | some a => simp [IndexMap.get?_insert, hentry]
    · have hget : (match (designate entry.2).2 with
          | some a => result.insert entry.1 a
          | none => result).get? s = result.get? s := by
        split
        · rw [IndexMap.get?_insert, if_neg hentry]
        · rfl
      have hkey : s ∈ (entry :: entries).map Prod.fst ↔ s ∈ entries.map Prod.fst := by
        rw [map_cons, mem_cons, or_iff_right (Ne.symm hentry)]
      simp only [hget, hkey]

/-- **The default alias of a symbol, by its status.** -/
theorem get?_designateAll (lists : StatusLists) (s : Symbol) :
    (designateAll lists.symbolsWithStatuses).get? s =
      (lists.get? s).bind fun status => (designate status).2 := by
  cases hget : lists.get? s with
  | none =>
    have hmem : s ∉ lists.symbolsWithStatuses.map Prod.fst := by
      intro hmem
      obtain ⟨⟨_, status⟩, hentry, rfl⟩ := mem_map.mp hmem
      rw [mem_symbolsWithStatuses.mp hentry] at hget
      cases hget
    rw [designateAll, get?_foldl_designate (d := none) _ _ fun status h => ?_, if_neg hmem]
    · rfl
    · exact absurd (mem_map_of_mem h) hmem
  | some status =>
    have hmem : s ∈ lists.symbolsWithStatuses.map Prod.fst :=
      mem_map_of_mem (mem_symbolsWithStatuses.mpr hget)
    rw [designateAll, get?_foldl_designate (d := (designate status).2) _ _ fun status' h => ?_,
      if_pos hmem]
    · exact or_none
    · rw [mem_symbolsWithStatuses, hget, some_inj] at h
      rw [h]

/-! ### Effective aliases -/

/-- What a step is shown as, with these default aliases. -/
def effectiveAlias (defaults : AliasMap) (step : ProductionStep) : Option Alias :=
  step.aliasAs.or (defaults.get? step.symbol)

/-- A step before and after, with and without default aliases. -/
def SameStep (defaults : AliasMap) (step step' : ProductionStep) : Prop :=
  step' = { step with aliasAs := step'.aliasAs } ∧
    effectiveAlias defaults step' = effectiveAlias ⟨[], nodup_nil⟩ step

/-- A production before and after. -/
def SameProduction (defaults : AliasMap) (p p' : Production) : Prop :=
  p' = { p with steps := p'.steps } ∧ List.Forall₂ (SameStep defaults) p.steps p'.steps

theorem clearAlias_sameStep {lists : StatusLists} {step : ProductionStep}
    (hsome : (lists.get? step.symbol).isSome = true)
    (hnone : step.aliasAs = none → (designateAll lists.symbolsWithStatuses).get? step.symbol = none)
    (productions : List Production) (i j : Nat) :
    ∃ step', clearAlias lists (designateAll lists.symbolsWithStatuses) productions i j step =
      some step' ∧ SameStep (designateAll lists.symbolsWithStatuses) step step' := by
  obtain ⟨status, hget⟩ := isSome_iff_exists.mp hsome
  have hdefault : (designateAll lists.symbolsWithStatuses).get? step.symbol =
      (designate status).2 := by
    rw [get?_designateAll, hget, bind_some]
  have heffective : effectiveAlias ⟨[], nodup_nil⟩ step = step.aliasAs := or_none
  unfold clearAlias
  rw [hget]
  dsimp only [bind_eq_bind, bind_some]
  split
  · rename_i hclear
    simp only [Bool.and_eq_true, decide_eq_true_eq] at hclear
    refine ⟨_, rfl, rfl, ?_⟩
    rw [heffective, hclear.1.2, head?_designate, ← hdefault]
    rfl
  · refine ⟨step, rfl, rfl, ?_⟩
    rw [heffective, effectiveAlias]
    cases halias : step.aliasAs with
    | none => rw [hnone halias, or_none]
    | some a => rfl

theorem exists_mapM_zipIdx {α β : Type} {f : α × Nat → Option β} {r : α → β → Prop} {xs : List α}
    (h : ∀ x ∈ xs, ∀ i, ∃ y, f (x, i) = some y ∧ r x y) (n : Nat) :
    ∃ ys, (xs.zipIdx n).mapM f = some ys ∧ List.Forall₂ r xs ys := by
  have hzip : ∀ x ∈ xs.zipIdx n, ∃ y, f x = some y ∧ r x.1 y :=
    fun x hx => h x.1 (fst_mem_of_mem_zipIdx hx) x.2
  obtain ⟨ys, hys, hforall⟩ := exists_mapM_forall₂ hzip
  rw [← forall₂_map_left_iff, zipIdx_map_fst] at hforall
  exact ⟨ys, hys, hforall⟩

theorem clearAliases_sameProduction {lists : StatusLists} {productions : List Production}
    (hsome : ∀ p ∈ productions, ∀ step ∈ p.steps, (lists.get? step.symbol).isSome = true)
    (hnone : ∀ p ∈ productions, ∀ step ∈ p.steps, step.aliasAs = none →
      (designateAll lists.symbolsWithStatuses).get? step.symbol = none) :
    ∃ productions', clearAliases lists (designateAll lists.symbolsWithStatuses) productions =
      some productions' ∧
      List.Forall₂ (SameProduction (designateAll lists.symbolsWithStatuses))
        productions productions' := by
  refine exists_mapM_zipIdx (fun p hp i => ?_) 0
  obtain ⟨steps, hsteps, hforall⟩ := exists_mapM_zipIdx (f := fun step =>
      clearAlias lists (designateAll lists.symbolsWithStatuses) productions i step.2 step.1)
    (fun step hstep j => clearAlias_sameStep (hsome p hp step hstep) (hnone p hp step hstep)
      productions i j) 0
  refine ⟨{ p with steps }, ?_, rfl, hforall⟩
  rw [hsteps]
  rfl

/-- The symbol appears in a step, always with an alias, and it is neither an extra nor inlined. -/
structure AlwaysAliased (inline extraSymbols : List Symbol) (out : ProductionStore) (s : Symbol) :
    Prop where
  not_mem_extras : s ∉ extraSymbols
  not_mem_inline : s ∉ inline
  exists_step : ∃ step ∈ out.steps, step.symbol = s
  isSome_aliasAs : ∀ step ∈ out.steps, step.symbol = s → step.aliasAs.isSome = true

/-- Extracting default aliases keeps what every step is shown as, and the symbols that are always
aliased get a default alias. -/
theorem extractDefaultAliases_effectiveAlias {lexicalCount variableCount externalCount : Nat}
    {inline extraSymbols : List Symbol} {out : ProductionStore}
    (hsteps : ∀ step ∈ out.steps, Declared lexicalCount variableCount externalCount step.symbol)
    (hextras : ∀ s ∈ extraSymbols, Declared lexicalCount variableCount externalCount s) :
    ∃ out' defaults, extractDefaultAliases lexicalCount variableCount externalCount inline
        extraSymbols out = some (out', defaults) ∧
      List.Forall₂ (List.Forall₂ (SameProduction defaults)) out out' ∧
      ∀ s, (defaults.get? s).isSome ↔ AlwaysAliased inline extraSymbols out s := by
  let lists : StatusLists := ⟨List.replicate lexicalCount {}, List.replicate variableCount {},
    List.replicate externalCount {}⟩
  have hdeclared : ∀ s, Declared lexicalCount variableCount externalCount s →
      (lists.get? s).isSome := by
    intro s hs
    unfold Declared at hs
    unfold StatusLists.get?
    split at hs <;> simp_all [lists]
  have hempty : ∀ s status, lists.get? s = some status → status = {} := by
    intro s status hstatus
    unfold StatusLists.get? at hstatus
    split at hstatus <;> simp_all [lists, getElem?_replicate]
  obtain ⟨lists₁, hcount, hget₁⟩ := exists_foldlM_get? (get?_countStep inline) out.steps lists
    fun step hstep => hdeclared _ (hsteps step hstep)
  obtain ⟨lists₂, hextra, hget₂⟩ := exists_foldlM_get? get?_countExtra extraSymbols lists₁
    fun s hs => by
      rw [hget₁, isSome_map]
      exact hdeclared s (hextras s hs)
  have hisSome : ∀ s, (lists₂.get? s).isSome = (lists.get? s).isSome := fun s => by
    rw [hget₂, hget₁, isSome_map, isSome_map]
  have hdefaults : ∀ s, ((designateAll lists₂.symbolsWithStatuses).get? s).isSome ↔
      AlwaysAliased inline extraSymbols out s := by
    intro s
    rw [get?_designateAll, hget₂, hget₁]
    obtain ⟨hunaliased, hnil⟩ := foldl_afterStep inline s out.steps {}
    obtain ⟨hunaliased', hnil'⟩ := foldl_afterExtra s extraSymbols
      (out.steps.foldl (afterStep inline s) {})
    cases hget : lists.get? s with
    | none =>
      refine iff_of_false Bool.false_ne_true fun h => ?_
      obtain ⟨step, hstep, rfl⟩ := h.exists_step
      have hsome := hdeclared _ (hsteps step hstep)
      rw [hget] at hsome
      cases hsome
    | some status =>
      rw [hempty s status hget, map_some, map_some, bind_some, isSome_designate_iff, hnil', ne_eq,
        hnil, hunaliased', hunaliased]
      constructor
      · rintro ⟨hnever, hne⟩
        push Not at hnever hne
        obtain ⟨hinline, step, hstep, hsymbol, -⟩ := hne rfl
        have haliased := hnever.1.2 hinline
        exact ⟨hnever.2, hinline, ⟨step, hstep, hsymbol⟩,
          fun step hstep hsymbol => ne_none_iff_isSome.mp (haliased step hstep hsymbol)⟩
      · intro h
        have haliased := h.isSome_aliasAs
        obtain ⟨step, hstep, hsymbol⟩ := h.exists_step
        refine ⟨?_, fun hnil => ?_⟩
        · rintro ((hfresh | ⟨-, step, hstep, hsymbol, hnone⟩) | hextra)
          · cases hfresh
          · exact ne_none_iff_isSome.mpr (haliased step hstep hsymbol) hnone
          · exact h.not_mem_extras hextra
        · exact ne_none_iff_isSome.mpr (haliased step hstep hsymbol)
            (hnil.2.resolve_left h.not_mem_inline step hstep hsymbol)
  have hnone : ∀ step ∈ out.steps, step.aliasAs = none →
      (designateAll lists₂.symbolsWithStatuses).get? step.symbol = none := by
    intro step hstep halias
    rw [← not_isSome_iff_eq_none, hdefaults]
    intro h
    have hsome := h.isSome_aliasAs step hstep rfl
    rw [halias] at hsome
    cases hsome
  have hmem : ∀ ps ∈ out, ∀ p ∈ ps, ∀ step ∈ p.steps, step ∈ out.steps :=
    fun ps hps p hp step hstep => mem_flatMap.mpr
      ⟨p, mem_flatten.mpr ⟨ps, hps, hp⟩, hstep⟩
  have hclear : ∀ ps ∈ out, ∃ ps',
      clearAliases lists₂ (designateAll lists₂.symbolsWithStatuses) ps = some ps' ∧
        List.Forall₂ (SameProduction (designateAll lists₂.symbolsWithStatuses)) ps ps' := by
    intro ps hps
    refine clearAliases_sameProduction (fun p hp step hstep => ?_) fun p hp step hstep =>
      hnone step (hmem ps hps p hp step hstep)
    rw [hisSome]
    exact hdeclared _ (hsteps step (hmem ps hps p hp step hstep))
  obtain ⟨out', hout, hforall⟩ := exists_mapM_forall₂ hclear
  refine ⟨out', designateAll lists₂.symbolsWithStatuses, ?_, hforall, hdefaults⟩
  unfold extractDefaultAliases
  dsimp only [bind_eq_bind]
  rw [hcount, bind_some, hextra, bind_some, hout]
  rfl

def startSymbol : Symbol := .nonTerminal 0

/-- The symbol appears without an alias: as the root, as an extra or in a step. -/
def AppearsUnaliased (extraSymbols : List Symbol) (out : ProductionStore) (s : Symbol) : Prop :=
  s = startSymbol ∨ s ∈ extraSymbols ∨ ∃ step ∈ out.steps, step.symbol = s ∧ step.aliasAs = none

/-- **The aliases are kept**: the pass ends, every step is shown as before, and a symbol has a default
alias only if it never appears without one. -/
def KeepsAliases (lexicalCount variableCount externalCount : Nat)
    (inline extraSymbols : List Symbol) (out : ProductionStore) : Prop :=
  ∃ out' defaults, extractDefaultAliases lexicalCount variableCount externalCount inline
      extraSymbols out = some (out', defaults) ∧
    List.Forall₂ (List.Forall₂ (SameProduction defaults)) out out' ∧
    ∀ s, (defaults.get? s).isSome → ¬ AppearsUnaliased extraSymbols out s

/-- **When extracting default aliases keeps the aliases**: exactly if the start rule is not one of
the symbols that are aliased wherever productions have them. -/
theorem extractDefaultAliases_keepsAliases_iff {lexicalCount variableCount externalCount : Nat}
    {inline extraSymbols : List Symbol} {out : ProductionStore}
    (hsteps : ∀ step ∈ out.steps, Declared lexicalCount variableCount externalCount step.symbol)
    (hextras : ∀ s ∈ extraSymbols, Declared lexicalCount variableCount externalCount s) :
    KeepsAliases lexicalCount variableCount externalCount inline extraSymbols out ↔
      ¬ AlwaysAliased inline extraSymbols out startSymbol := by
  obtain ⟨out', defaults, hextract, hsame, hdefaults⟩ :=
    @extractDefaultAliases_effectiveAlias _ _ _ inline _ _ hsteps hextras
  constructor
  · rintro ⟨out'', defaults', hextract', -, hnever⟩ halways
    cases hextract.symm.trans hextract'
    exact hnever startSymbol ((hdefaults startSymbol).mpr halways) (.inl rfl)
  · intro hstart
    refine ⟨out', defaults, hextract, hsame, fun s hsome happears => ?_⟩
    have halways := (hdefaults s).mp hsome
    rcases happears with rfl | hextra | ⟨step, hstep, hsymbol, hnone⟩
    · exact hstart halways
    · exact halways.not_mem_extras hextra
    · have halias := halways.isSome_aliasAs step hstep hsymbol
      rw [hnone] at halias
      cases halias

/-- One token that is always aliased, in three steps. -/
def aliasedSteps : ProductionStore :=
  [[⟨[⟨.terminal 0, .none, none, some ⟨"a", true⟩, none, 0⟩,
      ⟨.terminal 0, .none, none, some ⟨"b", true⟩, none, 0⟩,
      ⟨.terminal 0, .none, none, some ⟨"b", true⟩, none, 0⟩], 0, false⟩]]

theorem extractDefaultAliases_keepsAliases_steps :
    KeepsAliases 1 1 0 [] [] aliasedSteps ∧
      (extractDefaultAliases 1 1 0 [] [] aliasedSteps).map
        (fun result => result.2.get? (.terminal 0)) = some (some ⟨"b", true⟩) := by
  have hsteps : ∀ step ∈ aliasedSteps.steps, Declared 1 1 0 step.symbol := by
    simp [aliasedSteps, ProductionStore.steps, Declared, Symbol.terminal]
  have hextras : ∀ s ∈ ([] : List Symbol), Declared 1 1 0 s := by simp
  refine ⟨(@extractDefaultAliases_keepsAliases_iff 1 1 0 [] [] aliasedSteps hsteps hextras).mpr
    fun h => ?_, by decide⟩
  obtain ⟨step, hstep, hsymbol⟩ := h.exists_step
  revert hsymbol
  simp [aliasedSteps, ProductionStore.steps] at hstep
  rcases hstep with rfl | rfl | rfl <;> decide

/-- A start rule with a production of one token, and one that has the rule itself in parentheses,
with an alias. -/
def aliasedStart : ProductionStore :=
  [[⟨[⟨.terminal 0, .none, none, none, none, 0⟩], 0, false⟩,
    ⟨[⟨.terminal 1, .none, none, none, none, 0⟩,
      ⟨.nonTerminal 0, .none, none, some ⟨"sub", true⟩, none, 0⟩,
      ⟨.terminal 2, .none, none, none, none, 0⟩], 0, false⟩]]

/-- The start rule gets its alias as the default one, though it is the root as well. -/
theorem exists_not_keepsAliases :
    ¬ KeepsAliases 3 1 0 [] [] aliasedStart ∧
      (extractDefaultAliases 3 1 0 [] [] aliasedStart).map
        (fun result => result.2.get? startSymbol) = some (some ⟨"sub", true⟩) := by
  have hdefault : (extractDefaultAliases 3 1 0 [] [] aliasedStart).map
      (fun result => result.2.get? startSymbol) = some (some ⟨"sub", true⟩) := by
    decide
  refine ⟨?_, hdefault⟩
  rintro ⟨out', defaults, hextract, -, hnever⟩
  rw [hextract, map_some, some_inj] at hdefault
  exact hnever startSymbol (by rw [hdefault]; rfl) (.inl rfl)

end TreeSitter.Generate
