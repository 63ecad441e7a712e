import TreeSitter.Generate.BuildTables.ItemSetBuilder

/-!
# TreeSitter.Generate.BuildTables.ItemSetBuilderSound

What `item_set_builder.rs` computes, for grammars without inlined rules, reserved words and ends of
input, where no production is empty. The first sets are **FIRST** (`firstSetOf_spec`). The follow
sets are what a left corner gets along **live** paths only: the loop does not go on from a
non-terminal that it reaches with no lookaheads (`followSets_spec`).
-/

namespace TreeSitter.Generate

open List Library

/-! ### Grammars -/

/-- A symbol that a step of the grammar can have. -/
def SyntaxGrammar.Has (g : SyntaxGrammar) (s : Symbol) : Prop :=
  match s.kind with
  | .terminal => s.index < g.nTerminals
  | .external => s.index < g.nExternals
  | .nonTerminal => s.index < g.varProds.length
  | _ => False

instance (g : SyntaxGrammar) (s : Symbol) : Decidable (g.Has s) := by
  unfold SyntaxGrammar.Has
  split <;> infer_instance

/-- A grammar without inlined rules, reserved words and ends of input, whose productions are not
empty. -/
structure PlainGrammar (g : SyntaxGrammar) : Prop where
  variables_ne : g.varProds ≠ []
  inlined : g.variablesToInline = []
  inlines : g.inlines.entries = []
  productions : ∀ p ∈ g.productions, p.steps ≠ [] ∧ p.requiresEofLookahead = false ∧
    ∀ step ∈ p.steps, step.reserved = 0 ∧ g.Has step.symbol
  ranges : ∀ range ∈ g.varProds, range.2 ≤ g.productions.length
  ids : g.productions.length ≤ startProductionId

/-- A symbol that stands for itself. -/
def Symbol.IsToken (s : Symbol) : Prop := s.isTerminal ∨ s.isExternal

/-- **FIRST**, for grammars without empty productions. -/
inductive First (g : SyntaxGrammar) : Symbol → Symbol → Prop
  | token {s : Symbol} : s.IsToken → First g s s
  | head {i id : Nat} {step : ProductionStep} {x : Symbol} :
    id ∈ g.variableProdIds i → (g.production id).steps.head? = some step →
    First g step.symbol x → First g (.nonTerminal i) x

variable {g : SyntaxGrammar}

theorem PlainGrammar.mem_productions (h : PlainGrammar g) {i id : Nat}
    (hid : id ∈ g.variableProdIds i) : g.production id ∈ g.productions := by
  rw [SyntaxGrammar.variableProdIds] at hid
  split at hid
  · rename_i start stop hrange
    have hle := h.ranges _ (mem_of_getElem? hrange)
    have hids := h.ids
    rw [mem_range'_1] at hid
    have hlt : id < g.productions.length := by
      dsimp only at hle
      omega
    rw [SyntaxGrammar.production, if_neg (by omega), getElem?_eq_getElem hlt, Option.getD_some]
    exact getElem_mem hlt
  · cases hid

variable {s : Symbol}

theorem SyntaxGrammar.Has.cases (h : g.Has s) :
    s.IsToken ∨ s.isNonTerminal ∧ s.index < g.varProds.length := by
  obtain ⟨kind, index⟩ := s
  cases kind with
  | terminal => exact .inl (.inl rfl)
  | external => exact .inl (.inr rfl)
  | nonTerminal => exact .inr ⟨rfl, h⟩
  | endOfFile | endOfNonTerminalExtra => cases h

theorem eq_nonTerminal_of_isNonTerminal (h : s.isNonTerminal) :
    s = .nonTerminal s.index := by
  obtain ⟨kind, index⟩ := s
  cases kind <;> first | rfl | cases h

def SyntaxGrammar.tokens (g : SyntaxGrammar) : Finset Symbol :=
  (Finset.range g.nTerminals).image Symbol.terminal ∪
    (Finset.range g.nExternals).image Symbol.external

theorem SyntaxGrammar.Has.mem_tokens (h : g.Has s) (htoken : s.IsToken) : s ∈ g.tokens := by
  obtain ⟨kind, index⟩ := s
  rw [SyntaxGrammar.tokens, Finset.mem_union, Finset.mem_image, Finset.mem_image]
  cases kind with
  | terminal => exact .inl ⟨index, Finset.mem_range.mpr h, rfl⟩
  | external => exact .inr ⟨index, Finset.mem_range.mpr h, rfl⟩
  | nonTerminal => rcases htoken with h | h <;> cases h
  | endOfFile | endOfNonTerminalExtra => cases h

theorem First.mem_tokens (h : PlainGrammar g) {x : Symbol} (hx : First g s x) (hs : g.Has s) :
    x ∈ g.tokens := by
  induction hx with
  | token htoken => exact hs.mem_tokens htoken
  | head hid hstep _ ih =>
    obtain ⟨-, -, hsteps⟩ := h.productions _ (h.mem_productions hid)
    exact ih (hsteps _ (mem_of_mem_head? hstep)).2

theorem First.eq_of_isToken {x : Symbol} (hx : First g s x) (hs : s.IsToken) : x = s := by
  cases hx with
  | token => rfl
  | head => rcases hs with h | h <;> cases h

/-! ### First sets -/

section FirstSets

/-- Some of these productions starts with a symbol. -/
def StartWith (g : SyntaxGrammar) (ids : List Nat) (s : Symbol) : Prop :=
  ∃ id ∈ ids, ∃ step, (g.production id).steps.head? = some step ∧ step.symbol = s

theorem startWith_append {ids : List Nat} {id : Nat} {s : Symbol} :
    StartWith g (ids ++ [id]) s ↔ StartWith g ids s ∨
      ∃ step, (g.production id).steps.head? = some step ∧ step.symbol = s := by
  constructor
  · rintro ⟨id', hid, hstep⟩
    rcases mem_append.mp hid with hid | hid
    · exact .inl ⟨id', hid, hstep⟩
    · obtain rfl := mem_singleton.mp hid
      exact .inr hstep
  · rintro (⟨id', hid, hstep⟩ | hstep)
    · exact ⟨id', mem_append_left _ hid, hstep⟩
    · exact ⟨id, mem_append_right _ (mem_singleton.mpr rfl), hstep⟩

/-- What a turn of the loop has done after some productions. -/
structure FirstTurn (g : SyntaxGrammar) (state : FirstSetState) (ids : List Nat)
    (result : FirstSetState × List Symbol) : Prop where
  processed : result.1.processed = result.2 ++ state.processed
  new : ∀ s ∈ result.2, ¬ s.IsToken ∧ StartWith g ids s
  nodup : state.processed.Nodup → result.1.processed.Nodup
  firstSet : ∀ x, x ∈ result.1.firstSet ↔ x ∈ state.firstSet ∨ x.IsToken ∧ StartWith g ids x
  found : ∀ s, StartWith g ids s → ¬ s.IsToken → s ∈ result.1.processed
  reserved : (∀ id ∈ ids, ∀ step ∈ (g.production id).steps, step.reserved = 0) →
    result.1.reservedFirstSet = state.reservedFirstSet

variable {state : FirstSetState}

theorem FirstTurn.push {ids : List Nat} {result : FirstSetState × List Symbol}
    (h : FirstTurn g state ids result) (id : Nat) :
    FirstTurn g state (ids ++ [id]) (firstSetProduction result (g.production id)) := by
  have hnew : ∀ s ∈ result.2, ¬ s.IsToken ∧ StartWith g (ids ++ [id]) s :=
    fun s hs => ⟨(h.new s hs).1, startWith_append.mpr (.inl (h.new s hs).2)⟩
  have hreserved : ∀ step, (g.production id).steps.head? = some step →
      (∀ id' ∈ ids ++ [id], ∀ step ∈ (g.production id').steps, step.reserved = 0) →
      max result.1.reservedFirstSet step.reserved = state.reservedFirstSet := by
    intro step hstep hzero
    rw [h.reserved fun id' hid' => hzero id' (mem_append_left _ hid'),
      hzero id (mem_append_right _ (mem_singleton.mpr rfl)) step
        (mem_of_mem_head? hstep), Nat.max_zero]
  rw [firstSetProduction]
  split
  · rename_i hhead
    refine ⟨h.processed, hnew, h.nodup, fun x => ?_, fun s hs => ?_, fun hzero =>
      h.reserved fun id' hid' => hzero id' (mem_append_left _ hid')⟩
    · rw [h.firstSet, startWith_append, hhead]
      simp
    · rw [startWith_append, hhead] at hs
      exact h.found s (hs.resolve_right (by simp))
  · rename_i step hhead
    split
    · rename_i htoken
      rw [Bool.or_eq_true] at htoken
      refine ⟨h.processed, hnew, h.nodup, fun x => ?_, fun s hs hno => ?_, hreserved step hhead⟩
      · rw [Finset.mem_insert, h.firstSet, startWith_append, hhead]
        constructor
        · rintro (rfl | hx | ⟨hx, hstart⟩)
          · exact .inr ⟨htoken, .inr ⟨step, rfl, rfl⟩⟩
          · exact .inl hx
          · exact .inr ⟨hx, .inl hstart⟩
        · rintro (hx | ⟨hx, hstart | ⟨step', hstep', rfl⟩⟩)
          · exact .inr (.inl hx)
          · exact .inr (.inr ⟨hx, hstart⟩)
          · exact .inl (Option.some.inj hstep' ▸ rfl)
      · rw [startWith_append, hhead] at hs
        rcases hs with hs | ⟨step', hstep', rfl⟩
        · exact h.found s hs hno
        · exact absurd (Option.some.inj hstep' ▸ htoken) hno
    · rename_i htoken
      rw [Bool.or_eq_true] at htoken
      have hfirst : ∀ x, x ∈ result.1.firstSet ↔
          x ∈ state.firstSet ∨ x.IsToken ∧ StartWith g (ids ++ [id]) x := by
        intro x
        rw [h.firstSet, startWith_append, hhead]
        refine or_congr_right (and_congr_right fun hx => ⟨.inl, fun hs => hs.resolve_right ?_⟩)
        rintro ⟨step', hstep', rfl⟩
        exact htoken (Option.some.inj hstep' ▸ hx)
      split
      · rename_i hmem
        refine ⟨h.processed, hnew, h.nodup, hfirst, fun s hs hno => ?_, hreserved step hhead⟩
        rw [startWith_append, hhead] at hs
        rcases hs with hs | ⟨step', hstep', rfl⟩
        · exact h.found s hs hno
        · exact Option.some.inj hstep' ▸ hmem
      · rename_i hmem
        refine ⟨?_, fun s hs => ?_, fun hnd => nodup_cons.mpr ⟨hmem, h.nodup hnd⟩, hfirst,
          fun s hs hno => ?_, hreserved step hhead⟩
        · show step.symbol :: result.1.processed = step.symbol :: result.2 ++ state.processed
          rw [h.processed, cons_append]
        · rcases mem_cons.mp hs with rfl | hs
          · exact ⟨htoken, startWith_append.mpr (.inr ⟨step, hhead, rfl⟩)⟩
          · exact hnew s hs
        · rw [startWith_append, hhead] at hs
          rcases hs with hs | ⟨step', hstep', rfl⟩
          · exact mem_cons_of_mem _ (h.found s hs hno)
          · exact Option.some.inj hstep' ▸ mem_cons_self

theorem processFirst_spec (state : FirstSetState) (sym : Symbol) :
    FirstTurn g state (g.variableProdIds sym.index) (processFirst g state sym) := by
  rw [processFirst]
  induction g.variableProdIds sym.index using List.reverseRecOn with
  | nil =>
    refine ⟨rfl, nofun, id, fun x => ⟨.inl, fun hx => hx.resolve_right ?_⟩, ?_, fun _ => rfl⟩
    · rintro ⟨-, id, hid, -⟩
      cases hid
    · rintro s ⟨id, hid, -⟩
      cases hid
  | append_singleton ids id ih =>
    rw [foldl_append]
    exact ih.push id

/-- The loop for the first set of a variable, between two turns. -/
structure FirstInv (g : SyntaxGrammar) (i : Nat) (state : FirstSetState) (stack : List Symbol) :
    Prop where
  sound : ∀ x ∈ state.firstSet, First g (.nonTerminal i) x
  processed : ∀ s ∈ state.processed, s.isNonTerminal ∧ s.index < g.varProds.length ∧
    ∀ x, First g s x → First g (.nonTerminal i) x
  pending : ∀ s ∈ stack, s = .nonTerminal i ∨ s ∈ state.processed
  nodup : state.processed.Nodup
  closed : ∀ s, s = .nonTerminal i ∨ s ∈ state.processed → s ∈ stack ∨
    ∀ s', StartWith g (g.variableProdIds s.index) s' →
      (s'.IsToken → s' ∈ state.firstSet) ∧ (¬ s'.IsToken → s' ∈ state.processed)
  reserved : state.reservedFirstSet = 0

variable {i : Nat}
variable {stack : List Symbol}

theorem FirstInv.first_of_mem_stack (h : FirstInv g i state stack) {s : Symbol} (hs : s ∈ stack) :
    s = .nonTerminal s.index ∧ ∀ x, First g s x → First g (.nonTerminal i) x := by
  rcases h.pending s hs with rfl | hs
  · exact ⟨rfl, fun _ hx => hx⟩
  · obtain ⟨hkind, -, hfirst⟩ := h.processed s hs
    exact ⟨eq_nonTerminal_of_isNonTerminal hkind, hfirst⟩

theorem FirstInv.length_le (h : FirstInv g i state stack) :
    state.processed.length ≤ g.varProds.length := by
  have hsub : state.processed ⊆ (List.range g.varProds.length).map Symbol.nonTerminal := by
    intro s hs
    obtain ⟨hkind, hlt, -⟩ := h.processed s hs
    exact mem_map.mpr ⟨s.index, mem_range.mpr hlt, (eq_nonTerminal_of_isNonTerminal hkind).symm⟩
  have hle := (h.nodup.subperm hsub).length_le
  rwa [length_map, length_range] at hle

theorem FirstInv.step (hg : PlainGrammar g) {sym : Symbol} (h : FirstInv g i state (sym :: stack)) :
    FirstInv g i (processFirst g state sym).1 ((processFirst g state sym).2 ++ stack) := by
  have hturn := @processFirst_spec g state sym
  obtain ⟨hsym, hcorner⟩ := h.first_of_mem_stack mem_cons_self
  have hfirst : ∀ s x, StartWith g (g.variableProdIds sym.index) s → First g s x →
      First g (.nonTerminal i) x := by
    rintro s x ⟨id, hid, step, hstep, rfl⟩ hx
    refine hcorner x ?_
    rw [hsym]
    exact .head hid hstep hx
  constructor
  · intro x hx
    rcases (hturn.firstSet x).mp hx with hx | ⟨htoken, hstart⟩
    · exact h.sound x hx
    · exact hfirst x x hstart (.token htoken)
  · intro s hs
    rw [hturn.processed] at hs
    rcases mem_append.mp hs with hs | hs
    · obtain ⟨hno, hstart⟩ := hturn.new s hs
      have hhas : g.Has s := by
        obtain ⟨id, hid, step, hstep, rfl⟩ := hstart
        exact ((hg.productions _ (hg.mem_productions hid)).2.2 step (mem_of_mem_head? hstep)).2
      obtain ⟨hkind, hlt⟩ := hhas.cases.resolve_left hno
      exact ⟨hkind, hlt, fun x => hfirst s x hstart⟩
    · exact h.processed s hs
  · intro s hs
    rw [hturn.processed]
    rcases mem_append.mp hs with hs | hs
    · exact .inr (mem_append_left _ hs)
    · exact (h.pending s (mem_cons_of_mem _ hs)).imp_right (mem_append_right _)
  · exact hturn.nodup h.nodup
  · -- The symbol taken off the stack is done now; what was done before stays so.
    have hdone : ∀ s', StartWith g (g.variableProdIds sym.index) s' →
        (s'.IsToken → s' ∈ (processFirst g state sym).1.firstSet) ∧
          (¬ s'.IsToken → s' ∈ (processFirst g state sym).1.processed) :=
      fun s' hs' => ⟨fun htoken => (hturn.firstSet s').mpr (.inr ⟨htoken, hs'⟩), hturn.found s' hs'⟩
    intro s hs
    by_cases heq : s = sym
    · exact .inr (heq ▸ hdone)
    · by_cases hnew : s ∈ (processFirst g state sym).2
      · exact .inl (mem_append_left _ hnew)
      · have hold : s = .nonTerminal i ∨ s ∈ state.processed := by
          refine hs.imp_right fun hs => ?_
          rw [hturn.processed] at hs
          exact (mem_append.mp hs).resolve_left hnew
        rcases h.closed s hold with hstack | hclosed
        · exact .inl (mem_append_right _ ((mem_cons.mp hstack).resolve_left heq))
        · refine .inr fun s' hs' => ⟨fun htoken => ?_, fun hno => ?_⟩
          · exact (hturn.firstSet s').mpr (.inl ((hclosed s' hs').1 htoken))
          · rw [hturn.processed]
            exact mem_append_right _ ((hclosed s' hs').2 hno)
  · rw [hturn.reserved, h.reserved]
    intro id hid step hstep
    exact ((hg.productions _ (hg.mem_productions hid)).2.2 step hstep).1

/-- **The first set of a variable is its FIRST.** -/
theorem firstSetOf_spec (hg : PlainGrammar g) (i : Nat) :
    ∃ n state, (∀ fuel ≥ n, firstSetOf fuel g i = some state) ∧
      (∀ x, x ∈ state.firstSet ↔ First g (.nonTerminal i) x) ∧ state.reservedFirstSet = 0 := by
  have hinit : FirstInv g i {} [.nonTerminal i] := by
    refine ⟨fun x hx => ?_, nofun, fun s hs => .inl (mem_singleton.mp hs), nodup_nil,
      fun s hs => .inl ?_, rfl⟩
    · exact absurd hx (Finset.notMem_empty x)
    · exact mem_singleton.mpr (hs.resolve_right nofun)
  have hstep : ∀ state sym stack, FirstInv g i state (sym :: stack) →
      FirstInv g i (processFirst g state sym).1 ((processFirst g state sym).2 ++ stack) ∧
        ((processFirst g state sym).2 = [] ∧
          g.varProds.length - (processFirst g state sym).1.processed.length ≤
            g.varProds.length - state.processed.length ∨
          g.varProds.length - (processFirst g state sym).1.processed.length <
            g.varProds.length - state.processed.length) := by
    intro state sym stack h
    have hnext := h.step hg
    have hle := hnext.length_le
    have hlength := congrArg List.length (@processFirst_spec g state sym).processed
    rw [length_append] at hlength
    refine ⟨hnext, ?_⟩
    cases hnew : (processFirst g state sym).2 with
    | nil => exact .inl ⟨rfl, by omega⟩
    | cons s new =>
      rw [hnew, length_cons] at hlength
      exact .inr (by omega)
  obtain ⟨n, state, hrun, hinv⟩ := @exists_run _ _ (processFirst g) (FirstInv g i)
    (fun state => g.varProds.length - state.processed.length) hstep _ _ hinit
  refine ⟨n, state, hrun, fun x => ⟨hinv.sound x, ?_⟩, hinv.reserved⟩
  suffices hall : ∀ s, First g s x → s = .nonTerminal i ∨ s ∈ state.processed →
      x ∈ state.firstSet from fun hx => hall _ hx (.inl rfl)
  intro s hx
  induction hx with
  | @token s htoken =>
    intro hs
    have hkind : s.isNonTerminal = true := by
      rcases hs with rfl | hs
      · rfl
      · exact (hinv.processed _ hs).1
    rw [eq_nonTerminal_of_isNonTerminal hkind] at htoken
    rcases htoken with h | h <;> cases h
  | @head j id step x hid hstep hfirst ih =>
    intro hs
    have hclosed := (hinv.closed _ hs).resolve_left nofun step.symbol ⟨id, hid, step, hstep, rfl⟩
    by_cases htoken : step.symbol.IsToken
    · exact hfirst.eq_of_isToken htoken ▸ hclosed.1 htoken
    · exact ih (.inr (hclosed.2 htoken))

end FirstSets

/-! ### Follow sets -/

section FollowSets

/-- What a left corner of a variable can get: that its items are added, a token that follows it, or
that what follows the variable follows it too. -/
inductive Ahead where
  | here
  | token (x : Symbol)
  | follow
deriving DecidableEq

/-- What the first symbol of a production gets, if its variable gets `a`. -/
inductive Child (g : SyntaxGrammar) (p : Production) (a : Ahead) : Nat → Ahead → Prop
  | here {step : ProductionStep} {rest : List ProductionStep} {k : Nat} :
    p.steps = step :: rest → step.symbol = .nonTerminal k → Child g p a k .here
  | first {step next : ProductionStep} {rest : List ProductionStep} {k : Nat} {x : Symbol} :
    p.steps = step :: next :: rest → step.symbol = .nonTerminal k → First g next.symbol x →
    Child g p a k (.token x)
  | last {step : ProductionStep} {k : Nat} :
    p.steps = [step] → step.symbol = .nonTerminal k → Child g p a k a

/-- What a left corner of a variable gets along a **live path**: one that goes on from a left corner
only if that has got more than being there. -/
inductive Gets (g : SyntaxGrammar) (i : Nat) : Nat → Ahead → Prop
  | self : Gets g i i .here
  | start : Gets g i i .follow
  | child {j id k : Nat} {a w : Ahead} : Gets g i j a → a ≠ .here →
    id ∈ g.variableProdIds j → Child g (g.production id) a k w → Gets g i k w

/-- What an info says of a left corner. -/
def FollowSetInfo.Has (info : FollowSetInfo) : Ahead → Prop
  | .here => True
  | .token x => x ∈ info.lookaheads
  | .follow => info.propagatesLookaheads = true

/-- First sets that are FIRST. -/
structure FirstSets.Correct (g : SyntaxGrammar) (sets : FirstSets) : Prop where
  firstSet : ∀ s, g.Has s → ∀ x, x ∈ sets.firstSet g s ↔ First g s x
  reserved : ∀ s, sets.reservedFirstSet s = 0

variable {sets : FirstSets} {i : Nat}

/-- A production that a plain grammar can have. -/
def PlainProduction (g : SyntaxGrammar) (p : Production) : Prop :=
  p.requiresEofLookahead = false ∧ ∀ step ∈ p.steps, step.reserved = 0 ∧ g.Has step.symbol

theorem PlainGrammar.plainProduction (hg : PlainGrammar g) {i id : Nat}
    (hid : id ∈ g.variableProdIds i) : PlainProduction g (g.production id) :=
  (hg.productions _ (hg.mem_productions hid)).2

variable {k : Nat} {stack : List (Nat × FollowSetInfo)}

theorem Child.head {p : Production} {a w : Ahead} (h : Child g p a k w) :
    ∃ step rest, p.steps = step :: rest ∧ step.symbol = .nonTerminal k := by
  cases h with
  | here hsteps hsymbol | first hsteps hsymbol _ | last hsteps hsymbol =>
    exact ⟨_, _, hsteps, hsymbol⟩

/-- What is pushed for a production says what its first symbol gets. -/
theorem followProduction_spec (hsets : sets.Correct g) {p : Production} (hp : PlainProduction g p)
    {info : FollowSetInfo} (hlive : ∃ a, a ≠ .here ∧ info.Has a) {w : Ahead} :
    (∃ info', followProduction g sets info p = some (k, info') ∧ info'.Has w) ↔
      ∃ a, a ≠ .here ∧ info.Has a ∧ Child g p a k w := by
  obtain ⟨steps, dynamicPrecedence, requiresEof⟩ := p
  obtain ⟨heof, hsteps⟩ := hp
  obtain rfl : requiresEof = false := heof
  obtain ⟨a₀, ha₀, hinfo₀⟩ := hlive
  cases steps with
  | nil =>
    constructor
    · rintro ⟨info', heq, -⟩
      cases heq
    · rintro ⟨a, -, -, hchild⟩
      obtain ⟨step, rest, hcons, -⟩ := hchild.head
      cases hcons
  | cons step rest =>
    by_cases hkind : step.symbol.isNonTerminal
    · have hsymbol := eq_nonTerminal_of_isNonTerminal hkind
      cases rest with
      | nil =>
        simp only [followProduction, hkind, if_true, if_false, Bool.false_eq_true,
          Option.some.injEq, Prod.mk.injEq]
        constructor
        · rintro ⟨info', ⟨rfl, rfl⟩, hw⟩
          by_cases hhere : w = .here
          · exact ⟨a₀, ha₀, hinfo₀, hhere ▸ .here rfl hsymbol⟩
          · exact ⟨w, hhere, hw, .last rfl hsymbol⟩
        · rintro ⟨a, -, hinfo, hchild⟩
          obtain ⟨_, _, hcons, hk⟩ := hchild.head
          cases hcons
          refine ⟨info, ⟨by rw [hk]; rfl, rfl⟩, ?_⟩
          cases hchild with
          | here => trivial
          | first heq => cases heq
          | last => exact hinfo
      | cons next rest =>
        have hnext := (hsteps next (mem_cons_of_mem _ mem_cons_self)).2
        simp only [followProduction, hkind, if_true, Option.some.injEq, Prod.mk.injEq]
        constructor
        · rintro ⟨info', ⟨rfl, rfl⟩, hw⟩
          refine ⟨a₀, ha₀, hinfo₀, ?_⟩
          cases w with
          | here => exact .here rfl hsymbol
          | token x => exact .first rfl hsymbol ((hsets.firstSet _ hnext x).mp hw)
          | follow => cases hw
        · rintro ⟨a, -, -, hchild⟩
          obtain ⟨_, _, hcons, hk⟩ := hchild.head
          cases hcons
          refine ⟨_, ⟨by rw [hk]; rfl, rfl⟩, ?_⟩
          cases hchild with
          | here => trivial
          | first heq _ hx =>
            cases heq
            exact (hsets.firstSet _ hnext _).mpr hx
          | last heq => cases heq
    · constructor
      · rintro ⟨info', heq, -⟩
        simp [followProduction, hkind] at heq
      · rintro ⟨a, -, -, hchild⟩
        obtain ⟨_, _, hcons, hk⟩ := hchild.head
        cases hcons
        exact absurd (by rw [hk]; rfl) hkind

/-- What the infos say of a left corner. -/
def TableHas (infos : IndexMap Nat FollowSetInfo) (k : Nat) (a : Ahead) : Prop :=
  ∃ info, infos.get? k = some info ∧ info.Has a

/-- What the tasks on the stack say of a left corner. -/
def TaskHas (stack : List (Nat × FollowSetInfo)) (k : Nat) (a : Ahead) : Prop :=
  ∃ info, (k, info) ∈ stack ∧ info.Has a

theorem taskHas_append {stack stack' : List (Nat × FollowSetInfo)} {a : Ahead} :
    TaskHas (stack ++ stack') k a ↔ TaskHas stack k a ∨ TaskHas stack' k a := by
  simp only [TaskHas, mem_append, or_and_right, exists_or]

theorem taskHas_cons {task : Nat × FollowSetInfo}
    {a : Ahead} : TaskHas (task :: stack) k a ↔ k = task.1 ∧ task.2.Has a ∨ TaskHas stack k a := by
  obtain ⟨k', info⟩ := task
  simp only [TaskHas, mem_cons, Prod.mk.injEq, or_and_right, exists_or, and_assoc,
    exists_and_left, exists_eq_left]

theorem FollowSetInfo.has_join {old task : FollowSetInfo} {a : Ahead} :
    (old.join task).Has a ↔ old.Has a ∨ task.Has a := by
  cases a with
  | here => exact ⟨.inl, fun _ => trivial⟩
  | token x => exact Finset.mem_union
  | follow => exact Bool.or_eq_true_iff

variable {infos : IndexMap Nat FollowSetInfo} {task : Nat × FollowSetInfo}

theorem tableHas_processFollow {a : Ahead} : TableHas (processFollow g sets infos task).1 k a ↔
      TableHas infos k a ∨ k = task.1 ∧ task.2.Has a := by
  have hget : (processFollow g sets infos task).1.get? k =
      if task.1 = k then some (((infos.get? task.1).getD {}).join task.2) else infos.get? k :=
    IndexMap.get?_insert _ _ _ _
  rw [TableHas, hget]
  split
  · rename_i hk
    subst hk
    rw [TableHas]
    simp only [Option.some.injEq, exists_eq_left', FollowSetInfo.has_join, true_and]
    cases infos.get? task.1 with
    | some old => simp
    | none =>
      -- Nothing is known of it, so that the info is that of the task.
      cases a <;> simp [FollowSetInfo.Has]
  · rename_i hk
    rw [TableHas]
    exact ⟨.inl, fun h => h.resolve_right fun h => hk h.1.symm⟩

theorem taskHas_processFollow (hg : PlainGrammar g) (hsets : sets.Correct g)
    (hreserved : task.2.reservedLookaheads = 0) :
    ((processFollow g sets infos task).2 = [] ∧
        ∀ a, a ≠ .here → task.2.Has a → TableHas infos task.1 a) ∨
      (∃ a, a ≠ .here ∧ task.2.Has a ∧ ¬ TableHas infos task.1 a) ∧
        ∀ k w, TaskHas (processFollow g sets infos task).2 k w ↔
          ∃ id ∈ g.variableProdIds task.1, ∃ a, a ≠ .here ∧ task.2.Has a ∧
            Child g (g.production id) a k w := by
  set old := (infos.get? task.1).getD {} with hold
  have htable : ∀ a, a ≠ .here → (TableHas infos task.1 a ↔ old.Has a) := by
    intro a ha
    rw [TableHas, hold]
    cases infos.get? task.1 with
    | some info => simp
    | none => cases a <;> simp_all [FollowSetInfo.Has]
  rw [processFollow]
  dsimp only
  rw [← hold]
  split
  · rename_i hadd
    refine .inr ?_
    have hlive : ∃ a, a ≠ .here ∧ task.2.Has a ∧ ¬ old.Has a := by
      rw [hreserved, Bool.or_eq_true, Bool.or_eq_true, decide_eq_true_eq, decide_eq_true_eq,
        Bool.and_eq_true, Bool.not_eq_true'] at hadd
      rcases hadd with (hadd | hadd) | hadd
      · obtain ⟨x, hx, hno⟩ := Finset.not_subset.mp hadd
        exact ⟨.token x, by simp, hx, hno⟩
      · exact absurd hadd (Nat.not_lt_zero _)
      · exact ⟨.follow, by simp, hadd.1, by simp [FollowSetInfo.Has, hadd.2]⟩
    obtain ⟨a, ha, htask, hno⟩ := hlive
    refine ⟨⟨a, ha, htask, fun h => hno ((htable a ha).mp h)⟩, fun k w => ?_⟩
    constructor
    · rintro ⟨info, hmem, hw⟩
      obtain ⟨id, hid, heq⟩ := mem_filterMap.mp (mem_reverse.mp hmem)
      exact ⟨id, hid, (followProduction_spec hsets (hg.plainProduction hid) ⟨a, ha, htask⟩).mp
        ⟨info, heq, hw⟩⟩
    · rintro ⟨id, hid, hchild⟩
      obtain ⟨info, heq, hw⟩ :=
        (followProduction_spec hsets (hg.plainProduction hid) ⟨a, ha, htask⟩).mpr hchild
      exact ⟨info, mem_reverse.mpr (mem_filterMap.mpr ⟨id, hid, heq⟩), hw⟩
  · rename_i hadd
    refine .inl ⟨rfl, fun a ha htask => (htable a ha).mpr ?_⟩
    rw [Bool.or_eq_true, Bool.or_eq_true, decide_eq_true_eq, Bool.and_eq_true,
      Bool.not_eq_true', not_or, not_or, not_not] at hadd
    cases a with
    | here => exact absurd rfl ha
    | token x => exact hadd.1.1 htask
    | follow =>
      cases hprop : old.propagatesLookaheads with
      | true => exact hprop
      | false => exact absurd ⟨htask, hprop⟩ hadd.2

theorem processFollow_reserved (hsets : sets.Correct g)
    (hinfos : ∀ k info, infos.get? k = some info → info.reservedLookaheads = 0)
    (htask : task.2.reservedLookaheads = 0) :
    (∀ k info, (processFollow g sets infos task).1.get? k = some info →
      info.reservedLookaheads = 0) ∧
    ∀ task' ∈ (processFollow g sets infos task).2, task'.2.reservedLookaheads = 0 := by
  constructor
  · intro k info hk
    have hget : (processFollow g sets infos task).1.get? k =
        if task.1 = k then some (((infos.get? task.1).getD {}).join task.2) else infos.get? k :=
      IndexMap.get?_insert _ _ _ _
    rw [hget] at hk
    split at hk
    · cases hk
      show max _ task.2.reservedLookaheads = 0
      rw [htask, Nat.max_zero]
      cases hold : infos.get? task.1 with
      | some old => exact hinfos _ _ hold
      | none => rfl
    · exact hinfos k info hk
  · intro task' hmem
    rw [processFollow] at hmem
    dsimp only at hmem
    split at hmem
    · obtain ⟨id, -, heq⟩ := mem_filterMap.mp (mem_reverse.mp hmem)
      rw [followProduction] at heq
      split at heq
      · cases heq
      · split at heq
        · split at heq
          · cases heq
            exact hsets.reserved _
          · split at heq
            · cases heq
              rfl
            · cases heq
              exact htask
        · cases heq
    · cases hmem

/-- The loop for the follow sets of a variable, between two turns. -/
structure FollowInv (g : SyntaxGrammar) (i : Nat) (infos : IndexMap Nat FollowSetInfo)
    (stack : List (Nat × FollowSetInfo)) : Prop where
  sound : ∀ k a, TableHas infos k a ∨ TaskHas stack k a → Gets g i k a
  start : TableHas infos i .follow ∨ TaskHas stack i .follow
  closed : ∀ j a, TableHas infos j a → a ≠ .here → ∀ id ∈ g.variableProdIds j, ∀ k w,
    Child g (g.production id) a k w → TableHas infos k w ∨ TaskHas stack k w
  infosReserved : ∀ k info, infos.get? k = some info → info.reservedLookaheads = 0
  stackReserved : ∀ task ∈ stack, task.2.reservedLookaheads = 0

theorem FollowInv.step (hg : PlainGrammar g) (hsets : sets.Correct g)
    (h : FollowInv g i infos (task :: stack)) :
    FollowInv g i (processFollow g sets infos task).1
      ((processFollow g sets infos task).2 ++ stack) := by
  have htask := h.stackReserved task mem_cons_self
  obtain ⟨hinfos, hnew⟩ := processFollow_reserved (g := g) hsets h.infosReserved htask
  -- The task itself is in the table now.
  have hkeep : ∀ k w, TableHas infos k w ∨ TaskHas (task :: stack) k w →
      TableHas (processFollow g sets infos task).1 k w ∨
        TaskHas ((processFollow g sets infos task).2 ++ stack) k w := by
    intro k w hkw
    rw [tableHas_processFollow, taskHas_append]
    rw [taskHas_cons] at hkw
    rcases hkw with hkw | hkw | hkw
    · exact .inl (.inl hkw)
    · exact .inl (.inr hkw)
    · exact .inr (.inr hkw)
  constructor
  · intro k a hka
    rw [tableHas_processFollow, taskHas_append] at hka
    have hold := h.sound k a
    rw [taskHas_cons] at hold
    rcases hka with (hka | hka) | hka | hka
    · exact hold (.inl hka)
    · exact hold (.inr (.inl hka))
    · rcases taskHas_processFollow hg hsets htask with ⟨hnil, -⟩ | ⟨-, hchild⟩
      · rw [hnil] at hka
        obtain ⟨info, hmem, -⟩ := hka
        cases hmem
      · obtain ⟨id, hid, b, hb, hhas, hchild⟩ := (hchild k a).mp hka
        exact .child (h.sound task.1 b (.inr (taskHas_cons.mpr (.inl ⟨rfl, hhas⟩)))) hb hid hchild
    · exact hold (.inr (.inr hka))
  · exact hkeep _ _ h.start
  · intro j a hja ha id hid k w hchild
    by_cases hold : TableHas infos j a
    · exact hkeep k w (h.closed j a hold ha id hid k w hchild)
    · obtain ⟨rfl, hhas⟩ := (tableHas_processFollow.mp hja).resolve_left hold
      rcases taskHas_processFollow hg hsets htask with ⟨-, hall⟩ | ⟨-, hpushed⟩
      · exact absurd (hall a ha hhas) hold
      · exact .inr (taskHas_append.mpr (.inl ((hpushed k w).mpr ⟨id, hid, a, ha, hhas, hchild⟩)))
  · exact hinfos
  · intro task' hmem
    rcases mem_append.mp hmem with hmem | hmem
    · exact hnew task' hmem
    · exact h.stackReserved task' (mem_cons_of_mem _ hmem)

/-! The measure of the loop: how much the infos of the variables can still grow. -/

theorem Gets.lt_length (hg : PlainGrammar g) (hi : i < g.varProds.length) {a : Ahead}
    (h : Gets g i k a) : k < g.varProds.length := by
  cases h with
  | self | start => exact hi
  | child _ _ hid hchild =>
    obtain ⟨step, rest, hsteps, hsymbol⟩ := hchild.head
    have hhas := ((hg.plainProduction hid).2 step (hsteps ▸ mem_cons_self)).2
    rw [hsymbol] at hhas
    exact hhas

theorem Gets.mem_tokens (hg : PlainGrammar g) {a : Ahead} (h : Gets g i k a) :
    ∀ x, a = .token x → x ∈ g.tokens := by
  induction h with
  | self | start => exact fun _ ha => nomatch ha
  | @child j id k a w _ _ hid hchild ih =>
    intro x hw
    cases hchild with
    | here => cases hw
    | @first step next rest _ _ hsteps _ hx =>
      cases hw
      have hmem : next ∈ (g.production id).steps := by
        rw [hsteps]
        exact mem_cons_of_mem _ mem_cons_self
      exact hx.mem_tokens hg ((hg.plainProduction hid).2 next hmem).2
    | last => exact ih x hw

/-- How much is known of a left corner. -/
def infoSize (infos : IndexMap Nat FollowSetInfo) (k : Nat) : Nat :=
  ((infos.get? k).map fun info => info.lookaheads.card + info.propagatesLookaheads.toNat).getD 0

/-- How much can still become known. -/
def followMeasure (g : SyntaxGrammar) (infos : IndexMap Nat FollowSetInfo) : Nat :=
  ∑ k ∈ Finset.range g.varProds.length, (g.tokens.card + 1 - infoSize infos k)

theorem FollowInv.infoSize_le (hg : PlainGrammar g)
    (h : FollowInv g i infos stack) (k : Nat) : infoSize infos k ≤ g.tokens.card + 1 := by
  rw [infoSize]
  cases hk : infos.get? k with
  | none => exact Nat.zero_le _
  | some info =>
    have hsub : info.lookaheads ⊆ g.tokens := by
      intro x hx
      exact (h.sound k (.token x) (.inl ⟨info, hk, hx⟩)).mem_tokens hg x rfl
    exact Nat.add_le_add (Finset.card_le_card hsub) (Bool.toNat_le _)

theorem infoSize_processFollow_of_ne (hk : k ≠ task.1) :
    infoSize (processFollow g sets infos task).1 k = infoSize infos k := by
  have hget : (processFollow g sets infos task).1.get? k =
      if task.1 = k then some (((infos.get? task.1).getD {}).join task.2) else infos.get? k :=
    IndexMap.get?_insert _ _ _ _
  rw [infoSize, hget, if_neg hk.symm, infoSize]

theorem infoSize_processFollow :
    infoSize (processFollow g sets infos task).1 task.1 =
      (((infos.get? task.1).getD {}).lookaheads ∪ task.2.lookaheads).card +
        (((infos.get? task.1).getD {}).propagatesLookaheads ||
          task.2.propagatesLookaheads).toNat := by
  have hget : (processFollow g sets infos task).1.get? task.1 =
      if task.1 = task.1 then some (((infos.get? task.1).getD {}).join task.2)
      else infos.get? task.1 :=
    IndexMap.get?_insert _ _ _ _
  rw [infoSize, hget, if_pos rfl]
  rfl

theorem infoSize_eq (infos : IndexMap Nat FollowSetInfo) (k : Nat) :
    infoSize infos k = ((infos.get? k).getD {}).lookaheads.card +
      ((infos.get? k).getD {}).propagatesLookaheads.toNat := by
  rw [infoSize]
  cases infos.get? k <;> rfl

theorem infoSize_le_processFollow :
    infoSize infos task.1 ≤ infoSize (processFollow g sets infos task).1 task.1 := by
  rw [infoSize_processFollow, infoSize_eq]
  refine Nat.add_le_add (Finset.card_le_card Finset.subset_union_left) ?_
  cases ((infos.get? task.1).getD {}).propagatesLookaheads with
  | true => exact Nat.le_refl _
  | false => exact Nat.zero_le _

theorem infoSize_lt_processFollow {a : Ahead} (ha : a ≠ .here) (hhas : task.2.Has a)
    (hno : ¬ TableHas infos task.1 a) :
    infoSize infos task.1 < infoSize (processFollow g sets infos task).1 task.1 := by
  have hold : ¬ ((infos.get? task.1).getD {}).Has a := by
    intro hhas'
    refine hno ?_
    rw [TableHas]
    cases hget : infos.get? task.1 with
    | some info => exact ⟨info, rfl, by rwa [hget] at hhas'⟩
    | none =>
      rw [hget] at hhas'
      cases a <;> simp_all [FollowSetInfo.Has]
  rw [infoSize_processFollow, infoSize_eq]
  cases a with
  | here => exact absurd rfl ha
  | token x =>
    have hcard : ((infos.get? task.1).getD {}).lookaheads.card <
        (((infos.get? task.1).getD {}).lookaheads ∪ task.2.lookaheads).card :=
      Finset.card_lt_card (Finset.ssubset_iff_subset_ne.mpr ⟨Finset.subset_union_left, fun heq =>
        hold (show x ∈ _ by rw [heq]; exact Finset.mem_union_right _ hhas)⟩)
    refine Nat.add_lt_add_of_lt_of_le hcard ?_
    cases ((infos.get? task.1).getD {}).propagatesLookaheads with
    | true => exact Nat.le_refl _
    | false => exact Nat.zero_le _
  | follow =>
    refine Nat.add_lt_add_of_le_of_lt (Finset.card_le_card Finset.subset_union_left) ?_
    have hfalse : ((infos.get? task.1).getD {}).propagatesLookaheads = false :=
      Bool.eq_false_iff.mpr hold
    have htrue : task.2.propagatesLookaheads = true := hhas
    rw [hfalse, htrue]
    exact Nat.zero_lt_one

theorem FollowInv.measure (hg : PlainGrammar g) (hsets : sets.Correct g)
    (hi : i < g.varProds.length)
    (h : FollowInv g i infos (task :: stack)) :
    (processFollow g sets infos task).2 = [] ∧
        followMeasure g (processFollow g sets infos task).1 ≤ followMeasure g infos ∨
      followMeasure g (processFollow g sets infos task).1 < followMeasure g infos := by
  have hnext := h.step hg hsets
  have hle : ∀ k ∈ Finset.range g.varProds.length,
      g.tokens.card + 1 - infoSize (processFollow g sets infos task).1 k ≤
        g.tokens.card + 1 - infoSize infos k := by
    intro k _
    by_cases hk : k = task.1
    · have hgrow := @infoSize_le_processFollow g sets infos task
      subst hk
      omega
    · rw [infoSize_processFollow_of_ne hk]
  rcases taskHas_processFollow hg hsets (h.stackReserved task mem_cons_self) with
    ⟨hnil, -⟩ | ⟨⟨a, ha, hhas, hno⟩, -⟩
  · exact .inl ⟨hnil, Finset.sum_le_sum hle⟩
  · have hgets := h.sound task.1 a (.inr (taskHas_cons.mpr (.inl ⟨rfl, hhas⟩)))
    refine .inr (Finset.sum_lt_sum hle ⟨task.1, Finset.mem_range.mpr (hgets.lt_length hg hi), ?_⟩)
    have hgrow := @infoSize_lt_processFollow g sets infos task a ha hhas hno
    have hbound := hnext.infoSize_le hg task.1
    omega

/-- **The follow sets of a variable are what its left corners get along live paths.** -/
theorem followSets_spec (hg : PlainGrammar g) (hsets : sets.Correct g)
    (hi : i < g.varProds.length) :
    ∃ n infos, (∀ fuel ≥ n, followSets fuel g sets i = some infos) ∧
      ∀ k a, TableHas infos k a ↔ Gets g i k a := by
  have hinit : FollowInv g i .empty [(i, { propagatesLookaheads := true })] := by
    have hempty : ∀ k a, ¬ TableHas .empty k a := by
      rintro k a ⟨info, hk, -⟩
      cases hk
    refine ⟨fun k a hka => ?_, .inr ⟨_, mem_singleton.mpr rfl, rfl⟩,
      fun j a hja => absurd hja (hempty j a), nofun, fun task hmem => ?_⟩
    · obtain ⟨info, hmem, hhas⟩ := hka.resolve_left (hempty k a)
      cases mem_singleton.mp hmem
      cases a with
      | here => exact .self
      | token x => exact absurd hhas (Finset.notMem_empty x)
      | follow => exact .start
    · rw [mem_singleton.mp hmem]
  obtain ⟨n, infos, hrun, hinv⟩ := @exists_run _ _ (processFollow g sets) (FollowInv g i)
    (followMeasure g) (fun _ _ _ h => ⟨h.step hg hsets, h.measure hg hsets hi⟩) _ _ hinit
  have hnone : ∀ k a, ¬ TaskHas [] k a := by
    rintro k a ⟨info, hmem, -⟩
    cases hmem
  have hcomplete : ∀ k a, Gets g i k a → TableHas infos k a := by
    intro k a hgets
    induction hgets with
    | self =>
      obtain ⟨info, hk, -⟩ := hinv.start.resolve_right (hnone _ _)
      exact ⟨info, hk, trivial⟩
    | start => exact hinv.start.resolve_right (hnone _ _)
    | child _ ha hid hchild ih =>
      exact (hinv.closed _ _ ih ha _ hid _ _ hchild).resolve_right (hnone _ _)
  exact ⟨n, infos, hrun, fun k a => ⟨fun h => hinv.sound k a (.inl h), hcomplete k a⟩⟩

end FollowSets

end TreeSitter.Generate
