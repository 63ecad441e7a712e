import TreeSitter.Generate.BuildTables.BuildLexTable
import TreeSitter.Library.Fallible

/-!
# TreeSitter.Generate.BuildTables.BuildLexTableSound

**Minimising and sorting the lex table changes no run.** Both passes rename states, and
`RenamedBy` says that a table is a renaming of another: the entry of each new id is the
renamed entry of the old one. For the minimised table this is the argument of partition
refinement: two states of one group have the same signature and lead to the same groups.
The end-of-file actions are not compared at all; that is sound because the builder makes
all of them lead to the state of the empty set.
-/

namespace TreeSitter.Generate

open List Library

/-! ### What the builder keeps -/

namespace LexTableBuilder

variable (grammar : LexicalGrammar) {b b' b'' : LexTableBuilder}

/-- The state of the empty set of automaton states, where an end of file leads. -/
def eofState (b : LexTableBuilder) : Option Nat :=
  lookupEntry ([], false) b.stateIdsByNfaStateSet

/-- The actions of a state lead to states of the table, an end of file to `eofState`. -/
structure StateOk (b : LexTableBuilder) (state : LexState) : Prop where
  target_lt : ∀ a ∈ state.advanceActions, a.2.state < b.states.length
  eof_target : ∀ a, state.eofAction = some a →
    a.inMainToken = true ∧ b.eofState = some a.state

/-- The invariant of the builder. -/
structure Ok (b : LexTableBuilder) : Prop where
  id_lt : ∀ e ∈ b.stateIdsByNfaStateSet, e.2 < b.states.length
  state_ok : ∀ state ∈ b.states, b.StateOk state

/-- States are never removed, and keep their ids. -/
structure Extends (b b' : LexTableBuilder) : Prop where
  length_le : b.states.length ≤ b'.states.length
  eofState : ∀ id, b.eofState = some id → b'.eofState = some id

theorem Extends.refl (b : LexTableBuilder) : b.Extends b := ⟨le_rfl, fun _ h => h⟩

theorem Extends.trans (h : b.Extends b') (h' : b'.Extends b'') : b.Extends b'' :=
  ⟨h.length_le.trans h'.length_le, fun id hid => h'.eofState id (h.eofState id hid)⟩

theorem StateOk.extends {state : LexState} (h : b.StateOk state) (hext : b.Extends b') :
    b'.StateOk state where
  target_lt a ha := (h.target_lt a ha).trans_le hext.length_le
  eof_target a ha := ⟨(h.eof_target a ha).1, hext.eofState _ (h.eof_target a ha).2⟩

theorem Ok.empty : Ok {} := ⟨by simp, by simp⟩

theorem stateOk_default (b : LexTableBuilder) : b.StateOk {} := ⟨by simp, by simp⟩

theorem addState_ok (hb : b.Ok) (nfaStates : List Nat) (eofValid : Bool) :
    b.Extends (b.addState grammar nfaStates eofValid).2 ∧
      (b.addState grammar nfaStates eofValid).2.Ok ∧
      (b.addState grammar nfaStates eofValid).1.1 <
        (b.addState grammar nfaStates eofValid).2.states.length ∧
      lookupEntry (resetCursor grammar.nfa nfaStates, eofValid)
        (b.addState grammar nfaStates eofValid).2.stateIdsByNfaStateSet =
          some (b.addState grammar nfaStates eofValid).1.1 := by
  rw [addState]
  cases hlook : lookupEntry (resetCursor grammar.nfa nfaStates, eofValid)
      b.stateIdsByNfaStateSet with
  | some stateId =>
    exact ⟨⟨le_rfl, fun _ h => h⟩, ⟨hb.id_lt, fun state hstate =>
      (hb.state_ok state hstate).extends ⟨le_rfl, fun _ h => h⟩⟩,
      hb.id_lt _ (lookupEntry_eq_some hlook), hlook⟩
  | none =>
    simp only
    have hext : b.Extends
        { cursor := resetCursor grammar.nfa nfaStates
          states := b.states ++ [{}]
          stateQueue := b.stateQueue ++
            [⟨b.states.length, resetCursor grammar.nfa nfaStates, eofValid⟩]
          stateIdsByNfaStateSet :=
            ((resetCursor grammar.nfa nfaStates, eofValid), b.states.length) ::
              b.stateIdsByNfaStateSet } := by
      refine ⟨by simp, fun id hid => ?_⟩
      rw [eofState, lookupEntry]
      -- The key is new, so it is not the key of the end-of-file state.
      rw [if_neg, ← hid, eofState]
      intro hkey
      rw [eofState, ← hkey, hlook] at hid
      cases hid
    refine ⟨hext, ⟨?_, ?_⟩, by simp, by simp [lookupEntry]⟩
    · intro e he
      rcases mem_cons.mp he with rfl | he
      · simp
      · have := hb.id_lt e he
        simp only [length_append, length_singleton]
        omega
    · intro state hstate
      rcases mem_append.mp hstate with hstate | hstate
      · exact (hb.state_ok state hstate).extends hext
      · rw [mem_singleton.mp hstate]
        exact stateOk_default _

/-- Changing a state in place keeps the invariant if the change does. -/
theorem modifyState_ok (hb : b.Ok) (stateId : Nat) {f : LexState → LexState}
    (hf : ∀ state, b.StateOk state → b.StateOk (f state)) :
    b.Extends (b.modifyState stateId f) ∧ (b.modifyState stateId f).Ok := by
  have hlen : (b.modifyState stateId f).states.length = b.states.length :=
    length_modify ..
  have hext : b.Extends (b.modifyState stateId f) := ⟨hlen.ge, fun _ h => h⟩
  refine ⟨hext, ⟨fun e he => hlen ▸ hb.id_lt e he, fun state hstate => ?_⟩⟩
  obtain ⟨i, hi⟩ := mem_iff_getElem?.mp hstate
  rw [modifyState, getElem?_modify] at hi
  obtain ⟨old, hold, rfl⟩ := Option.map_eq_some_iff.mp hi
  have hok := hb.state_ok old (mem_iff_getElem?.mpr ⟨i, hold⟩)
  split
  · exact (hf old hok).extends hext
  · exact hok.extends hext

theorem addEofAction_ok (hb : b.Ok) (stateId : Nat) (eofValid : Bool) :
    b.Extends (b.addEofAction grammar stateId eofValid) ∧
      (b.addEofAction grammar stateId eofValid).Ok := by
  rw [addEofAction]
  split
  · obtain ⟨hext, hok, -, hlook⟩ := addState_ok grammar hb [] false
    rw [resetCursor_nil] at hlook
    obtain ⟨hext', hok'⟩ := modifyState_ok hok stateId
      (f := fun state => { state with
        eofAction := some ⟨(b.addState grammar [] false).1.1, true⟩ })
      (fun state hstate => ⟨hstate.target_lt, fun a ha => by cases ha; exact ⟨rfl, hlook⟩⟩)
    exact ⟨hext.trans hext', hok'⟩
  · exact ⟨.refl b, hb⟩

theorem addAdvanceAction_ok (hb : b.Ok) (stateId : Nat) (eofValid : Bool)
    (completion : Option (Nat × Int)) (hasSep : Bool) (t : NfaTransition) :
    b.Extends (addAdvanceAction grammar stateId eofValid completion hasSep b t) ∧
      (addAdvanceAction grammar stateId eofValid completion hasSep b t).Ok := by
  rw [addAdvanceAction]
  split
  · exact ⟨.refl b, hb⟩
  · obtain ⟨hext, hok, hlt, -⟩ :=
      addState_ok grammar hb t.states (eofValid && t.isSeparator)
    obtain ⟨hext', hok'⟩ := modifyState_ok hok stateId
      (f := fun state => { state with
        advanceActions := state.advanceActions ++ [(t.characters,
          ⟨(b.addState grammar t.states (eofValid && t.isSeparator)).1.1, !t.isSeparator⟩)] })
      (fun state hstate => ⟨fun a ha => by
        rcases mem_append.mp ha with ha | ha
        · exact hstate.target_lt a ha
        · rw [mem_singleton.mp ha]; exact hlt, hstate.eof_target⟩)
    exact ⟨hext.trans hext', hok'⟩

theorem foldl_addAdvanceAction_ok (stateId : Nat) (eofValid : Bool)
    (completion : Option (Nat × Int)) (hasSep : Bool) (ts : List NfaTransition) :
    ∀ {b : LexTableBuilder}, b.Ok →
      b.Extends (ts.foldl (addAdvanceAction grammar stateId eofValid completion hasSep) b) ∧
        (ts.foldl (addAdvanceAction grammar stateId eofValid completion hasSep) b).Ok := by
  induction ts with
  | nil => exact fun hb => ⟨.refl _, hb⟩
  | cons t ts ih =>
    intro b hb
    obtain ⟨hext, hok⟩ :=
      addAdvanceAction_ok grammar hb stateId eofValid completion hasSep t
    obtain ⟨hext', hok'⟩ := ih hok
    exact ⟨hext.trans hext', hok'⟩

theorem setAcceptAction_ok (hb : b.Ok) (stateId : Nat) (completion : Option (Nat × Int)) :
    b.Extends (b.setAcceptAction stateId completion) ∧
      (b.setAcceptAction stateId completion).Ok := by
  have hset : ∀ symbol : Symbol,
      b.Extends (b.modifyState stateId fun s => { s with acceptAction := some symbol }) ∧
        (b.modifyState stateId fun s => { s with acceptAction := some symbol }).Ok :=
    fun symbol => modifyState_ok hb stateId fun s hs => ⟨hs.target_lt, hs.eof_target⟩
  cases completion with
  | some c => exact hset _
  | none =>
    rw [setAcceptAction.eq_def]
    dsimp only
    split
    · exact hset _
    · exact ⟨.refl b, hb⟩

theorem Ok.of_eq (hb : b.Ok) (b' : LexTableBuilder) (hstates : b'.states = b.states)
    (hids : b'.stateIdsByNfaStateSet = b.stateIdsByNfaStateSet) : b.Extends b' ∧ b'.Ok := by
  have hext : b.Extends b' := ⟨by rw [hstates], fun id h => by rwa [eofState, hids]⟩
  exact ⟨hext, ⟨by rw [hids, hstates]; exact hb.id_lt, fun state hstate =>
    (hb.state_ok state (hstates ▸ hstate)).extends hext⟩⟩

theorem populateState_ok (hb : b.Ok) (entry : QueueEntry) :
    b.Extends (b.populateState grammar entry) ∧ (b.populateState grammar entry).Ok := by
  obtain ⟨hext₀, hok₀⟩ := hb.of_eq { b with cursor := entry.nfaStates } rfl rfl
  obtain ⟨hext₁, hok₁⟩ :=
    addEofAction_ok grammar hok₀ entry.stateId entry.eofValid
  obtain ⟨hext₂, hok₂⟩ := foldl_addAdvanceAction_ok grammar entry.stateId
    entry.eofValid (bestCompletion grammar (completions grammar.nfa entry.nfaStates))
    ((rawTransitions grammar.nfa entry.nfaStates).any (·.isSep))
    (groupTransitions (rawTransitions grammar.nfa entry.nfaStates)) hok₁
  obtain ⟨hext₃, hok₃⟩ := setAcceptAction_ok hok₂ entry.stateId
    (bestCompletion grammar (completions grammar.nfa entry.nfaStates))
  exact ⟨((hext₀.trans hext₁).trans hext₂).trans hext₃, hok₃⟩

theorem drainQueue_ok (fuel : Nat) : ∀ {b b' : LexTableBuilder}, b.Ok →
    drainQueue grammar fuel b = some b' → b.Extends b' ∧ b'.Ok := by
  induction fuel with
  | zero => intro b b' _ h; cases h
  | succ fuel ih =>
    intro b b' hb h
    rw [drainQueue] at h
    split at h
    · cases h
      exact ⟨.refl b, hb⟩
    · rename_i entry rest _
      obtain ⟨hext₀, hok₀⟩ := hb.of_eq { b with stateQueue := rest } rfl rfl
      obtain ⟨hext₁, hok₁⟩ := populateState_ok grammar hok₀ entry
      obtain ⟨hext₂, hok₂⟩ := ih hok₁ h
      exact ⟨(hext₀.trans hext₁).trans hext₂, hok₂⟩

theorem addStateForTokens_ok (hb : b.Ok) {fuel : Nat} {tokens : List Symbol} {id : Nat}
    (h : b.addStateForTokens grammar fuel tokens = some (id, b')) :
    b.Extends b' ∧ b'.Ok ∧ id < b'.states.length := by
  simp only [addStateForTokens, Option.bind_eq_bind, Option.bind_eq_some_iff,
    Option.some.injEq, Prod.mk.injEq] at h
  obtain ⟨b₁, hdrain, rfl, rfl⟩ := h
  obtain ⟨hext, hok, hlt, -⟩ := addState_ok grammar hb
    (tokens.filterMap fun token =>
      if token.isTerminal then grammar.lexicalVariables[token.index]?.map (·.startState)
      else none)
    (tokens.any fun token => !token.isTerminal)
  obtain ⟨hext', hok'⟩ := drainQueue_ok grammar fuel hok hdrain
  exact ⟨hext.trans hext', hok', hlt.trans_le hext'.length_le⟩

end LexTableBuilder

/-! ### Renamed tables -/

def LexState.references (state : LexState) : List Nat :=
  state.eofAction.toList.map (·.state) ++ state.advanceActions.map (·.2.state)

/-- All referenced states exist. -/
def LexTable.Closed (table : LexTable) : Prop :=
  ∀ state ∈ table.states, ∀ t ∈ state.references, t < table.states.length

theorem LexState.references_rename (f : Nat → Nat) (state : LexState) :
    (state.rename f).references = state.references.map f := by
  obtain ⟨accept, eof, advances⟩ := state
  cases eof <;> simp [references, rename, AdvanceAction.rename, Function.comp_def]

theorem LexState.mem_references {state : LexState} {c : Option Nat} {action : AdvanceAction}
    (h : state.next c = some action) : action.state ∈ state.references := by
  have hadvance : ∀ c, state.advanceOn c = some action → action.state ∈ state.references := by
    intro c hc
    obtain ⟨a, ha, rfl⟩ := Option.map_eq_some_iff.mp hc
    exact mem_append_right _ (mem_map.mpr ⟨a, mem_of_find?_eq_some ha, rfl⟩)
  cases c with
  | some c => exact hadvance c h
  | none =>
    rw [next] at h
    cases heof : state.eofAction with
    | none => exact hadvance 0 (by simpa [heof] using h)
    | some eof =>
      rw [heof, Option.some_or, Option.some_inj] at h
      exact mem_append_left _ (by simp [heof, h])

theorem LexState.advanceOn_rename (f : Nat → Nat) (state : LexState) (c : Nat) :
    (state.rename f).advanceOn c = (state.advanceOn c).map (AdvanceAction.rename f) := by
  simp only [advanceOn, rename, find?_map, Option.map_map]
  rfl

theorem LexState.next_rename (f : Nat → Nat) (state : LexState) (c : Option Nat) :
    (state.rename f).next c = (state.next c).map (AdvanceAction.rename f) := by
  cases c with
  | some c => exact state.advanceOn_rename f c
  | none =>
    simp only [next, advanceOn_rename]
    simp only [rename]
    cases state.eofAction <;> rfl

theorem LexState.rename_rename (f g : Nat → Nat) (state : LexState) :
    (state.rename f).rename g = state.rename (g ∘ f) := by
  obtain ⟨accept, eof, advances⟩ := state
  cases eof <;> simp [LexState.rename, AdvanceAction.rename, Function.comp_def]

/-- `table'` has the states of `table` under the names `f` gives them, and no others. -/
structure RenamedBy (f : Nat → Nat) (table table' : LexTable) : Prop where
  getElem? : ∀ (s : Nat) (state : LexState), table.states[s]? = some state →
    table'.states[f s]? = some (state.rename f)
  exists_old : ∀ state' ∈ table'.states, ∃ state ∈ table.states, state' = state.rename f

variable {f : Nat → Nat} {table' : LexTable}

theorem RenamedBy.comp {g : Nat → Nat} {table table'' : LexTable} (h : RenamedBy f table table')
    (h' : RenamedBy g table' table'') :
    RenamedBy (g ∘ f) table table'' where
  getElem? s state hs := by
    rw [Function.comp_apply, h'.getElem? (f s) _ (h.getElem? s state hs),
      LexState.rename_rename]
  exists_old state'' hstate'' := by
    obtain ⟨state', hstate', rfl⟩ := h'.exists_old state'' hstate''
    obtain ⟨state, hstate, rfl⟩ := h.exists_old state' hstate'
    exact ⟨state, hstate, LexState.rename_rename f g state⟩

variable {s : Nat}

theorem RenamedBy.lt {table : LexTable} (h : RenamedBy f table table')
    (hs : s < table.states.length) : f s < table'.states.length :=
  (List.getElem?_eq_some_iff.mp (h.getElem? s _ (List.getElem?_eq_getElem hs))).1

theorem RenamedBy.closed {table : LexTable} (h : RenamedBy f table table')
    (hclosed : table.Closed) : table'.Closed := by
  intro state' hstate' t ht
  obtain ⟨state, hstate, rfl⟩ := h.exists_old state' hstate'
  rw [LexState.references_rename] at ht
  obtain ⟨s, hs, rfl⟩ := mem_map.mp ht
  exact h.lt (hclosed state hstate s hs)

/-- A run of a table in which all referenced states exist comes to its end. -/
theorem lexRun_isSome {table : LexTable} (hclosed : table.Closed) (input : List (Option Nat)) :
    ∀ {s : Nat}, s < table.states.length → (lexRun table s input).isSome = true := by
  induction input with
  | nil =>
    intro s hs
    simp [lexRun, List.getElem?_eq_getElem hs]
  | cons c cs ih =>
    intro s hs
    rw [lexRun, List.getElem?_eq_getElem hs, Option.bind_some]
    split
    · rfl
    · rename_i action hnext
      rw [Option.isSome_map]
      exact ih (hclosed _ (getElem_mem hs) _ (LexState.mem_references hnext))

/-- **Renaming changes no run.** -/
theorem RenamedBy.lexRun_eq {table : LexTable} (hclosed : table.Closed)
    (h : RenamedBy f table table') (input : List (Option Nat)) :
    ∀ {s : Nat}, s < table.states.length → lexRun table' (f s) input = lexRun table s input := by
  induction input with
  | nil =>
    intro s hs
    have hget := List.getElem?_eq_getElem hs
    rw [lexRun, lexRun, h.getElem? s _ hget, hget]
    rfl
  | cons c cs ih =>
    intro s hs
    have hget := List.getElem?_eq_getElem hs
    rw [lexRun, lexRun, h.getElem? s _ hget, hget, Option.bind_some, Option.bind_some,
      LexState.next_rename]
    cases hnext : table.states[s].next c with
    | none => rfl
    | some action =>
      simp only [Option.map_some, AdvanceAction.rename]
      rw [ih (hclosed _ (getElem_mem hs) _ (LexState.mem_references hnext))]
      rfl

/-- What the passes need of the table they are given. -/
structure LexTable.Ok (table : LexTable) : Prop where
  closed : table.Closed
  eof_eq : ∀ state ∈ table.states, ∀ state' ∈ table.states, ∀ a a',
    state.eofAction = some a → state'.eofAction = some a' → a = a'

theorem LexTableBuilder.Ok.table {b : LexTableBuilder} (hb : b.Ok) :
    LexTable.Ok ⟨b.states⟩ where
  closed state hstate t ht := by
    have hok := hb.state_ok state hstate
    rcases mem_append.mp ht with ht | ht
    · obtain ⟨a, ha, rfl⟩ := mem_map.mp ht
      obtain ⟨-, hlook⟩ := hok.eof_target a (by simpa using ha)
      exact hb.id_lt _ (lookupEntry_eq_some hlook)
    · obtain ⟨a, ha, rfl⟩ := mem_map.mp ht
      exact hok.target_lt a ha
  eof_eq state hstate state' hstate' a a' ha ha' := by
    obtain ⟨hmain, hlook⟩ := (hb.state_ok state hstate).eof_target a ha
    obtain ⟨hmain', hlook'⟩ := (hb.state_ok state' hstate').eof_target a' ha'
    obtain ⟨s, main⟩ := a
    obtain ⟨s', main'⟩ := a'
    simp only at hmain hmain' hlook hlook'
    rw [hlook, Option.some_inj] at hlook'
    rw [hmain, hmain', hlook']

/-! ### The main lex table -/

theorem addToTokenSets_ne_nil
    (mergeTokenSet : List Symbol → List Symbol → Option (List Symbol)) (tokens : List Symbol)
    (i : Nat) (entries : List (List Symbol × List Nat)) :
    addToTokenSets mergeTokenSet tokens i entries ≠ [] := by
  cases entries with
  | nil => simp [addToTokenSets]
  | cons entry rest =>
    rw [addToTokenSets]
    split <;> simp

theorem mem_foldl_set {x id : Nat} (ps : List Nat) : ∀ {ids : List Nat},
    x ∈ ps.foldl (fun ids p => ids.set p id) ids → x = id ∨ x ∈ ids := by
  induction ps with
  | nil => exact fun h => Or.inr h
  | cons p ps ih =>
    intro ids h
    rcases ih h with h | h
    · exact Or.inl h
    · exact (mem_or_eq_of_mem_set h).symm

theorem assignLexStates_ok (grammar : LexicalGrammar) (fuel : Nat) :
    ∀ (entries : List (List Symbol × List Nat)) {b : LexTableBuilder} {ids ids' : List Nat}
      {table : LexTable}, b.Ok → (∀ id ∈ ids, id < b.states.length ∨ id = 0 ∧ entries ≠ []) →
      assignLexStates grammar fuel entries b ids = some (table, ids') →
      table.Ok ∧ ∀ id ∈ ids', id < table.states.length
  | [], b, ids, ids', table, hb, hids, h => by
    cases h
    exact ⟨hb.table, fun id hid => (hids id hid).resolve_right (by simp)⟩
  | entry :: rest, b, ids, ids', table, hb, hids, h => by
    rw [assignLexStates, Option.bind_eq_some_iff] at h
    obtain ⟨⟨id, b'⟩, hadd, h⟩ := h
    obtain ⟨hext, hok, hlt⟩ := LexTableBuilder.addStateForTokens_ok grammar hb hadd
    refine assignLexStates_ok grammar fuel rest hok (fun x hx => Or.inl ?_) h
    rcases mem_foldl_set entry.2 hx with rfl | hx
    · exact hlt
    · rcases hids x hx with hx | ⟨rfl, -⟩
      · exact hx.trans_le hext.length_le
      · exact (Nat.zero_le id).trans_lt hlt

theorem buildMainLexTable_ok {grammar : LexicalGrammar}
    {mergeTokenSet : List Symbol → List Symbol → Option (List Symbol)} {fuel : Nat}
    {tokenSets : List (List Symbol)} {table : LexTable} {ids : List Nat}
    (h : buildMainLexTable grammar mergeTokenSet fuel tokenSets = some (table, ids)) :
    table.Ok ∧ ∀ id ∈ ids, id < table.states.length := by
  refine assignLexStates_ok grammar fuel _ .empty (fun id hid => Or.inr ?_) h
  rw [mem_replicate] at hid
  refine ⟨hid.2, ?_⟩
  -- The last parse state is added to a nonempty list of token sets.
  rw [parseStateIdsByTokenSet]
  rcases eq_nil_or_concat tokenSets with rfl | ⟨init, tokens, rfl⟩
  · exact absurd rfl hid.1
  · rw [concat_eq_append, zipIdx_append, zipIdx_cons, zipIdx_nil,
      foldl_append, foldl_cons, foldl_nil]
    exact addToTokenSets_ne_nil _ _ _ _

/-! ### Grouping by signature -/

section Signatures

variable {σ : Type} [DecidableEq σ]

theorem get?_groupBySignature_entries (es : List (σ × Nat)) (x : σ) :
    (es.foldl (fun m e => m.insert e.1 ((m.get? e.1).getD [] ++ [e.2]))
        (⟨[], nodup_nil⟩ : IndexMap σ (List Nat))).get? x =
      if (es.filter (·.1 = x)).isEmpty then none
      else some ((es.filter (·.1 = x)).map Prod.snd) := by
  induction es using List.reverseRecOn with
  | nil => rfl
  | append_singleton es e ih =>
    rw [foldl_append, foldl_cons, foldl_nil, IndexMap.get?_insert,
      filter_append]
    by_cases hx : e.1 = x
    · subst hx
      rw [if_pos rfl, ih]
      cases hfil : es.filter (·.1 = e.1) <;> simp
    · rw [if_neg hx, ih, filter_cons_of_neg (by simpa using hx), filter_nil,
        append_nil]

/-- The blocks a list of groups partitions `0 .. n - 1` into. -/
structure Blocks (n : Nat) (members : List (List Nat)) : Prop where
  lt : ∀ ids ∈ members, ∀ s ∈ ids, s < n
  covers : ∀ s < n, ∃ ids ∈ members, s ∈ ids
  nonempty : ∀ ids ∈ members, ids ≠ []
  nodup : ∀ ids ∈ members, ids.Nodup
  disjoint : members.Pairwise List.Disjoint

theorem Blocks.perm {n : Nat} {members members' : List (List Nat)} (h : Blocks n members)
    (hperm : members'.Perm members) : Blocks n members' where
  lt ids hids := h.lt ids (hperm.mem_iff.mp hids)
  covers s hs := by
    obtain ⟨ids, hids, hmem⟩ := h.covers s hs
    exact ⟨ids, hperm.mem_iff.mpr hids, hmem⟩
  nonempty ids hids := h.nonempty ids (hperm.mem_iff.mp hids)
  nodup ids hids := h.nodup ids (hperm.mem_iff.mp hids)
  disjoint := (hperm.pairwise_iff fun h => h.symm).mpr h.disjoint

/-- The group of a state is the first block that holds it, which is the only one. -/
theorem Blocks.partition {n : Nat} {members : List (List Nat)} (h : Blocks n members) :
    Partition n ⟨members, fun s => (members.findIdx? (·.contains s)).getD 0⟩ := by
  have hfind : ∀ {k : Nat} {ids : List Nat} {s : Nat}, members[k]? = some ids → s ∈ ids →
      members.findIdx? (·.contains s) = some k := by
    intro k ids s hk hs
    obtain ⟨hlt, rfl⟩ := List.getElem?_eq_some_iff.mp hk
    rw [List.findIdx?_eq_some_iff_getElem]
    refine ⟨hlt, by simpa using hs, fun j hj hcontains => ?_⟩
    exact pairwise_iff_getElem.mp h.disjoint j k (by omega) hlt hj
      (by simpa using hcontains) hs
  constructor
  · intro k ids s hk hs
    have hmem := mem_iff_getElem?.mpr ⟨k, hk⟩
    exact ⟨h.lt ids hmem s hs, by simp only [hfind hk hs, Option.getD_some]⟩
  · intro s hs
    obtain ⟨ids, hids, hmem⟩ := h.covers s hs
    obtain ⟨k, hk⟩ := mem_iff_getElem?.mp hids
    exact ⟨ids, by simp only [hfind hk hmem, Option.getD_some, hk], hmem⟩
  · intro k ids hk
    exact h.nonempty ids (mem_iff_getElem?.mpr ⟨k, hk⟩)
  · intro k ids hk
    exact h.nodup ids (mem_iff_getElem?.mpr ⟨k, hk⟩)

theorem mem_groupBySignature {signatures : List σ} {x : σ} {ids : List Nat}
    (h : (x, ids) ∈ (groupBySignature signatures).entries) :
    ids ≠ [] ∧ ids.Nodup ∧ ∀ s, s ∈ ids ↔ signatures[s]? = some x := by
  rw [IndexMap.mem_entries_iff, groupBySignature, get?_groupBySignature_entries] at h
  split at h
  · cases h
  · rename_i hne
    cases h
    refine ⟨by simpa using hne, ?_, fun s => ?_⟩
    · have hsub : List.Sublist ((signatures.zipIdx.filter (·.1 = x)).map Prod.snd)
          (signatures.zipIdx.map Prod.snd) := filter_sublist.map _
      refine hsub.nodup ?_
      rw [zipIdx_map_snd]
      exact nodup_range'
    · simp only [mem_map, mem_filter, decide_eq_true_eq, Prod.exists,
        exists_eq_right, mem_zipIdx_iff_getElem?]

theorem groupBySignature_blocks (signatures : List σ) :
    Blocks signatures.length ((groupBySignature signatures).entries.map Prod.snd) := by
  have hmem : ∀ ids, ids ∈ (groupBySignature signatures).entries.map Prod.snd →
      ∃ x, (x, ids) ∈ (groupBySignature signatures).entries := by
    intro ids hids
    obtain ⟨⟨x, ids'⟩, hentry, rfl⟩ := mem_map.mp hids
    exact ⟨x, hentry⟩
  constructor
  · intro ids hids s hs
    obtain ⟨x, hx⟩ := hmem ids hids
    exact (List.getElem?_eq_some_iff.mp (((mem_groupBySignature hx).2.2 s).mp hs)).1
  · intro s hs
    have hentry : ∃ ids, (signatures[s], ids) ∈ (groupBySignature signatures).entries := by
      simp only [IndexMap.mem_entries_iff, groupBySignature, get?_groupBySignature_entries]
      rw [if_neg]
      · exact ⟨_, rfl⟩
      · rw [List.isEmpty_iff, List.filter_eq_nil_iff]
        intro hnone
        exact hnone (signatures[s], s)
          (mem_zipIdx_iff_getElem?.mpr (List.getElem?_eq_getElem hs)) (by simp)
    obtain ⟨ids, hids⟩ := hentry
    exact ⟨ids, mem_map.mpr ⟨_, hids, rfl⟩,
      ((mem_groupBySignature hids).2.2 s).mpr (List.getElem?_eq_getElem hs)⟩
  · intro ids hids
    obtain ⟨x, hx⟩ := hmem ids hids
    exact (mem_groupBySignature hx).1
  · intro ids hids
    obtain ⟨x, hx⟩ := hmem ids hids
    exact (mem_groupBySignature hx).2.1
  · rw [pairwise_map]
    refine (pairwise_map.mp (groupBySignature signatures).nodup).imp_of_mem ?_
    intro e e' he he' hne s hs hs'
    have hsig := ((mem_groupBySignature he).2.2 s).mp hs
    have hsig' := ((mem_groupBySignature he').2.2 s).mp hs'
    rw [hsig, Option.some_inj] at hsig'
    exact hne hsig'

end Signatures

/-! ### The groups minimisation starts from -/

theorem swapAt_perm {α : Type*} {xs ys : List α} {i j : Nat} (h : swapAt xs i j = some ys) :
    ys.Perm xs := by
  simp only [swapAt, Option.bind_eq_bind, Option.bind_eq_some_iff, Option.some_inj] at h
  obtain ⟨x, hx, y, hy, rfl⟩ := h
  obtain ⟨hi, rfl⟩ := List.getElem?_eq_some_iff.mp hx
  obtain ⟨hj, rfl⟩ := List.getElem?_eq_some_iff.mp hy
  exact set_set_perm hi hj

/-- What the initial grouping is like. -/
structure SignatureGroups (table : LexTable) (g : Groups) : Prop where
  partition : Partition table.states.length g
  first : g.members[0]? = some [0]
  same : ∀ (s t : Nat) (state state' : LexState), table.states[s]? = some state →
    table.states[t]? = some state' → g.groupOf s = g.groupOf t →
    lexSignature s state = lexSignature t state'

/-- A table with a state has initial groups: the search for the group of state 0 does not
fail. -/
theorem signatureGroups_spec {table : LexTable} (hne : 0 < table.states.length) :
    ∃ g, signatureGroups table = some g ∧ SignatureGroups table g := by
  set signatures := table.states.mapIdx fun i state => lexSignature i state with hsignatures
  set sorted := ((groupBySignature signatures).entries.map Prod.snd).insertionSort (· ≤ ·)
    with hsorted
  have hlen : signatures.length = table.states.length := length_mapIdx
  have hperm : sorted.Perm ((groupBySignature signatures).entries.map Prod.snd) :=
    perm_insertionSort _ _
  have hblocks : Blocks table.states.length sorted :=
    hlen ▸ (groupBySignature_blocks signatures).perm hperm
  have hget : ∀ {s : Nat} {state : LexState}, table.states[s]? = some state →
      signatures[s]? = some (lexSignature s state) := by
    intro s state hs
    rw [hsignatures, getElem?_mapIdx, hs, Option.map_some]
  obtain ⟨ids, hids, hzero⟩ := hblocks.covers 0 hne
  obtain ⟨i, hi⟩ : ∃ i, sorted.findIdx? (·.contains 0) = some i := by
    rw [← Option.isSome_iff_exists, findIdx?_isSome, any_eq_true]
    exact ⟨ids, hids, by simpa using hzero⟩
  obtain ⟨hlt, hcontains, -⟩ := List.findIdx?_eq_some_iff_getElem.mp hi
  have hswap : swapAt sorted i 0 = some ((sorted.set i sorted[0]).set 0 sorted[i]) := by
    simp [swapAt, List.getElem?_eq_getElem hlt, List.getElem?_eq_getElem (by omega : 0 < sorted.length)]
  set members := (sorted.set i sorted[0]).set 0 sorted[i] with hmembers
  have hperm' : members.Perm sorted := swapAt_perm hswap
  have hblocks' : Blocks table.states.length members := hblocks.perm hperm'
  -- The states of a block share the signature the block is the entry of.
  have hsame : ∀ ids ∈ members, ∃ x, ∀ s, s ∈ ids ↔ signatures[s]? = some x := by
    intro ids hids
    obtain ⟨⟨x, ids'⟩, hentry, rfl⟩ := mem_map.mp ((hperm'.trans hperm).mem_iff.mp hids)
    exact ⟨x, (mem_groupBySignature hentry).2.2⟩
  have hpartition := hblocks'.partition
  refine ⟨⟨members, fun s => (members.findIdx? (·.contains s)).getD 0⟩, ?_, hpartition, ?_, ?_⟩
  · simp only [signatureGroups, ← hsignatures, ← hsorted, hi, Option.bind_eq_bind,
      Option.bind_some, hswap]
  · have hfirst : members[0]? = some sorted[i] := by
      rw [hmembers, getElem?_set_self (by simp; omega)]
    have hmem : sorted[i] ∈ members := mem_iff_getElem?.mpr ⟨0, hfirst⟩
    obtain ⟨x, hx⟩ := hsame _ hmem
    have hsig := (hx 0).mp (by simpa using hcontains)
    -- Only state 0 has a signature that says so.
    have hall : ∀ s ∈ sorted[i], s = 0 := by
      intro s hs
      have hsig' := (hx s).mp hs
      rw [← hsig, hsignatures, getElem?_mapIdx, getElem?_mapIdx] at hsig'
      obtain ⟨state, hstate, hs'⟩ := Option.map_eq_some_iff.mp (hsig'.trans
        (by rw [List.getElem?_eq_getElem hne]; rfl))
      have := congrArg LexSignature.isFirst hs'
      simpa [lexSignature] using this
    have hone : sorted[i] = [0] := by
      have hnodup := hblocks'.nodup _ hmem
      have hnil := hblocks'.nonempty _ hmem
      cases hblock : sorted[i] with
      | nil => exact absurd hblock hnil
      | cons s rest =>
        rw [hblock] at hall hnodup
        obtain rfl := hall s mem_cons_self
        cases rest with
        | nil => rfl
        | cons t rest =>
          obtain rfl := hall t (by simp)
          simp at hnodup
    rw [← hone]
    exact hfirst
  · intro s t state state' hs ht hgroup
    obtain ⟨ids, hids, hmem⟩ := hpartition.exists_mem (List.getElem?_eq_some_iff.mp hs).1
    obtain ⟨ids', hids', hmem'⟩ := hpartition.exists_mem (List.getElem?_eq_some_iff.mp ht).1
    rw [← hgroup, hids, Option.some_inj] at hids'
    subst hids'
    obtain ⟨x, hx⟩ := hsame ids (mem_iff_getElem?.mpr ⟨_, hids⟩)
    have hsig := (hget hs).symm.trans ((hx s).mp hmem)
    have hsig' := (hget ht).symm.trans ((hx t).mp hmem')
    exact Option.some_inj.mp (hsig.trans hsig'.symm)

/-! ### The minimised table -/

theorem map_advance_rename_eq : ∀ {left right : List (CharacterSet × AdvanceAction)},
    left.map (fun a => (a.1, a.2.inMainToken)) = right.map (fun a => (a.1, a.2.inMainToken)) →
    ((left.zip right).any fun p => f p.1.2.state != f p.2.2.state) = false →
    left.map (fun a => (a.1, a.2.rename f)) = right.map fun a => (a.1, a.2.rename f)
  | [], [], _, _ => rfl
  | [], _ :: _, h, _ | _ :: _, [], h, _ => by cases h
  | ⟨c, s, main⟩ :: left, ⟨c', s', main'⟩ :: right, h, hany => by
    simp only [map_cons, List.cons.injEq, Prod.mk.injEq] at h
    simp only [zip_cons_cons, any_cons, Bool.or_eq_false_iff, bne_eq_false_iff_eq]
      at hany
    obtain ⟨⟨rfl, rfl⟩, htail⟩ := h
    rw [map_cons, map_cons, map_advance_rename_eq htail hany.2]
    simp only [AdvanceAction.rename, hany.1]

/-- Two states with the same signature that do not differ are renamed to the same state:
their end-of-file actions are equal already. -/
theorem LexState.rename_eq {table : LexTable} (hok : table.Ok) {t : Nat} {left right : LexState}
    (hleft : table.states[s]? = some left) (hright : table.states[t]? = some right)
    (hsig : lexSignature s left = lexSignature t right)
    (hdiffer : lexStatesDiffer left right f = false) : left.rename f = right.rename f := by
  obtain ⟨accept, eof, advances⟩ := left
  obtain ⟨accept', eof', advances'⟩ := right
  simp only [lexSignature, LexSignature.mk.injEq] at hsig
  obtain ⟨-, rfl, hsome, hadvances⟩ := hsig
  have heof : eof = eof' := by
    cases eof with
    | none => exact (Option.isNone_iff_eq_none.mp (by simpa using hsome.symm)).symm
    | some a =>
      obtain ⟨a', rfl⟩ := Option.isSome_iff_exists.mp hsome.symm
      rw [hok.eof_eq _ (mem_iff_getElem?.mpr ⟨s, hleft⟩) _
        (mem_iff_getElem?.mpr ⟨t, hright⟩) a a' rfl rfl]
  simp only [rename, heof, map_advance_rename_eq hadvances hdiffer]

theorem rename_eq_of_groupOf_eq {table : LexTable} (hok : table.Ok) {start g : Groups}
    (hstart : SignatureGroups table start)
    (hg : Stable (differIn table.states lexStatesDiffer) table.states.length 1 start g) {t : Nat}
    {left right : LexState} (hleft : table.states[s]? = some left)
    (hright : table.states[t]? = some right) (hst : g.groupOf s = g.groupOf t) :
    left.rename g.groupOf = right.rename g.groupOf := by
  have hs := (List.getElem?_eq_some_iff.mp hleft).1
  have ht := (List.getElem?_eq_some_iff.mp hright).1
  have hsig := hstart.same s t left right hleft hright (hg.refines s t hs ht hst)
  -- The first group is not refined, and need not be: it has one state.
  have hall : GroupsAll (fun x y => differIn table.states lexStatesDiffer g.groupOf x y = false)
      0 g := by
    intro k ids hk hids
    cases k with
    | zero =>
      rw [hg.below 0 (by omega), hstart.first, Option.some_inj] at hids
      rw [← hids]
      exact pairwise_singleton _ _
    | succ k => exact hg.stable (k + 1) ids (by omega) hids
  rcases hg.partition.pair_of_groupOf_eq hall hs ht hst with rfl | hdiffer | hdiffer
  · rw [hleft, Option.some_inj] at hright
    rw [hright]
  · simp only [differIn, hleft, hright] at hdiffer
    exact LexState.rename_eq hok hleft hright hsig hdiffer
  · simp only [differIn, hleft, hright] at hdiffer
    exact (LexState.rename_eq hok hright hleft hsig.symm hdiffer).symm

/-- **`minimize_lex_table` renames states.** -/
theorem minimizeLexTable_spec {table : LexTable} (hok : table.Ok)
    (hne : 0 < table.states.length) (ids : List Nat) :
    ∃ (f : Nat → Nat) (table' : LexTable),
      minimizeLexTable table ids = some (table', ids.map f) ∧ RenamedBy f table table' := by
  obtain ⟨start, hstart, hspec⟩ := signatureGroups_spec hne
  have hstable := splitUntilStable_spec (differIn table.states lexStatesDiffer) 1
    (table.states.length + 1) hspec.partition (by omega)
  set g := splitUntilStable (differIn table.states lexStatesDiffer) 1
    (table.states.length + 1) start with hg
  have hleader : ∀ members ∈ g.members, ∃ state' : LexState, (do
      let leader ← members.head?
      let state ← table.states[leader]?
      some (state.rename g.groupOf)) = some state' := by
    intro members hmembers
    obtain ⟨k, hk⟩ := mem_iff_getElem?.mp hmembers
    cases members with
    | nil => exact absurd rfl (hstable.partition.nonempty hk)
    | cons leader rest =>
      have hlt := (hstable.partition.of_mem hk mem_cons_self).1
      exact ⟨table.states[leader].rename g.groupOf, by simp [List.getElem?_eq_getElem hlt]⟩
  obtain ⟨newStates, hnew⟩ := exists_mapM hleader
  refine ⟨g.groupOf, ⟨newStates⟩, ?_, ?_, ?_⟩
  · simp only [minimizeLexTable, hstart, ← hg, Option.bind_eq_bind, Option.bind_some] at hnew ⊢
    rw [hnew, Option.bind_some]
  · intro s state hs
    obtain ⟨members, hmembers, hmem⟩ :=
      hstable.partition.exists_mem (List.getElem?_eq_some_iff.mp hs).1
    rw [getElem?_of_mapM hnew, hmembers, Option.bind_some]
    cases members with
    | nil => cases hmem
    | cons leader rest =>
      obtain ⟨hlt, hgroup⟩ := hstable.partition.of_mem hmembers mem_cons_self
      have hget := List.getElem?_eq_getElem hlt
      have heq := rename_eq_of_groupOf_eq hok hspec hstable hget hs hgroup
      simp [hget, heq]
  · intro state' hstate'
    obtain ⟨k, hk⟩ := mem_iff_getElem?.mp hstate'
    rw [getElem?_of_mapM hnew] at hk
    simp only [Option.bind_eq_bind, Option.bind_eq_some_iff, Option.some_inj] at hk
    obtain ⟨members, -, leader, -, state, hstate, rfl⟩ := hk
    exact ⟨state, mem_iff_getElem?.mpr ⟨leader, hstate⟩, rfl⟩

/-! ### The sorted table -/

theorem sortedIds_perm (table : LexTable) :
    (sortedIds table).Perm (List.range table.states.length) := by
  have hsplit := (take_append_drop 1 (List.range table.states.length)).symm
  rw [sortedIds]
  conv => rhs; rw [hsplit]
  exact List.Perm.append_left _ (perm_insertionSort _ _)

/-- **`sort_states` renames states.** -/
theorem sortStates_spec (table : LexTable) (ids : List Nat) :
    (sortStates table ids).2 = ids.map (newIdOf (sortedIds table)) ∧
      RenamedBy (newIdOf (sortedIds table)) table (sortStates table ids).1 := by
  have hmem : ∀ s, s ∈ sortedIds table ↔ s < table.states.length := by
    intro s
    rw [(sortedIds_perm table).mem_iff, mem_range]
  refine ⟨rfl, ⟨fun s state hs => ?_, fun state' hstate' => ?_⟩⟩
  · have hlt := List.idxOf_lt_length_iff.mpr ((hmem s).mpr (List.getElem?_eq_some_iff.mp hs).1)
    simp only [sortStates, List.getElem?_map, newIdOf, List.getElem?_eq_getElem hlt,
      getElem_idxOf, Option.map_some, getD_eq_getElem?_getD, hs, Option.getD_some]
  · obtain ⟨s, hs, rfl⟩ := mem_map.mp hstate'
    have hlt := (hmem s).mp hs
    refine ⟨table.states[s], getElem_mem hlt, ?_⟩
    rw [getD_eq_getElem?_getD, List.getElem?_eq_getElem hlt, Option.getD_some]

/-! ### Both passes -/

/-- **Minimising and sorting the main lex table changes no run.** Every parse state gets a
lex state from which every input, with the end of file at any point, is lexed as before,
and in the new table every referenced state exists. -/
theorem minimizeLexTable_sortStates_lexRun {grammar : LexicalGrammar}
    {mergeTokenSet : List Symbol → List Symbol → Option (List Symbol)} {fuel : Nat}
    {tokenSets : List (List Symbol)} {table : LexTable} {lexStateIds : List Nat}
    (hbuild : buildMainLexTable grammar mergeTokenSet fuel tokenSets = some (table, lexStateIds))
    {parseState id : Nat} (hid : lexStateIds[parseState]? = some id) :
    ∃ minimized minimizedIds,
      minimizeLexTable table lexStateIds = some (minimized, minimizedIds) ∧
      (sortStates minimized minimizedIds).1.Closed ∧
      ∃ newId, (sortStates minimized minimizedIds).2[parseState]? = some newId ∧
        ∀ input, (lexRun table id input).isSome = true ∧
          lexRun (sortStates minimized minimizedIds).1 newId input = lexRun table id input := by
  obtain ⟨hok, hids⟩ := buildMainLexTable_ok hbuild
  have hlt := hids id (mem_iff_getElem?.mpr ⟨parseState, hid⟩)
  obtain ⟨f, minimized, hmin, hrenamed⟩ :=
    minimizeLexTable_spec hok (Nat.zero_lt_of_lt hlt) lexStateIds
  obtain ⟨hsortedIds, hsorted⟩ := sortStates_spec minimized (lexStateIds.map f)
  have hboth := hrenamed.comp hsorted
  refine ⟨minimized, lexStateIds.map f, hmin, hboth.closed hok.closed,
    newIdOf (sortedIds minimized) (f id), ?_, fun input =>
      ⟨lexRun_isSome hok.closed input hlt, hboth.lexRun_eq hok.closed input hlt⟩⟩
  rw [hsortedIds, List.getElem?_map, List.getElem?_map, hid]
  rfl

/-- A lexical grammar with the tokens `a` and `b`. -/
def letterGrammar : LexicalGrammar where
  nfa := [.accept 0 0, .advance (CharacterSet.fromChar 'a') 0 false 0,
    .accept 1 0, .advance (CharacterSet.fromChar 'b') 2 false 0]
  lexicalVariables := [⟨0, 1⟩, ⟨0, 3⟩]

/-- Two parse states, of which the second can also see the end of file. -/
theorem minimizeLexTable_sortStates_letters :
    ∃ table, buildMainLexTable letterGrammar (fun _ _ => none) 10
        [[.terminal 0], [.terminal 1, .eof]] = some (table, [0, 2]) ∧
      ∃ minimized minimizedIds,
        minimizeLexTable table [0, 2] = some (minimized, minimizedIds) ∧
        (sortStates minimized minimizedIds).1.Closed ∧
        ∃ newId, (sortStates minimized minimizedIds).2[1]? = some newId ∧
          ∀ input, (lexRun table 2 input).isSome = true ∧
            lexRun (sortStates minimized minimizedIds).1 newId input = lexRun table 2 input := by
  have hbuild : ∃ table, buildMainLexTable letterGrammar (fun _ _ => none) 10
      [[.terminal 0], [.terminal 1, .eof]] = some (table, [0, 2]) := ⟨_, rfl⟩
  obtain ⟨table, hbuild⟩ := hbuild
  have hid : [0, 2][1]? = some 2 := rfl
  exact ⟨table, hbuild, minimizeLexTable_sortStates_lexRun hbuild hid⟩

end TreeSitter.Generate
