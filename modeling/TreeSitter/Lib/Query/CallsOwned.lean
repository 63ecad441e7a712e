import TreeSitter.Lib.Query.AdvanceOwned

/-!
# TreeSitter.Lib.Query.CallsOwned

The calls of the query cursor's API keep the **ownership** of the capture lists, so that it holds
after any sequence of calls on a new cursor.

The functions that work on the finished states only put them into another order, change counters,
or remove one of them and release its list. The bound on the number of lists is the largest match
limit that was in effect when a call could take a list.
-/

namespace TreeSitter.Lib

open List Library

namespace CaptureListPool

variable {self : CaptureListPool} {limit : Nat} {ids : List Nat}

open CaptureListPool (Owned)

theorem Owned.reset (h : Owned limit self ids) : Owned limit self.reset [] := by
  refine ⟨?_, ?_, by simpa [CaptureListPool.reset] using h.lists, h.max, h.fits⟩
  · rw [filter_nil, nil_perm, eq_nil_iff_forall_not_mem]
    intro i hi
    rw [CaptureListPool.mem_usedIds, CaptureListPool.reset] at hi
    cases hget : self.list[i]? <;> simp [hget] at hi
  · simp [CaptureListPool.reset, countP_map, Function.comp_def]

end CaptureListPool

namespace TSQueryCursor

open CaptureListPool (Owned)

variable {τ : Type} {limit : Nat} {c c' : TSQueryCursor τ} {walk : TreeWalk τ} {turns : Nat}

/-! ### The finished states -/

/-- The finished states are in another order, or their counters are others. -/
theorem ListsOwned.of_finished (h : ListsOwned limit c) (hpool : c'.captureListPool = c.captureListPool)
    (hstates : c'.states = c.states)
    (hfinished : (c'.finishedStates.map QueryState.captureListId).Perm
      (c.finishedStates.map QueryState.captureListId)) : ListsOwned limit c' := by
  refine ⟨?_, hstates ▸ h.spare⟩
  rw [hpool]
  refine h.owned.of_perm ?_
  rw [listIds, listIds, map_append, map_append, hstates]
  exact hfinished.symm.append_left _

variable {state : QueryState}

theorem ListsOwned.remove (h : ListsOwned limit c)
    (hpool : c'.captureListPool = c.captureListPool.release state.captureListId)
    (hstates : c'.states = c.states) (hperm : c.finishedStates.Perm (state :: c'.finishedStates)) :
    ListsOwned limit c' := by
  refine ⟨?_, hstates ▸ h.spare⟩
  rw [hpool]
  refine Owned.release (h.owned.of_perm ?_)
  rw [listIds, listIds, hstates, ← map_cons]
  exact ((hperm.append_left c.states).trans perm_middle).map _

theorem heapifyFinishedStates_perm (c : TSQueryCursor τ) :
    c.heapifyFinishedStates.finishedStates.Perm c.finishedStates := BinaryHeap.heapifyFrom_perm

theorem heapifyFinishedStates_owned (h : ListsOwned limit c) :
    ListsOwned limit c.heapifyFinishedStates :=
  h.of_finished rfl rfl ((heapifyFinishedStates_perm c).map _)

theorem heapifyIfHeap_owned (h : ListsOwned limit c) : ListsOwned limit c.heapifyIfHeap := by
  unfold heapifyIfHeap
  split
  · exact heapifyFinishedStates_owned h
  · exact h

variable {index : Nat}

theorem perm_cons_eraseIdx {α : Type*} {xs : List α} {x : α} (h : xs[index]? = some x) :
    xs.Perm (x :: xs.eraseIdx index) := by
  obtain ⟨hlt, rfl⟩ := List.getElem?_eq_some_iff.1 h
  exact (List.getElem_cons_eraseIdx_perm hlt).symm

theorem removeFinished_perm (hget : c.finishedStates[index]? = some state) :
    c.finishedStates.Perm (state :: (c.removeFinished index state).finishedStates) := by
  unfold removeFinished
  dsimp only
  split
  · exact BinaryHeap.erase_perm hget
  · exact perm_cons_eraseIdx hget

theorem removeFinished_owned (hget : c.finishedStates[index]? = some state)
    (h : ListsOwned limit c) :
    ListsOwned limit (c.removeFinished index state) := by
  refine h.remove ?_ ?_ (removeFinished_perm hget)
  · unfold removeFinished
    dsimp only
    split <;> rfl
  · unfold removeFinished
    dsimp only
    split <;> rfl

theorem assignId_fst (c : TSQueryCursor τ) (state : QueryState) :
    ∃ nextStateId, (c.assignId state).1 = { c with nextStateId } := by
  unfold assignId
  split
  · exact ⟨_, rfl⟩
  · exact ⟨c.nextStateId, rfl⟩

theorem takeMatch_owned {result : TSQueryMatch} (htake : c.takeMatch = some (c', result))
    (h : ListsOwned limit c) : ListsOwned limit c' := by
  obtain ⟨state, hget, htake⟩ := Option.map_eq_some_iff.1 htake
  obtain ⟨nextStateId, hassign⟩ := assignId_fst c.heapifyIfHeap state
  simp only [Prod.mk.injEq] at htake
  obtain ⟨rfl, -⟩ := htake
  rw [hassign]
  refine removeFinished_owned hget ?_
  exact (heapifyIfHeap_owned h).of_finished rfl rfl (.refl _)

section Keeps

variable {P : TSQueryCursor τ → Prop} (hadvance : ∀ {stop found : Bool} {turns : Nat}
  {c c' : TSQueryCursor τ}, advance walk stop turns c false = some (c', found) → P c → P c')

include hadvance

/-- What the walk and the taking of a match keep, the next match keeps. -/
theorem nextMatch_keeps (htake : ∀ {c c' : TSQueryCursor τ} {result : TSQueryMatch},
      c.takeMatch = some (c', result) → P c → P c') {result : Option TSQueryMatch}
    (hnext : c.nextMatch walk turns = some (c', result)) (h : P c) : P c' := by
  unfold nextMatch at hnext
  split at hnext
  · obtain ⟨⟨c₁, found⟩, hadvance₁, hnext⟩ := Option.bind_eq_some_iff.1 hnext
    have h₁ := hadvance hadvance₁ h
    simp only at hnext
    split at hnext
    · obtain ⟨⟨c₂, result⟩, htake₂, hnext⟩ := Option.map_eq_some_iff.1 hnext
      cases hnext
      exact htake htake₂ h₁
    · cases hnext
      exact h₁
  · obtain ⟨⟨c₂, result⟩, htake₂, hnext⟩ := Option.map_eq_some_iff.1 hnext
    cases hnext
    exact htake htake₂ h

theorem nextCapture_keeps (hturn : ∀ {turns : Nat} {c c' : TSQueryCursor τ}
      {returned : Option ReturnedCapture}, c.captureTurn turns = some (c', returned) → P c → P c') :
    ∀ {turns : Nat} {c c' : TSQueryCursor τ} {returned : Option ReturnedCapture},
      nextCapture walk turns c = some (c', returned) → P c → P c' := by
  intro turns
  induction turns with
  | zero =>
    intro c c' returned hnext
    cases hnext
  | succ turns ih =>
    intro c c' returned hnext h
    rw [nextCapture] at hnext
    obtain ⟨⟨c₁, returned₁⟩, hturn₁, hnext⟩ := Option.bind_eq_some_iff.1 hnext
    have h₁ := hturn hturn₁ h
    cases returned₁ with
    | some returned₁ =>
      cases hnext
      exact h₁
    | none =>
      obtain ⟨⟨c₂, found⟩, hadvance₂, hnext⟩ := Option.bind_eq_some_iff.1 hnext
      have h₂ := hadvance hadvance₂ h₁
      simp only at hnext
      split at hnext
      · cases hnext
        exact h₂
      · exact ih hnext h₂

end Keeps

theorem nextMatch_owned {result : Option TSQueryMatch}
    (hnext : c.nextMatch walk turns = some (c', result)) (h : ListsOwned limit c) :
    ListsOwned limit c' :=
  nextMatch_keeps (fun hadvance h => (advance_move hadvance h).1) takeMatch_owned hnext h

theorem removeMatch_owned (matchId : Nat) (h : ListsOwned limit c) :
    ListsOwned limit (c.removeMatch matchId) := by
  have hheap := heapifyIfHeap_owned h
  unfold removeMatch
  dsimp only
  split
  · split
    · exact removeFinished_owned (by assumption) hheap
    · exact hheap
  · split
    · rename_i index _
      cases hdiscard : c.heapifyIfHeap.discardState index with
      | none => exact hheap
      | some c₁ => exact (discardState_move hdiscard hheap).1
    · exact hheap

/-! ### The captures -/

section Root

variable {state : QueryState} {rest : List QueryState}

section

variable (hfinished : c.finishedStates = state :: rest)

include hfinished

theorem dropRoot_perm : c.finishedStates.Perm (state :: (c.dropRoot state).finishedStates) :=
  BinaryHeap.pop_perm (by rw [hfinished]; rfl)

theorem dropRoot_owned (h : ListsOwned limit c) : ListsOwned limit (c.dropRoot state) :=
  h.remove rfl rfl (dropRoot_perm hfinished)

theorem replaceRoot_perm (state' : QueryState) :
    (c.replaceRoot state').finishedStates.Perm (state' :: rest) := by
  rw [replaceRoot, hfinished]
  exact BinaryHeap.siftDown_perm _ _

theorem replaceRoot_owned {state' : QueryState}
    (hlist : state'.captureListId = state.captureListId) (h : ListsOwned limit c) :
    ListsOwned limit (c.replaceRoot state') := by
  refine h.of_finished rfl rfl (((replaceRoot_perm hfinished state').map _).trans ?_)
  rw [hfinished, map_cons, map_cons, hlist]

end

end Root

theorem cleanUp_owned : ∀ {turns : Nat} {c c' : TSQueryCursor τ}, cleanUp turns c = some c' →
    ListsOwned limit c → ListsOwned limit c' := by
  intro turns
  induction turns with
  | zero =>
    intro c c' hclean
    cases hclean
  | succ turns ih =>
    intro c c' hclean h
    rw [cleanUp] at hclean
    split at hclean
    · cases hclean
      exact h
    · rename_i state rest hfinished
      split at hclean
      · exact ih hclean (dropRoot_owned hfinished h)
      · obtain ⟨capture, -, hclean⟩ := Option.bind_eq_some_iff.1 hclean
        split at hclean
        · exact ih hclean (replaceRoot_owned hfinished rfl h)
        · cases hclean
          exact h

variable {first : Option FirstCapture}

theorem firstFinished_head (h : c.firstFinished first = some state) :
    ∃ rest, c.finishedStates = state :: rest := by
  unfold firstFinished at h
  split at h
  · cases h
  · rename_i root rest hfinished
    obtain ⟨capture, -, h⟩ := Option.bind_eq_some_iff.1 h
    split at h
    · cases h
      exact ⟨rest, hfinished⟩
    · cases h

theorem returnFinished_owned {rest : List QueryState}
    (hfinished : c.finishedStates = state :: rest) (h : ListsOwned limit c) :
    ListsOwned limit (c.returnFinished state).1 := by
  obtain ⟨nextStateId, hassign⟩ := assignId_fst c state
  unfold returnFinished
  simp only [hassign]
  have h' : ListsOwned limit { c with nextStateId } := h.of_finished rfl rfl (.refl _)
  exact replaceRoot_owned (c := { c with nextStateId }) hfinished rfl h'

theorem returnUnfinished_owned (hget : c.states[index]? = some state) (h : ListsOwned limit c) :
    ListsOwned limit (c.returnUnfinished index state).1 := by
  obtain ⟨nextStateId, hassign⟩ := assignId_fst c state
  unfold returnUnfinished
  simp only [hassign]
  have hsame : SameOwner state { state.consume with id := (c.assignId state).2 } := ⟨rfl, rfl, rfl⟩
  exact (move_setState hget hsame h).1.of_finished rfl rfl (.refl _)

theorem abandonState_owned (habandon : c.abandonState first = some c') (h : ListsOwned limit c) :
    ListsOwned limit c' := by
  unfold abandonState at habandon
  split at habandon
  · split at habandon
    · exact (discardState_move habandon h).1
    · cases habandon
      exact h
  · cases habandon
    exact h

theorem firstInProgressCapture_owned {wantsDefinite : Bool}
    (hfirst : c.firstInProgressCapture turns wantsDefinite = some (c', first))
    (h : ListsOwned limit c) : ListsOwned limit c' := by
  have hfits := h.owned.lists.trans h.owned.fits
  obtain ⟨⟨states, rfl, hsame⟩, -⟩ := firstInProgressCapture_spec hfits hfirst
  have hmove : Move limit c { c with states } :=
    move_of_states rfl rfl rfl rfl rfl rfl (.of_eq (map_captureListId_of_forall₂ hsame))
      (Spare.of_forall₂ hsame)
  exact (hmove h).1

theorem captureTurn_owned {returned : Option ReturnedCapture}
    (hturn : c.captureTurn turns = some (c', returned)) (h : ListsOwned limit c) :
    ListsOwned limit c' := by
  obtain ⟨⟨c₁, first⟩, hfirst, hturn⟩ := Option.bind_eq_some_iff.1 hturn
  have h₁ := firstInProgressCapture_owned hfirst (heapifyFinishedStates_owned h)
  obtain ⟨c₂, hclean, hturn⟩ := Option.bind_eq_some_iff.1 hturn
  have h₂ := cleanUp_owned hclean h₁
  split at hturn
  · rename_i state hstate
    obtain ⟨rest, hfinished⟩ := firstFinished_head hstate
    cases hturn
    exact returnFinished_owned hfinished h₂
  · split at hturn
    · obtain ⟨state, hget, hturn⟩ := Option.bind_eq_some_iff.1 hturn
      cases hturn
      exact returnUnfinished_owned hget h₂
    · obtain ⟨c₃, habandon, hturn⟩ := Option.map_eq_some_iff.1 hturn
      cases hturn
      exact abandonState_owned habandon h₂

theorem nextCapture_owned {returned : Option ReturnedCapture}
    (hnext : nextCapture walk turns c = some (c', returned)) (h : ListsOwned limit c) :
    ListsOwned limit c' :=
  nextCapture_keeps (fun hadvance h => (advance_move hadvance h).1) captureTurn_owned hnext h

/-! ### Sequences of calls -/

/-- The calls one after the other. -/
def calls (walk : TreeWalk τ) (turns : Nat) (c : TSQueryCursor τ) (calls : List (Call τ)) :
    Option (TSQueryCursor τ) :=
  calls.foldlM (fun c call => c.call walk turns call) c

/-- The largest match limit that was in effect at a call that can take a list; `limit` is in
effect at first, and `largest` the largest one so far. -/
def largestLimit : List (Call τ) → Nat → Nat → Nat
  | [], _, largest => largest
  | .setMatchLimit limit :: calls, _, largest => largestLimit calls (limit % 2 ^ 32) largest
  | .nextMatch :: calls, limit, largest | .nextCapture :: calls, limit, largest =>
    largestLimit calls limit (max largest limit)
  | _ :: calls, limit, largest => largestLimit calls limit largest

/-- The lists have their owners, and their number is bounded by the largest limit in effect so
far; the limit of now may be larger than that, as long as no list was taken. -/
structure CallOwned (limit largest : Nat) (c : TSQueryCursor τ) : Prop where
  owned : ListsOwned (max largest limit) c
  lists : c.captureListPool.list.length ≤ largest

variable {largest : Nat}

theorem CallOwned.of_owned (h : ListsOwned (max largest limit) c) :
    CallOwned limit (max largest limit) c :=
  ⟨by rwa [max_eq_left (le_max_right _ _)], h.owned.lists⟩

theorem CallOwned.setMatchLimit (h : CallOwned limit largest c) (limit' : Nat) :
    CallOwned (limit' % 2 ^ 32) largest (c.setMatchLimit limit') := by
  have hfits := h.owned.owned.fits
  have hlimit : limit' % 2 ^ 32 ≤ captureListNone := by
    rw [captureListNone]
    omega
  refine ⟨⟨?_, h.owned.spare⟩, h.lists⟩
  exact ⟨h.owned.owned.owners, h.owned.owned.free, h.lists.trans (le_max_left _ _), le_max_right _ _,
    max_le ((le_max_left _ _).trans hfits) hlimit⟩

theorem CallOwned.exec (h : CallOwned limit largest c) (query : AnalyzedQuery) (cursor : τ)
    (progressCallback : Option (Nat → Bool)) :
    CallOwned limit largest (c.exec query cursor progressCallback) := by
  refine ⟨⟨h.owned.owned.reset, fun _ hstate => absurd hstate not_mem_nil⟩, ?_⟩
  simpa [TSQueryCursor.exec, CaptureListPool.reset] using h.lists

theorem CallOwned.of_same (h : CallOwned limit largest c)
    (hpool : c'.captureListPool = c.captureListPool) (hstates : c'.states = c.states)
    (hfinished : c'.finishedStates = c.finishedStates) : CallOwned limit largest c' :=
  ⟨h.owned.of_finished hpool hstates (by rw [hfinished]), hpool ▸ h.lists⟩

theorem length_release (pool : CaptureListPool) (id : Nat) :
    (pool.release id).list.length = pool.list.length := by
  unfold CaptureListPool.release
  split
  · rfl
  · simp

theorem removeMatch_lists (c : TSQueryCursor τ) (matchId : Nat) :
    (c.removeMatch matchId).captureListPool.list.length = c.captureListPool.list.length := by
  have hheap : c.heapifyIfHeap.captureListPool = c.captureListPool := by
    unfold heapifyIfHeap
    split <;> rfl
  unfold removeMatch
  dsimp only
  split
  · split
    · rw [← hheap]
      unfold removeFinished
      dsimp only
      split <;> exact length_release _ _
    · rw [hheap]
  · split
    · rename_i index _
      unfold discardState
      rw [← hheap]
      cases c.heapifyIfHeap.states[index]? with
      | none => rfl
      | some state => exact length_release _ _
    · rw [hheap]

theorem CallOwned.call {call : Call τ} (h : CallOwned limit largest c)
    (hcall : c.call walk turns call = some c') (rest : List (Call τ)) :
    ∃ limit' largest', CallOwned limit' largest' c' ∧
      TSQueryCursor.largestLimit (call :: rest) limit largest =
        TSQueryCursor.largestLimit rest limit' largest' := by
  cases call with
  | exec query cursor progressCallback =>
    cases hcall
    exact ⟨limit, largest, h.exec query cursor progressCallback, rfl⟩
  | setMatchLimit limit' =>
    cases hcall
    exact ⟨limit' % 2 ^ 32, largest, h.setMatchLimit limit', rfl⟩
  | setByteRange startByte endByte | setPointRange startPoint endPoint
  | setContainingByteRange startByte endByte | setContainingPointRange startPoint endPoint
  | setMaxStartDepth maxStartDepth =>
    cases hcall
    exact ⟨limit, largest, h.of_same rfl rfl rfl, rfl⟩
  | nextMatch =>
    obtain ⟨⟨c₁, result⟩, hnext, rfl⟩ := Option.map_eq_some_iff.1 hcall
    exact ⟨limit, max largest limit, .of_owned (nextMatch_owned hnext h.owned), rfl⟩
  | removeMatch matchId =>
    cases hcall
    refine ⟨limit, largest, ⟨removeMatch_owned matchId h.owned, ?_⟩, rfl⟩
    rw [removeMatch_lists]
    exact h.lists
  | nextCapture =>
    obtain ⟨⟨c₁, returned⟩, hnext, rfl⟩ := Option.map_eq_some_iff.1 hcall
    exact ⟨limit, max largest limit, .of_owned (nextCapture_owned hnext h.owned), rfl⟩

theorem CallOwned.calls : ∀ {sequence : List (Call τ)} {c c' : TSQueryCursor τ} {limit largest : Nat},
    CallOwned limit largest c → c.calls walk turns sequence = some c' →
    ∃ limit', CallOwned limit' (TSQueryCursor.largestLimit sequence limit largest) c' := by
  intro sequence
  induction sequence with
  | nil =>
    intro c c' limit largest h hcalls
    cases hcalls
    exact ⟨limit, h⟩
  | cons call sequence ih =>
    intro c c' limit largest h hcalls
    rw [TSQueryCursor.calls, foldlM_cons] at hcalls
    obtain ⟨c₁, hcall, hcalls⟩ := Option.bind_eq_some_iff.1 hcalls
    obtain ⟨limit', largest', h₁, hlargest⟩ := h.call hcall sequence
    rw [hlargest]
    exact ih h₁ hcalls

theorem callOwned_new (query : AnalyzedQuery) (cursor : τ) :
    CallOwned captureListNone 0 (new query cursor) := by
  refine ⟨⟨⟨.refl _, rfl, Nat.zero_le _, le_max_right _ _, ?_⟩, ?_⟩, le_rfl⟩
  · exact max_le (Nat.zero_le _) le_rfl
  · exact fun _ hstate => absurd hstate not_mem_nil

/-- Capture lists after any sequence of calls on a new cursor, under any limits: each list in use
is the list of exactly one state, the list of a state is in use, the pool counts the others, and
there are no more lists than the largest match limit in effect so far. -/
theorem calls_captureLists {query : AnalyzedQuery} {cursor : τ} {sequence : List (Call τ)}
    (h : (new query cursor).calls walk turns sequence = some c) :
    (∀ id list, c.captureListPool.list[id]? = some list → list.inUse = true →
      (c.states ++ c.finishedStates).countP (fun state => state.captureListId = id) = 1) ∧
    (∀ state ∈ c.states ++ c.finishedStates, state.captureListId ≠ captureListNone →
      ∃ list, c.captureListPool.list[state.captureListId]? = some list ∧ list.inUse = true) ∧
    c.captureListPool.freeCaptureListCount = c.captureListPool.list.countP (fun list => !list.inUse) ∧
    c.captureListPool.list.length ≤ largestLimit sequence captureListNone 0 := by
  obtain ⟨limit, hcalls⟩ := (callOwned_new query cursor).calls h
  have howned := hcalls.owned.owned
  refine ⟨?_, ?_, howned.free, hcalls.lists⟩
  · intro id list hget hinUse
    have hused : id ∈ c.captureListPool.usedIds := by
      rw [CaptureListPool.mem_usedIds, hget]
      exact hinUse
    have hnone : id ≠ captureListNone := by
      have := CaptureListPool.lt_of_mem_usedIds hused
      have := howned.lists.trans howned.fits
      omega
    have hcount := howned.owners.count_eq id
    rw [count_eq_one_of_mem CaptureListPool.nodup_usedIds hused,
      count_filter (by simpa using hnone), listIds] at hcount
    rw [← hcount, List.count, countP_map]
    refine countP_congr fun state _ => ?_
    simp
  · intro state hstate hne
    have hused := howned.mem_usedIds (mem_map_of_mem hstate) hne
    rw [CaptureListPool.mem_usedIds] at hused
    cases hget : c.captureListPool.list[state.captureListId]? with
    | none => simp [hget] at hused
    | some list => exact ⟨list, rfl, by simpa [hget] using hused⟩

/-- What is known of a node without children and siblings. -/
def leafFacts (symbol : Nat) : NodeFacts where
  node := ⟨1, ⟨0, 1, ⟨0, 0⟩, ⟨0, 1⟩⟩⟩
  symbol := symbol
  isNamed := true
  isMissing := false
  parent := none
  parentIsError := false
  fieldId := 0
  supertypes := []
  hasLaterSiblings := false
  hasLaterNamedSiblings := false
  canHaveLaterSiblingsWithThisField := false
  hasChildWithField := fun _ => false
  isRepetition := false
  subtreeSymbol := symbol

/-- A tree of one node, of the symbol 1. -/
def leafWalk : TreeWalk Unit where
  facts := fun _ => leafFacts 1
  gotoFirstChild := fun _ => (.none, ())
  gotoNextSibling := fun _ => (.none, ())
  gotoParent := fun _ => (false, ())

/-- The step of a pattern `(a) @x`, where the symbol 1 is called `a`. -/
def captureStep : QueryStep :=
  { QueryStep.new 1 0 false with captureIds := [0], containsCaptures := true }

/-- The step that marks the end of a pattern. -/
def doneStep : QueryStep :=
  { QueryStep.new 0 queryNone false with rootPatternGuaranteed := true, parentPatternGuaranteed := true }

/-- The queries `(a (b)?) @x @y` and `(a) @x @y`, where the symbol 2 is called `b`. -/
def captureQuery : AnalyzedQuery where
  steps := [{ captureStep with captureIds := [0, 1] },
    { QueryStep.new 2 1 false with alternativeIndex := 2 }, doneStep,
    { captureStep with captureIds := [0, 1] }, doneStep]
  patternMap := [⟨0, 0, true⟩, ⟨3, 1, true⟩]
  patternCount := 2
  wildcardRootPatternCount := 0
  negatedFields := []
  repeatSymbolsWithRootlessPatterns := []

/-- The first pattern copies its list, for the child that there can be. -/
theorem calls_captureLists_leaf :
    ∃ c, (new captureQuery ()).calls leafWalk 20
        [.setMatchLimit 3, .exec captureQuery () none, .nextCapture] = some c ∧
      (c.finishedStates.map QueryState.captureListId).Pairwise (· ≠ ·) ∧
      c.finishedStates.length = 2 ∧ c.captureListPool.list.length = 3 ∧
      (c.captureListPool.list.length ≤ 3 ∧ c.captureListPool.freeCaptureListCount =
          c.captureListPool.list.countP (fun list => !list.inUse)) := by
  have hfinished : ((new captureQuery ()).calls leafWalk 20
      [.setMatchLimit 3, .exec captureQuery () none, .nextCapture]).map (fun c =>
        (c.finishedStates.map QueryState.captureListId, c.captureListPool.list.length)) =
          some ([1, 2], 3) := by cbv
  obtain ⟨c, hc, hlength⟩ := Option.map_eq_some_iff.1 hfinished
  rw [Prod.mk.injEq] at hlength
  obtain ⟨-, -, hfree, hlists⟩ := calls_captureLists hc
  exact ⟨c, hc, hlength.1 ▸ by decide, by simpa using congrArg List.length hlength.1, hlength.2,
    hlists, hfree⟩

end TSQueryCursor

end TreeSitter.Lib
