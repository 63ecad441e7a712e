import TreeSitter.Lib.Query.CallsOwned

/-!
# TreeSitter.Lib.Query.FinishedStates

The **finished states** of a query cursor are a heap up to `finishedStatesHeapSize`, and the states
after that are waiting to be sifted into place (`FinishedOk`). The heap is ordered by where the
next capture begins, by the pattern, and by the sequence number of the state.

The sequence number has 32 bits. As long as no more states than that are finished it is the order
of discovery; the ghost fields `discovery` and `finishedCount` count without a bound.
-/

namespace TreeSitter.Lib

open List Library Library.BinaryHeap

/-- The key of a finished state, for some sequence numbers: the start of its next capture, the
pattern, and the number. A state without captures left is after all others. -/
def finishedKey (order : QueryState → Nat) (pool : CaptureListPool) (state : QueryState) :
    WithTop (ℕ ×ₗ ℕ ×ₗ ℕ) :=
  if isConsumed pool state then ⊤
  else ((toLex ((nextCaptureOf pool state).elim 0 (·.node.range.startByte),
    toLex (state.patternIndex, order state)) : ℕ ×ₗ ℕ ×ₗ ℕ) : WithTop (ℕ ×ₗ ℕ ×ₗ ℕ))

theorem finishedStatePrecedes_eq (pool : CaptureListPool) (a b : QueryState) :
    finishedStatePrecedes pool a b =
      decide (finishedKey QueryState.heapInsertOrder pool a <
        finishedKey QueryState.heapInsertOrder pool b) := by
  unfold finishedStatePrecedes finishedKey
  by_cases ha : isConsumed pool a = true
  · simp [ha]
  · by_cases hb : isConsumed pool b = true
    · simp [ha, hb]
    · simp only [ha, hb, if_false, WithTop.coe_lt_coe, Prod.Lex.toLex_lt_toLex, Bool.false_eq_true]
      split
      · simp [*]
      · split <;> simp_all

theorem finishedKey_congr {order : QueryState → Nat} {pool pool' : CaptureListPool} {state : QueryState}
    (h : pool'.get state.captureListId = pool.get state.captureListId) :
    finishedKey order pool' state = finishedKey order pool state := by
  unfold finishedKey isConsumed nextCaptureOf
  rw [h]

theorem finishedKey_order {order order' : QueryState → Nat} (pool : CaptureListPool) {state : QueryState}
    (h : order' state = order state) : finishedKey order' pool state = finishedKey order pool state := by
  simp only [finishedKey, h]

namespace TSQueryCursor

variable {τ : Type} {limit : Nat} {c c' : TSQueryCursor τ} {walk : TreeWalk τ} {turns : Nat}

/-- The invariant of the finished states. -/
structure FinishedOk (c : TSQueryCursor τ) : Prop where
  size : c.finishedStatesHeapSize ≤ c.finishedStates.length
  heap : HeapTo (finishedKey QueryState.heapInsertOrder c.captureListPool) c.finishedStatesHeapSize
    c.finishedStates
  order : ∀ state ∈ c.finishedStates,
    state.heapInsertOrder = state.discovery % 2 ^ 32 ∧ state.discovery < c.finishedCount
  next : c.nextFinishedStateId = c.finishedCount % 2 ^ 32
  nodup : (c.finishedStates.map QueryState.discovery).Nodup
  sorted : c.finishedStatesHeapSize = 0 →
    (c.finishedStates.map QueryState.discovery).Pairwise (· < ·)

/-! ### States that are added -/

theorem iterate_nextOrder (count i : Nat) : nextOrder^[i] (count % 2 ^ 32) = (count + i) % 2 ^ 32 := by
  induction i with
  | zero => rfl
  | succ i ih =>
    rw [Function.iterate_succ_apply', ih, nextOrder]
    omega

/-- The states that are added have the numbers after those given so far. -/
theorem order_of_added {added : List QueryState} {next count : Nat} (hnext : next = count % 2 ^ 32)
    (horders : added.map QueryState.heapInsertOrder =
      (List.range added.length).map (fun i => nextOrder^[i] next))
    (hdiscovery : added.map QueryState.discovery = List.range' count added.length) :
    ∀ state ∈ added, state.heapInsertOrder = state.discovery % 2 ^ 32 ∧
      count ≤ state.discovery ∧ state.discovery < count + added.length := by
  intro state hstate
  obtain ⟨i, hi, rfl⟩ := mem_iff_getElem.1 hstate
  have horder := congrArg (·[i]?) horders
  have hnumber := congrArg (·[i]?) hdiscovery
  simp only [getElem?_map, getElem?_eq_getElem hi, getElem?_range hi, Option.map_some,
    Option.some_inj] at horder
  simp only [getElem?_map, getElem?_eq_getElem hi, getElem?_range' hi, Option.map_some,
    Option.some_inj] at hnumber
  rw [hnext, iterate_nextOrder] at horder
  refine ⟨?_, by omega, by omega⟩
  rw [horder, hnumber]
  simp

theorem FinishedOk.adds (h : FinishedOk c) (hadds : Adds c c') : FinishedOk c' := by
  obtain ⟨added, hfinished, horders, hdiscovery, hnext, hcount⟩ := hadds.finished
  have hadded := order_of_added h.next horders hdiscovery
  refine ⟨?_, ?_, ?_, ?_, ?_, ?_⟩
  · rw [hadds.heapSize, hfinished, length_append]
    exact Nat.le_add_right_of_le h.size
  · have hkey : ∀ i < c.finishedStatesHeapSize,
        keyAt (finishedKey QueryState.heapInsertOrder c'.captureListPool) c'.finishedStates i =
          keyAt (finishedKey QueryState.heapInsertOrder c.captureListPool) c.finishedStates i := by
      intro i hi
      have hlt : i < c.finishedStates.length := hi.trans_le h.size
      rw [keyAt, keyAt, hfinished, getElem?_append_left hlt, getElem?_eq_getElem hlt]
      exact congrArg WithTop.some (finishedKey_congr (hadds.lists _ (getElem_mem hlt)))
    rw [hadds.heapSize]
    intro i hi hin
    rw [hkey i hin, hkey _ (by omega)]
    exact h.heap i hi hin
  · intro state hstate
    rw [hfinished] at hstate
    rw [hcount]
    rcases mem_append.1 hstate with hstate | hstate
    · have := h.order state hstate
      exact ⟨this.1, by omega⟩
    · exact ⟨(hadded state hstate).1, (hadded state hstate).2.2⟩
  · rw [hnext, hcount, h.next, iterate_nextOrder]
  · rw [hfinished, map_append, hdiscovery]
    refine nodup_append.2 ⟨h.nodup, nodup_range', ?_⟩
    intro a ha b hb
    obtain ⟨state, hstate, rfl⟩ := mem_map.1 ha
    have := (h.order state hstate).2
    have := (mem_range'_1.1 hb).1
    omega
  · intro hsize
    rw [hfinished, map_append, hdiscovery]
    refine pairwise_append.2 ⟨h.sorted (hadds.heapSize ▸ hsize), pairwise_lt_range', ?_⟩
    intro a ha b hb
    obtain ⟨state, hstate, rfl⟩ := mem_map.1 ha
    have := (h.order state hstate).2
    have := (mem_range'_1.1 hb).1
    omega

/-! ### The heap -/

def numbers (state : QueryState) : Nat × Nat := (state.heapInsertOrder, state.discovery)

theorem map_discovery_eq (states : List QueryState) :
    states.map QueryState.discovery = (states.map numbers).map Prod.snd := by
  rw [map_map]
  rfl

theorem FinishedOk.of_perm (h : FinishedOk c)
    (hperm : (c'.finishedStates.map numbers).Perm (c.finishedStates.map numbers))
    (hsize : c'.finishedStatesHeapSize = c'.finishedStates.length)
    (hheap : HeapTo (finishedKey QueryState.heapInsertOrder c'.captureListPool)
      c'.finishedStates.length c'.finishedStates)
    (hnext : c'.nextFinishedStateId = c.nextFinishedStateId)
    (hcount : c'.finishedCount = c.finishedCount) : FinishedOk c' := by
  refine ⟨hsize.le, hsize ▸ hheap, ?_, by rw [hnext, hcount, h.next], ?_, ?_⟩
  · intro state hstate
    obtain ⟨state', hstate', heq⟩ := mem_map.1 (hperm.subset (mem_map_of_mem hstate))
    simp only [numbers, Prod.mk.injEq] at heq
    rw [hcount, ← heq.1, ← heq.2]
    exact h.order state' hstate'
  · have hnodup := h.nodup
    rw [map_discovery_eq] at hnodup ⊢
    exact (hperm.map Prod.snd).nodup_iff.2 hnodup
  · intro hzero
    rw [eq_nil_of_length_eq_zero (hsize.symm.trans hzero)]
    exact .nil

theorem FinishedOk.heapify (h : FinishedOk c) :
    FinishedOk c.heapifyFinishedStates ∧
      c.heapifyFinishedStates.finishedStatesHeapSize = c.heapifyFinishedStates.finishedStates.length := by
  have hlength := (heapifyFinishedStates_perm c).length_eq
  have hsize : c.heapifyFinishedStates.finishedStatesHeapSize =
      c.heapifyFinishedStates.finishedStates.length := by
    rw [hlength]
    exact max_eq_right h.size
  refine ⟨h.of_perm ((heapifyFinishedStates_perm c).map _) hsize ?_ rfl rfl, hsize⟩
  have hle := h.size
  have hfill : c.finishedStatesHeapSize + (c.finishedStates.length - c.finishedStatesHeapSize) ≤
      c.finishedStates.length := by omega
  have hheap := heapifyFrom_heap (finishedStatePrecedes_eq c.captureListPool) h.heap hfill
  rw [hlength]
  rwa [Nat.add_sub_cancel' hle] at hheap

/-- All finished states are in the heap, or it was never made. -/
def Heapified (c : TSQueryCursor τ) : Prop :=
  c.finishedStatesHeapSize = 0 ∨ c.finishedStatesHeapSize = c.finishedStates.length

theorem FinishedOk.heapifyIfHeap (h : FinishedOk c) :
    FinishedOk c.heapifyIfHeap ∧ Heapified c.heapifyIfHeap := by
  unfold TSQueryCursor.heapifyIfHeap
  split
  · exact ⟨h.heapify.1, .inr h.heapify.2⟩
  · exact ⟨h, .inl (by omega)⟩

variable {state : QueryState}

theorem FinishedOk.of_perm_cons (h : FinishedOk c)
    (hperm : c.finishedStates.Perm (state :: c'.finishedStates))
    (hsize : c'.finishedStatesHeapSize = c'.finishedStates.length) (hheap : HeapTo (finishedKey
      QueryState.heapInsertOrder c'.captureListPool) c'.finishedStates.length c'.finishedStates)
    (hnext : c'.nextFinishedStateId = c.nextFinishedStateId)
    (hcount : c'.finishedCount = c.finishedCount) : FinishedOk c' := by
  refine ⟨hsize.le, hsize ▸ hheap, ?_, by rw [hnext, hcount, h.next], ?_, ?_⟩
  · intro other hother
    rw [hcount]
    exact h.order other (hperm.symm.subset (by simp [hother]))
  · have hnodup := (hperm.map QueryState.discovery).nodup_iff.1 h.nodup
    exact hnodup.of_cons
  · intro hzero
    rw [eq_nil_of_length_eq_zero (hsize.symm.trans hzero)]
    exact .nil

/-- The lists of the other finished states stay as they are when one is released. -/
theorem get_release_of_perm {rest : List QueryState} (howned : ListsOwned limit c)
    (hperm : c.finishedStates.Perm (state :: rest)) :
    ∀ other ∈ rest, (c.captureListPool.release state.captureListId).get other.captureListId =
      c.captureListPool.get other.captureListId := by
  intro other hother
  have hids : c.listIds.Perm (state.captureListId :: (c.states ++ rest).map QueryState.captureListId) := by
    rw [listIds, ← map_cons]
    exact ((hperm.append_left c.states).trans perm_middle).map _
  exact (howned.owned.of_perm hids).get_release (mem_map_of_mem (mem_append_right _ hother))

theorem FinishedOk.removeFinished {index : Nat} (h : FinishedOk c) (howned : ListsOwned limit c)
    (hheap : Heapified c) (hget : c.finishedStates[index]? = some state) :
    FinishedOk (c.removeFinished index state) := by
  have hlt := (List.getElem?_eq_some_iff.1 hget).1
  by_cases hpos : c.finishedStatesHeapSize > 0
  · have hfull : c.finishedStatesHeapSize = c.finishedStates.length := hheap.resolve_left (by omega)
    have hperm := removeFinished_perm hget
    have hremove : c.removeFinished index state =
        { c with
          captureListPool := c.captureListPool.release state.captureListId
          finishedStates :=
            finishedStateErase (c.captureListPool.release state.captureListId) c.finishedStates index
          finishedStatesHeapSize :=
            (finishedStateErase (c.captureListPool.release state.captureListId) c.finishedStates
              index).length } := if_pos hpos
    refine h.of_perm_cons hperm ?_ ?_ ?_ ?_
    · rw [hremove]
    · rw [hremove]
      refine erase_heap (finishedStatePrecedes_eq _) hlt (hfull ▸ h.heap) ?_
      intro other hother
      exact finishedKey_congr (get_release_of_perm howned (replaceByLast_perm hget) other hother)
    · rw [hremove]
    · rw [hremove]
  · have hzero : c.finishedStatesHeapSize = 0 := by omega
    have hremove : c.removeFinished index state =
        { c with
          captureListPool := c.captureListPool.release state.captureListId
          finishedStates := c.finishedStates.eraseIdx index } := if_neg hpos
    have hsub : (c.finishedStates.eraseIdx index).Sublist c.finishedStates := eraseIdx_sublist _ _
    rw [hremove]
    refine ⟨by simp [hzero], ?_, ?_, h.next, ?_, ?_⟩
    · intro i _ hin
      simp only [hzero] at hin
      omega
    · intro other hother
      exact h.order other (hsub.subset hother)
    · exact h.nodup.sublist (hsub.map _)
    · intro hzero
      exact (h.sorted hzero).sublist (hsub.map _)

/-! ### The earliest state -/

def orderAt (states : List QueryState) (index : Nat) : WithTop Nat :=
  keyAt QueryState.heapInsertOrder states index

theorem earliestFrom_spec (states : List QueryState) : ∀ (indices : List Nat) (stateIndex : Nat),
    stateIndex < states.length → (∀ i ∈ indices, i < states.length) →
    earliestFrom states indices stateIndex < states.length ∧
      ∀ i ∈ stateIndex :: indices,
        orderAt states (earliestFrom states indices stateIndex) ≤ orderAt states i := by
  intro indices
  induction indices with
  | nil =>
    intro stateIndex hlt _
    simp [earliestFrom, hlt]
  | cons i indices ih =>
    intro stateIndex hlt hindices
    have hi : i < states.length := hindices i (by simp)
    rw [earliestFrom, getElem?_eq_getElem hi, getElem?_eq_getElem hlt]
    simp only
    have hrest : ∀ j ∈ indices, j < states.length := fun j hj => hindices j (by simp [hj])
    have horder : ∀ j, (hj : j < states.length) →
        orderAt states j = (states[j].heapInsertOrder : WithTop Nat) := by
      intro j hj
      simp [orderAt, keyAt, hj]
    by_cases hless : states[i].heapInsertOrder < states[stateIndex].heapInsertOrder
    · rw [if_pos hless]
      obtain ⟨hresult, hmin⟩ := ih i hi hrest
      refine ⟨hresult, ?_⟩
      intro j hj
      rcases mem_cons.1 hj with rfl | hj
      · refine (hmin i (by simp)).trans ?_
        rw [horder i hi, horder j hlt]
        exact WithTop.coe_le_coe.2 hless.le
      · exact hmin j hj
    · rw [if_neg hless]
      obtain ⟨hresult, hmin⟩ := ih stateIndex hlt hrest
      refine ⟨hresult, ?_⟩
      intro j hj
      rcases mem_cons.1 hj with rfl | hj
      · exact hmin j (by simp)
      · rcases mem_cons.1 hj with rfl | hj
        · refine (hmin stateIndex (by simp)).trans ?_
          rw [horder j hi, horder stateIndex hlt]
          exact WithTop.coe_le_coe.2 (not_lt.1 hless)
        · exact hmin j (by simp [hj])

/-- The loop over all finished states finds the least sequence number. -/
theorem earliestFrom_least {states : List QueryState}
    (hget : states[earliestFrom states (List.range' 1 (states.length - 1)) 0]? = some state) :
    ∀ other ∈ states, state.heapInsertOrder ≤ other.heapInsertOrder := by
  intro other hother
  have hpos : 0 < states.length := length_pos_of_mem hother
  obtain ⟨-, hmin⟩ := earliestFrom_spec states (List.range' 1 (states.length - 1)) 0 hpos (by
    intro i hi
    have := mem_range'_1.1 hi
    omega)
  obtain ⟨i, hi, rfl⟩ := mem_iff_getElem.1 hother
  have hle := hmin i (by
    rw [mem_cons, mem_range'_1]
    omega)
  rw [orderAt, orderAt, keyAt, keyAt, hget, getElem?_eq_getElem hi] at hle
  exact WithTop.coe_le_coe.1 hle

/-- As long as the numbers do not wrap around, they are the order of discovery. -/
theorem FinishedOk.order_eq (h : FinishedOk c) (hcount : c.finishedCount ≤ 2 ^ 32)
    (hstate : state ∈ c.finishedStates) : state.heapInsertOrder = state.discovery := by
  obtain ⟨horder, hlt⟩ := h.order state hstate
  rw [horder, Nat.mod_eq_of_lt (by omega)]

theorem heapifyIfHeap_perm (c : TSQueryCursor τ) :
    c.heapifyIfHeap.finishedStates.Perm c.finishedStates := by
  unfold heapifyIfHeap
  split
  · exact heapifyFinishedStates_perm c
  · exact .refl _

theorem heapifyIfHeap_pool (c : TSQueryCursor τ) : c.heapifyIfHeap.captureListPool = c.captureListPool := by
  unfold heapifyIfHeap
  split <;> rfl

theorem heapifyIfHeap_finishedCount (c : TSQueryCursor τ) :
    c.heapifyIfHeap.finishedCount = c.finishedCount := by
  unfold heapifyIfHeap
  split <;> rfl

/-- A state that is chosen by its number is the one that was discovered first. -/
theorem FinishedOk.least (h : FinishedOk c) (hcount : c.finishedCount ≤ 2 ^ 32) (hget :
      c.finishedStates[if c.finishedStatesHeapSize > 0 then earliestFrom c.finishedStates
      (List.range' 1 (c.finishedStates.length - 1)) 0 else 0]? = some state) :
    ∀ other ∈ c.finishedStates, state.discovery ≤ other.discovery := by
  intro other hother
  split at hget
  · have := earliestFrom_least hget other hother
    rwa [h.order_eq hcount hother, h.order_eq hcount (mem_of_getElem? hget)] at this
  · rename_i hzero
    have hsorted := h.sorted (by omega)
    cases hfinished : c.finishedStates with
    | nil => simp [hfinished] at hother
    | cons first rest =>
      rw [hfinished] at hget hother hsorted
      cases hget
      rcases mem_cons.1 hother with rfl | hother
      · exact le_rfl
      · rw [map_cons, pairwise_cons] at hsorted
        exact (hsorted.1 _ (mem_map_of_mem hother)).le

theorem takeMatch_finishedOk {result : TSQueryMatch} (h : FinishedOk c) (howned : ListsOwned limit c)
    (htake : c.takeMatch = some (c', result)) :
    FinishedOk c' ∧ c'.finishedCount = c.finishedCount ∧
      ∃ state, c.finishedStates.Perm (state :: c'.finishedStates) ∧
        result = c.matchOf state result.id ∧
        (c.finishedCount ≤ 2 ^ 32 → ∀ other ∈ c.finishedStates, state.discovery ≤ other.discovery) := by
  obtain ⟨state, hget, htake⟩ := Option.map_eq_some_iff.1 htake
  obtain ⟨nextStateId, hassign⟩ := assignId_fst c.heapifyIfHeap state
  simp only [Prod.mk.injEq] at htake
  obtain ⟨rfl, hresult⟩ := htake
  obtain ⟨hok, hheap⟩ := h.heapifyIfHeap
  have hperm := heapifyIfHeap_perm c
  rw [hassign] at hresult ⊢
  have hok' : FinishedOk { c.heapifyIfHeap with nextStateId } :=
    ⟨hok.size, hok.heap, hok.order, hok.next, hok.nodup, hok.sorted⟩
  have howned' : ListsOwned limit { c.heapifyIfHeap with nextStateId } :=
    (heapifyIfHeap_owned howned).of_finished rfl rfl (.refl _)
  refine ⟨hok'.removeFinished howned' hheap hget, ?_, state, ?_, ?_, ?_⟩
  · rw [← heapifyIfHeap_finishedCount c]
    unfold TSQueryCursor.removeFinished
    dsimp only
    split <;> rfl
  · exact hperm.symm.trans (removeFinished_perm (c := { c.heapifyIfHeap with nextStateId }) hget)
  · rw [← hresult]
    simp only [matchOf, heapifyIfHeap_pool]
  · intro hcount other hother
    rw [← heapifyIfHeap_finishedCount c] at hcount
    exact hok.least hcount hget other (hperm.symm.subset hother)

theorem removeMatch_finishedOk (h : FinishedOk c) (howned : ListsOwned limit c) (matchId : Nat) :
    FinishedOk (c.removeMatch matchId) ∧
      ((c.removeMatch matchId).finishedStates.Perm c.finishedStates ∨ ∃ state, state.id = matchId ∧
          c.finishedStates.Perm (state :: (c.removeMatch matchId).finishedStates)) := by
  obtain ⟨hok, hheap⟩ := h.heapifyIfHeap
  have hperm := heapifyIfHeap_perm c
  have howned' := heapifyIfHeap_owned howned
  unfold removeMatch
  dsimp only
  split
  · rename_i index hfind
    obtain ⟨hlt, hid, -⟩ := findIdx?_eq_some_iff_getElem.1 hfind
    rw [getElem?_eq_getElem hlt]
    have hget := getElem?_eq_getElem hlt
    exact ⟨hok.removeFinished howned' hheap hget,
      .inr ⟨_, by simpa using hid, hperm.symm.trans (removeFinished_perm hget)⟩⟩
  · split
    · rename_i index _
      cases hdiscard : c.heapifyIfHeap.discardState index with
      | none => exact ⟨hok, .inl hperm⟩
      | some c₁ =>
        have hsame : c₁.finishedStates = c.heapifyIfHeap.finishedStates := by
          obtain ⟨state, -, rfl⟩ := Option.map_eq_some_iff.1 hdiscard
          rfl
        refine ⟨hok.adds (discardState_move hdiscard howned').2, .inl ?_⟩
        rw [Option.getD_some, hsame]
        exact hperm
    · exact ⟨hok, .inl hperm⟩

/-! ### The captures -/

variable {pool : CaptureListPool}
variable {pool' : CaptureListPool}

theorem isConsumed_congr (h : pool'.get state.captureListId = pool.get state.captureListId) :
    isConsumed pool' state = isConsumed pool state := by
  rw [isConsumed, isConsumed, h]

theorem nextCaptureOf_congr (h : pool'.get state.captureListId = pool.get state.captureListId) :
    nextCaptureOf pool' state = nextCaptureOf pool state := by
  rw [nextCaptureOf, nextCaptureOf, h]

def NextOutside (pool : CaptureListPool) (range : TSRange) (state : QueryState) : Prop :=
  ∃ capture, nextCaptureOf pool state = some capture ∧
    (capture.node.precedesRange range || capture.node.followsRange range) = true

/-- What cleaning up may do to the finished states: a state without captures left is removed, or a
capture outside of the range is skipped. -/
inductive CleanStep (pool : CaptureListPool) (range : TSRange) :
    List QueryState → List QueryState → Prop
  | drop {states rest : List QueryState} {state : QueryState} (consumed : isConsumed pool state = true)
      (perm : states.Perm (state :: rest)) : CleanStep pool range states rest
  | skip {states rest states' : List QueryState} {state : QueryState}
      (outside : NextOutside pool range state) (perm : states.Perm (state :: rest))
      (perm' : states'.Perm (state.consume :: rest)) : CleanStep pool range states states'

/-- The finished states are cleaned up: all are in the heap, and the root has a capture left that
is not outside of the range. -/
structure Cleaned (pool : CaptureListPool) (states : List QueryState) (c : TSQueryCursor τ) : Prop where
  ok : FinishedOk c
  full : c.finishedStatesHeapSize = c.finishedStates.length
  steps : Relation.ReflTransGen (CleanStep pool c.includedRange) states c.finishedStates
  lists : ∀ state ∈ c.finishedStates,
    c.captureListPool.get state.captureListId = pool.get state.captureListId
  root : ∀ state rest, c.finishedStates = state :: rest →
    isConsumed pool state = false ∧ ¬ NextOutside pool c.includedRange state

section Root

variable {state : QueryState} {rest : List QueryState}

theorem FinishedOk.dropRoot (h : FinishedOk c) (howned : ListsOwned limit c)
    (hfull : c.finishedStatesHeapSize = c.finishedStates.length)
    (hfinished : c.finishedStates = state :: rest) : FinishedOk (c.dropRoot state) := by
  have hget : c.finishedStates[0]? = some state := by
    rw [hfinished]
    rfl
  refine h.of_perm_cons (dropRoot_perm hfinished) rfl ?_ rfl rfl
  refine pop_heap (finishedStatePrecedes_eq _) (hfull ▸ h.heap) ?_ _
  intro other hother
  exact finishedKey_congr (get_release_of_perm howned (replaceByLast_perm hget) other hother)

theorem FinishedOk.replaceRoot (h : FinishedOk c)
    (hfull : c.finishedStatesHeapSize = c.finishedStates.length)
    (hfinished : c.finishedStates = state :: rest) {state' : QueryState}
    (hnumbers : numbers state' = numbers state) :
    FinishedOk (c.replaceRoot state') ∧
      (c.replaceRoot state').finishedStatesHeapSize = (c.replaceRoot state').finishedStates.length := by
  have hperm := replaceRoot_perm hfinished state'
  have hsize : (c.replaceRoot state').finishedStatesHeapSize =
      (c.replaceRoot state').finishedStates.length := by
    rw [hperm.length_eq]
    refine hfull.trans ?_
    rw [hfinished]
    rfl
  refine ⟨h.of_perm ?_ hsize ?_ rfl rfl, hsize⟩
  · refine (hperm.map _).trans ?_
    rw [hfinished, map_cons, map_cons, hnumbers]
  · have hheap := h.heap
    rw [hfull, hfinished] at hheap
    rw [TSQueryCursor.replaceRoot, hfinished]
    exact siftDown_root_heap (finishedStatePrecedes_eq _) hheap _

end Root

theorem cleanUp_cleaned : ∀ {turns : Nat} {c c' : TSQueryCursor τ},
    cleanUp turns c = some c' → ListsOwned limit c → FinishedOk c →
    c.finishedStatesHeapSize = c.finishedStates.length →
    (∀ state ∈ c.finishedStates,
      c.captureListPool.get state.captureListId = pool.get state.captureListId) →
    Cleaned pool c.finishedStates c' ∧ c'.includedRange = c.includedRange ∧
      c'.finishedCount = c.finishedCount ∧ c'.states = c.states := by
  intro turns
  induction turns with
  | zero =>
    intro c c' hclean
    cases hclean
  | succ turns ih =>
    intro c c' hclean howned h hfull hlists
    rw [cleanUp] at hclean
    split at hclean
    · rename_i hnil
      cases hclean
      refine ⟨⟨h, hfull, .refl, hlists, ?_⟩, rfl, rfl, rfl⟩
      intro state rest hcons
      rw [hnil] at hcons
      cases hcons
    · rename_i state rest hfinished
      have hroot := hlists state (by simp [hfinished])
      split at hclean
      · -- a state without captures left goes away
        rename_i hconsumed
        have hperm := dropRoot_perm hfinished
        obtain ⟨hcleaned, hrange, hcount, hstates⟩ := ih hclean (dropRoot_owned hfinished howned)
          (h.dropRoot howned hfull hfinished) rfl (by
            intro other hother
            rw [← hlists other (hperm.symm.subset (by simp [hother]))]
            exact get_release_of_perm howned hperm other hother)
        refine ⟨{ hcleaned with steps := ?_ }, hrange, hcount, hstates⟩
        exact .head (.drop (isConsumed_congr hroot ▸ hconsumed) hperm) hcleaned.steps
      · rename_i hconsumed
        obtain ⟨capture, hcapture, hclean⟩ := Option.bind_eq_some_iff.1 hclean
        rw [nextCaptureOf_congr hroot] at hcapture
        split at hclean
        · -- a capture outside of the range is skipped
          rename_i houtside
          have hperm := replaceRoot_perm hfinished state.consume
          have hnumbers : numbers state.consume = numbers state := rfl
          obtain ⟨h₁, hfull₁⟩ := h.replaceRoot hfull hfinished hnumbers
          obtain ⟨hcleaned, hrange, hcount, hstates⟩ := ih hclean
            (replaceRoot_owned hfinished rfl howned) h₁ hfull₁ (by
              intro other hother
              rcases mem_cons.1 (hperm.subset hother) with rfl | hother
              · exact hroot
              · exact hlists other (by simp [hfinished, hother]))
          refine ⟨{ hcleaned with steps := ?_ }, hrange, hcount, hstates⟩
          refine .head (.skip ⟨capture, hcapture, ?_⟩ (.of_eq hfinished) hperm) hcleaned.steps
          rw [hrange]
          exact houtside
        · rename_i hinside
          cases hclean
          refine ⟨⟨h, hfull, .refl, hlists, ?_⟩, rfl, rfl, rfl⟩
          intro state' rest' hcons
          rw [hfinished] at hcons
          cases hcons
          refine ⟨by rw [← isConsumed_congr hroot]; simpa using hconsumed, ?_⟩
          rintro ⟨capture', hcapture', houtside⟩
          rw [hcapture] at hcapture'
          cases hcapture'
          exact hinside houtside

/-- The comparison by the order of discovery. -/
def discoveryPrecedes (pool : CaptureListPool) (a b : QueryState) : Bool :=
  decide (finishedKey QueryState.discovery pool a < finishedKey QueryState.discovery pool b)

theorem FinishedOk.key_eq (h : FinishedOk c) (hcount : c.finishedCount ≤ 2 ^ 32)
    (pool : CaptureListPool) :
    ∀ state ∈ c.finishedStates,
      finishedKey QueryState.discovery pool state =
        finishedKey QueryState.heapInsertOrder pool state :=
  fun _ hstate => finishedKey_order pool (h.order_eq hcount hstate).symm

theorem discovery_of_finishedKey_eq {a b : QueryState} (ha : isConsumed pool a = false)
    (heq : finishedKey QueryState.discovery pool a = finishedKey QueryState.discovery pool b) :
    a.discovery = b.discovery := by
  unfold finishedKey at heq
  by_cases hb : isConsumed pool b = true
  · simp [ha, hb] at heq
  · simp only [ha, hb, if_false, WithTop.coe_inj, Bool.false_eq_true, toLex_inj, Prod.mk.injEq] at heq
    exact heq.2.2

/-- After the clean-up, the root of the heap is what a linear scan of the finished states finds, in
whatever order it looks at them. -/
theorem Cleaned.scan_eq {states : List QueryState} (h : Cleaned pool states c)
    (hcount : c.finishedCount ≤ 2 ^ 32) {order : List QueryState}
    (hperm : order.Perm c.finishedStates) :
    scan (discoveryPrecedes c.captureListPool) order = c.finishedStates.head? := by
  cases hfinished : c.finishedStates with
  | nil =>
    rw [hfinished] at hperm
    rw [hperm.eq_nil]
    rfl
  | cons root rest =>
    have hmem : root ∈ c.finishedStates := by simp [hfinished]
    have hconsumed : isConsumed c.captureListPool root = false := by
      rw [isConsumed_congr (h.lists root hmem)]
      exact (h.root root rest hfinished).1
    have hheap := h.ok.heap
    rw [h.full] at hheap
    have hdiscovery := hheap.of_forall (h.ok.key_eq hcount c.captureListPool)
    rw [hfinished] at hdiscovery
    rw [head?_cons]
    refine scan_eq_some (fun _ _ => rfl) (hperm.symm.subset hmem) ?_
    intro other hother hne
    have hother' := hperm.subset hother
    refine lt_of_le_of_ne (hdiscovery.root_le other (hfinished ▸ hother')) ?_
    intro heq
    exact hne (inj_on_of_nodup_map h.ok.nodup hother' hmem
      (discovery_of_finishedKey_eq hconsumed heq).symm)

variable {first : Option FirstCapture}

theorem firstInProgressCapture_finished {wantsDefinite : Bool}
    (hfirst : c.firstInProgressCapture turns wantsDefinite = some (c', first)) :
    ∃ states, c' = { c with states } := by
  obtain ⟨⟨states, first'⟩, -, heq⟩ := Option.map_eq_some_iff.1 hfirst
  cases heq
  exact ⟨states, rfl⟩

/-- How a turn of `ts_query_cursor_next_capture` begins: the finished states go to their places. -/
theorem FinishedOk.startTurn {wantsDefinite : Bool} (h : FinishedOk c) (howned : ListsOwned limit c)
    (hfirst : c.heapifyFinishedStates.firstInProgressCapture turns wantsDefinite = some (c', first)) :
    (∃ states, c' = { c.heapifyFinishedStates with states }) ∧ ListsOwned limit c' ∧ FinishedOk c' ∧
      c'.finishedStatesHeapSize = c'.finishedStates.length := by
  have howned' := firstInProgressCapture_owned hfirst (heapifyFinishedStates_owned howned)
  obtain ⟨states, rfl⟩ := firstInProgressCapture_finished hfirst
  obtain ⟨hok, hfull⟩ := h.heapify
  exact ⟨⟨states, rfl⟩, howned', ⟨hok.size, hok.heap, hok.order, hok.next, hok.nodup, hok.sorted⟩, hfull⟩

/-- What a turn of `ts_query_cursor_next_capture` comes to before it chooses: the first capture in
progress, and the cursor with its finished states cleaned up. -/
def CleanedTurn (c : TSQueryCursor τ) (turns : Nat) (first : Option FirstCapture)
    (cleaned : TSQueryCursor τ) : Prop :=
  ∃ c₁, c.heapifyFinishedStates.firstInProgressCapture turns true = some (c₁, first) ∧
    cleanUp turns c₁ = some cleaned

/-- The finished states after a turn: either the root was taken, for its next capture, or all are
left. -/
def TakesRoot (cleaned c' : TSQueryCursor τ) (returned : Option ReturnedCapture) :
    Option QueryState → Prop
  | some state => ∃ id rest, cleaned.finishedStates = state :: rest ∧
      c'.finishedStates.Perm ({ state.consume with id } :: rest) ∧
      returned = some (cleaned.matchOf state id, state.consumedCaptureCount)
  | none => c'.finishedStates = cleaned.finishedStates

theorem captureTurn_finishedOk {returned : Option ReturnedCapture} (h : FinishedOk c)
    (howned : ListsOwned limit c) (hturn : c.captureTurn turns = some (c', returned)) :
    FinishedOk c' ∧ ∃ first cleaned, CleanedTurn c turns first cleaned ∧
      Cleaned c.captureListPool c.heapifyFinishedStates.finishedStates cleaned ∧
      cleaned.includedRange = c.includedRange ∧ cleaned.finishedCount = c.finishedCount ∧
      TakesRoot cleaned c' returned (cleaned.firstFinished first) := by
  obtain ⟨⟨c₁, first⟩, hfirst, hturn⟩ := Option.bind_eq_some_iff.1 hturn
  obtain ⟨⟨states, rfl⟩, howned₁, hok₁, hfull⟩ := h.startTurn howned hfirst
  obtain ⟨c₂, hclean, hturn⟩ := Option.bind_eq_some_iff.1 hturn
  have howned₂ := cleanUp_owned hclean howned₁
  obtain ⟨hcleaned, hrange, hcount, -⟩ := cleanUp_cleaned hclean howned₁ hok₁ hfull fun _ _ => rfl
  have hkept : ∀ c₃, FinishedOk c₃ → TakesRoot c₂ c₃ returned (c₂.firstFinished first) →
      FinishedOk c₃ ∧ ∃ first cleaned, CleanedTurn c turns first cleaned ∧
        Cleaned c.captureListPool c.heapifyFinishedStates.finishedStates cleaned ∧
        cleaned.includedRange = c.includedRange ∧ cleaned.finishedCount = c.finishedCount ∧
        TakesRoot cleaned c₃ returned (cleaned.firstFinished first) :=
    fun c₃ hok₃ htakes => ⟨hok₃, first, c₂, ⟨_, hfirst, hclean⟩, hcleaned, hrange, hcount, htakes⟩
  split at hturn
  · -- a capture of the state at the root is returned
    rename_i state hstate
    obtain ⟨rest, hfinished⟩ := firstFinished_head hstate
    obtain ⟨nextStateId, hassign⟩ := assignId_fst c₂ state
    have hok₂ : FinishedOk { c₂ with nextStateId } :=
      ⟨hcleaned.ok.size, hcleaned.ok.heap, hcleaned.ok.order, hcleaned.ok.next, hcleaned.ok.nodup,
        hcleaned.ok.sorted⟩
    have hnumbers : numbers { state.consume with id := (c₂.assignId state).2 } = numbers state := rfl
    unfold returnFinished at hturn
    simp only [hassign] at hturn
    cases hturn
    refine hkept _ (hok₂.replaceRoot hcleaned.full hfinished hnumbers).1 ?_
    rw [hstate]
    exact ⟨_, rest, hfinished, replaceRoot_perm (c := { c₂ with nextStateId }) hfinished _, rfl⟩
  · rename_i hnone
    split at hturn
    · obtain ⟨state, hget, hturn⟩ := Option.bind_eq_some_iff.1 hturn
      obtain ⟨nextStateId, hassign⟩ := assignId_fst c₂ state
      unfold returnUnfinished at hturn
      simp only [hassign] at hturn
      cases hturn
      refine hkept _ ⟨hcleaned.ok.size, hcleaned.ok.heap, hcleaned.ok.order, hcleaned.ok.next,
        hcleaned.ok.nodup, hcleaned.ok.sorted⟩ ?_
      rw [hnone]
      rfl
    · obtain ⟨c₃, habandon, hturn⟩ := Option.map_eq_some_iff.1 hturn
      cases hturn
      have hmove : Adds c₂ c' ∧ c'.finishedStates = c₂.finishedStates := by
        unfold abandonState at habandon
        split at habandon
        · split at habandon
          · refine ⟨(discardState_move habandon howned₂).2, ?_⟩
            obtain ⟨state, -, rfl⟩ := Option.map_eq_some_iff.1 habandon
            rfl
          · cases habandon
            exact ⟨.refl _, rfl⟩
        · cases habandon
          exact ⟨.refl _, rfl⟩
      refine hkept _ (hcleaned.ok.adds hmove.1) ?_
      rw [hnone]
      exact hmove.2

end TSQueryCursor

end TreeSitter.Lib
