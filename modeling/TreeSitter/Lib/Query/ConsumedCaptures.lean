import TreeSitter.Lib.Query.FinishedOrder

/-!
# TreeSitter.Lib.Query.ConsumedCaptures

The **counter of consumed captures** of a finished match. It has 12 bits, so that it only counts
for matches of less than `2 ^ 12` captures (`Short`).

For these the counter of a match grows with every capture that is returned or skipped, and never
goes down as long as the match is there (`Follows`): no capture is returned twice, the loop that
cleans up comes to an end, and a match without captures left is removed. With more captures the
counter starts again at 0.
-/

namespace TreeSitter.Lib

open List Library Library.BinaryHeap

namespace TSQueryCursor

variable {τ : Type} {limit : Nat} {c c' c'' : TSQueryCursor τ} {walk : TreeWalk τ} {turns : Nat}

/-- No finished match has so many captures that the counter could wrap around. -/
def Short (c : TSQueryCursor τ) : Prop :=
  ∀ state ∈ c.finishedStates, (c.capturesOf state).length < 2 ^ 12

/-- The finished states that are left have the same captures, and no fewer of them are consumed. -/
structure Follows (c c' : TSQueryCursor τ) : Prop where
  count : c.finishedCount ≤ c'.finishedCount
  states : ∀ state' ∈ c'.finishedStates, state'.discovery < c.finishedCount →
    ∃ state ∈ c.finishedStates, state.discovery = state'.discovery ∧
      state.consumedCaptureCount ≤ state'.consumedCaptureCount ∧
      c'.captureListPool.get state'.captureListId = c.captureListPool.get state.captureListId

theorem Follows.refl (c : TSQueryCursor τ) : Follows c c :=
  ⟨le_rfl, fun state hstate _ => ⟨state, hstate, rfl, le_rfl, rfl⟩⟩

theorem Follows.trans (h : Follows c c') (h' : Follows c' c'') : Follows c c'' := by
  refine ⟨h.count.trans h'.count, ?_⟩
  intro state'' hstate'' hlt
  obtain ⟨state', hstate', hdiscovery', hcount', hlists'⟩ :=
    h'.states state'' hstate'' (hlt.trans_le h.count)
  obtain ⟨state, hstate, hdiscovery, hcount, hlists⟩ := h.states state' hstate' (hdiscovery' ▸ hlt)
  exact ⟨state, hstate, hdiscovery.trans hdiscovery', hcount.trans hcount', hlists'.trans hlists⟩

theorem follows_of_subset (hcount : c'.finishedCount = c.finishedCount)
    (hsubset : ∀ state ∈ c'.finishedStates, state ∈ c.finishedStates ∧
      c'.captureListPool.get state.captureListId = c.captureListPool.get state.captureListId) :
    Follows c c' :=
  ⟨hcount.ge, fun state hstate _ =>
    ⟨state, (hsubset state hstate).1, rfl, le_rfl, (hsubset state hstate).2⟩⟩

/-- When no state was finished in between, short matches stay short. -/
theorem Short.of_follows (h : Short c) (hok : FinishedOk c') (hfollows : Follows c c')
    (hcount : c'.finishedCount = c.finishedCount) : Short c' := by
  intro state' hstate'
  obtain ⟨state, hstate, -, -, hlists⟩ := hfollows.states state' hstate' (hcount ▸ (hok.order state' hstate').2)
  rw [capturesOf, hlists]
  exact h state hstate

theorem follows_of_adds (hadds : Adds c c') : Follows c c' := by
  obtain ⟨added, hfinished, -, hdiscovery, -, hcount⟩ := hadds.finished
  refine ⟨by omega, ?_⟩
  intro state hstate hlt
  rw [hfinished] at hstate
  rcases mem_append.1 hstate with hstate | hstate
  · exact ⟨state, hstate, rfl, le_rfl, hadds.lists state hstate⟩
  · have hmem := mem_map_of_mem (f := QueryState.discovery) hstate
    rw [hdiscovery] at hmem
    exact absurd (mem_range'_1.1 hmem).1 (by omega)

theorem heapifyFinishedStates_follows (c : TSQueryCursor τ) : Follows c c.heapifyFinishedStates :=
  follows_of_subset rfl fun _ hstate => ⟨(heapifyFinishedStates_perm c).subset hstate, rfl⟩

theorem heapifyIfHeap_follows (c : TSQueryCursor τ) : Follows c c.heapifyIfHeap := by
  unfold heapifyIfHeap
  split
  · exact heapifyFinishedStates_follows c
  · exact .refl c

variable {state : QueryState}

theorem removeFinished_follows {index : Nat} (howned : ListsOwned limit c)
    (hget : c.finishedStates[index]? = some state) : Follows c (c.removeFinished index state) := by
  have hperm := removeFinished_perm hget
  have hpool : (c.removeFinished index state).captureListPool =
      c.captureListPool.release state.captureListId := by
    unfold removeFinished
    dsimp only
    split <;> rfl
  refine follows_of_subset ?_ ?_
  · unfold removeFinished
    dsimp only
    split <;> rfl
  · intro other hother
    rw [hpool]
    exact ⟨hperm.symm.subset (by simp [hother]), get_release_of_perm howned hperm other hother⟩

theorem takeMatch_follows {result : TSQueryMatch} (howned : ListsOwned limit c)
    (htake : c.takeMatch = some (c', result)) : Follows c c' := by
  obtain ⟨state, hget, htake⟩ := Option.map_eq_some_iff.1 htake
  obtain ⟨nextStateId, hassign⟩ := assignId_fst c.heapifyIfHeap state
  simp only [Prod.mk.injEq] at htake
  obtain ⟨rfl, -⟩ := htake
  rw [hassign]
  have howned' : ListsOwned limit { c.heapifyIfHeap with nextStateId } :=
    (heapifyIfHeap_owned howned).of_finished rfl rfl (.refl _)
  have hfirst : Follows c { c.heapifyIfHeap with nextStateId } :=
    (heapifyIfHeap_follows c).trans (follows_of_subset rfl fun _ hstate => ⟨hstate, rfl⟩)
  exact hfirst.trans (removeFinished_follows howned' hget)

theorem removeMatch_follows (howned : ListsOwned limit c) (matchId : Nat) :
    Follows c (c.removeMatch matchId) := by
  have hheap := heapifyIfHeap_follows c
  have howned' := heapifyIfHeap_owned howned
  unfold removeMatch
  dsimp only
  split
  · split
    · exact hheap.trans (removeFinished_follows howned' (by assumption))
    · exact hheap
  · split
    · rename_i index _
      cases hdiscard : c.heapifyIfHeap.discardState index with
      | none => exact hheap
      | some c₁ => exact hheap.trans (follows_of_adds (discardState_move hdiscard howned').2)
    · exact hheap

/-! ### The captures -/

theorem inUse_of_owned (howned : ListsOwned limit c) :
    ∀ state ∈ c.finishedStates, (c.captureListPool.get state.captureListId).inUse = true := by
  intro state hstate
  rw [CaptureListPool.get]
  by_cases hnone : state.captureListId = captureListNone
  · rw [hnone, getElem?_eq_none (howned.owned.lists.trans howned.owned.fits)]
    rfl
  · have hused := howned.owned.mem_usedIds
      (mem_map_of_mem (mem_append_right c.states hstate)) hnone
    rw [CaptureListPool.mem_usedIds] at hused
    cases hget : c.captureListPool.list[state.captureListId]? with
    | none => simp [hget] at hused
    | some list => simpa [hget] using hused

theorem isConsumed_iff (howned : ListsOwned limit c) (hstate : state ∈ c.finishedStates) :
    isConsumed c.captureListPool state = false ↔
      state.consumedCaptureCount < (c.capturesOf state).length := by
  rw [isConsumed, CaptureList.size, if_pos (inUse_of_owned howned state hstate), capturesOf]
  simp

variable {capture : TSQueryCapture}

theorem nextCaptureOf_lt (h : nextCaptureOf c.captureListPool state = some capture) :
    state.consumedCaptureCount < (c.capturesOf state).length :=
  (List.getElem?_eq_some_iff.1 h).1

theorem consume_count (h : state.consumedCaptureCount + 1 < 2 ^ 12) :
    state.consume.consumedCaptureCount = state.consumedCaptureCount + 1 :=
  Nat.mod_eq_of_lt h

variable {rest : List QueryState}

theorem replaceRoot_follows {state' : QueryState} (hfinished : c.finishedStates = state :: rest)
    (hdiscovery : state'.discovery = state.discovery)
    (hlist : state'.captureListId = state.captureListId)
    (hcount : state.consumedCaptureCount ≤ state'.consumedCaptureCount) :
    Follows c (c.replaceRoot state') := by
  refine ⟨le_rfl, ?_⟩
  intro other hother _
  rcases mem_cons.1 ((replaceRoot_perm hfinished state').subset hother) with rfl | hother
  · exact ⟨state, by simp [hfinished], hdiscovery.symm, hcount, by rw [hlist]; rfl⟩
  · exact ⟨other, by simp [hfinished, hother], rfl, le_rfl, rfl⟩

theorem dropRoot_follows (howned : ListsOwned limit c)
    (hfinished : c.finishedStates = state :: rest) : Follows c (c.dropRoot state) := by
  have hperm := dropRoot_perm hfinished
  refine follows_of_subset rfl ?_
  intro other hother
  exact ⟨hperm.symm.subset (by simp [hother]), get_release_of_perm howned hperm other hother⟩

theorem skipRoot_follows (hshort : Short c) (hfinished : c.finishedStates = state :: rest)
    (hcapture : nextCaptureOf c.captureListPool state = some capture) :
    Follows c (c.replaceRoot state.consume) := by
  have hlt := nextCaptureOf_lt hcapture
  have hlength := hshort state (by simp [hfinished])
  refine replaceRoot_follows hfinished rfl rfl ?_
  rw [consume_count (by omega)]
  omega

theorem cleanUp_follows : ∀ {turns : Nat} {c c' : TSQueryCursor τ}, cleanUp turns c = some c' →
    ListsOwned limit c → FinishedOk c → c.finishedStatesHeapSize = c.finishedStates.length →
    Short c → Follows c c' := by
  intro turns
  induction turns with
  | zero =>
    intro c c' hclean
    cases hclean
  | succ turns ih =>
    intro c c' hclean howned h hfull hshort
    rw [cleanUp] at hclean
    split at hclean
    · cases hclean
      exact .refl c
    · rename_i state rest hfinished
      split at hclean
      · have hok := h.dropRoot howned hfull hfinished
        have hfirst := dropRoot_follows howned hfinished
        exact hfirst.trans (ih hclean (dropRoot_owned hfinished howned) hok rfl
          (hshort.of_follows hok hfirst rfl))
      · obtain ⟨capture, hcapture, hclean⟩ := Option.bind_eq_some_iff.1 hclean
        split at hclean
        · have hnumbers : numbers state.consume = numbers state := rfl
          obtain ⟨hok, hfull'⟩ := h.replaceRoot hfull hfinished hnumbers
          have hfirst := skipRoot_follows hshort hfinished hcapture
          exact hfirst.trans (ih hclean (replaceRoot_owned hfinished rfl howned) hok hfull'
            (hshort.of_follows hok hfirst rfl))
        · cases hclean
          exact .refl c

variable {first : Option FirstCapture} {cleaned : TSQueryCursor τ}

theorem CleanedTurn.follows (hok : FinishedOk c) (howned : ListsOwned limit c) (hshort : Short c)
    (h : CleanedTurn c turns first cleaned) :
    ListsOwned limit cleaned ∧ Follows c cleaned ∧ Short cleaned := by
  obtain ⟨c₁, hfirst, hclean⟩ := h
  obtain ⟨⟨states, rfl⟩, howned₁, hok₁, hfull⟩ := hok.startTurn howned hfirst
  have hfollows : Follows c { c.heapifyFinishedStates with states } :=
    (heapifyFinishedStates_follows c).trans (follows_of_subset rfl fun _ hstate => ⟨hstate, rfl⟩)
  have hfollows₂ := hfollows.trans
    (cleanUp_follows hclean howned₁ hok₁ hfull (hshort.of_follows hok₁ hfollows rfl))
  obtain ⟨hcleaned, -, hcount, -⟩ := cleanUp_cleaned hclean howned₁ hok₁ hfull fun _ _ => rfl
  exact ⟨cleanUp_owned hclean howned₁, hfollows₂, hshort.of_follows hcleaned.ok hfollows₂ hcount⟩

/-- After a capture of a finished state was returned, it counts as consumed. -/
theorem TakesRoot.consumed {returned : Option ReturnedCapture} (hshort : Short cleaned)
    (hleft : state.consumedCaptureCount < (cleaned.capturesOf state).length)
    (h : TakesRoot cleaned c' returned (some state)) :
    ∃ state' ∈ c'.finishedStates, state'.discovery = state.discovery ∧
      state'.consumedCaptureCount = state.consumedCaptureCount + 1 := by
  obtain ⟨id, rest, hfinished, hperm, -⟩ := h
  have hlength := hshort state (by simp [hfinished])
  exact ⟨{ state.consume with id }, hperm.symm.subset (by simp), rfl, consume_count (by omega)⟩

theorem firstFinished_left (h : c.firstFinished first = some state) :
    state.consumedCaptureCount < (c.capturesOf state).length := by
  unfold firstFinished at h
  split at h
  · cases h
  · obtain ⟨capture, hcapture, h⟩ := Option.bind_eq_some_iff.1 h
    split at h
    · cases h
      exact nextCaptureOf_lt hcapture
    · cases h

theorem abandonState_follows (howned : ListsOwned limit c)
    (habandon : c.abandonState first = some c') : Follows c c' := by
  unfold abandonState at habandon
  split at habandon
  · split at habandon
    · exact follows_of_adds (discardState_move habandon howned).2
    · cases habandon
      exact .refl _
  · cases habandon
    exact .refl _

theorem captureTurn_follows {returned : Option ReturnedCapture} (hok : FinishedOk c)
    (howned : ListsOwned limit c) (hshort : Short c)
    (hturn : c.captureTurn turns = some (c', returned)) : Follows c c' := by
  obtain ⟨⟨c₁, first⟩, hfirst, hturn⟩ := Option.bind_eq_some_iff.1 hturn
  obtain ⟨c₂, hclean, hturn⟩ := Option.bind_eq_some_iff.1 hturn
  obtain ⟨howned₂, hfollows, hshort₂⟩ := CleanedTurn.follows hok howned hshort ⟨c₁, hfirst, hclean⟩
  refine hfollows.trans ?_
  split at hturn
  · rename_i state hstate
    obtain ⟨rest, hfinished⟩ := firstFinished_head hstate
    have hleft := firstFinished_left hstate
    have hlength := hshort₂ state (by simp [hfinished])
    obtain ⟨nextStateId, hassign⟩ := assignId_fst c₂ state
    unfold returnFinished at hturn
    simp only [hassign] at hturn
    cases hturn
    have hsame : Follows c₂ { c₂ with nextStateId } :=
      follows_of_subset rfl fun _ hstate => ⟨hstate, rfl⟩
    refine hsame.trans (replaceRoot_follows (c := { c₂ with nextStateId }) hfinished rfl rfl ?_)
    show _ ≤ state.consume.consumedCaptureCount
    rw [consume_count (by omega)]
    omega
  · split at hturn
    · obtain ⟨state, hget, hturn⟩ := Option.bind_eq_some_iff.1 hturn
      obtain ⟨nextStateId, hassign⟩ := assignId_fst c₂ state
      unfold returnUnfinished at hturn
      simp only [hassign] at hturn
      cases hturn
      exact follows_of_subset rfl fun _ hstate => ⟨hstate, rfl⟩
    · obtain ⟨c₃, habandon, hturn⟩ := Option.map_eq_some_iff.1 hturn
      cases hturn
      exact abandonState_follows howned₂ habandon

/-! ### The end of the clean-up -/

/-- How much a state has left: its captures, and itself. -/
def leftOf (pool : CaptureListPool) (state : QueryState) : Nat :=
  (pool.get state.captureListId).contents.length - state.consumedCaptureCount + 1

def capturesLeft (c : TSQueryCursor τ) : Nat := (c.finishedStates.map (leftOf c.captureListPool)).sum

theorem dropRoot_left (howned : ListsOwned limit c) (hfinished : c.finishedStates = state :: rest) :
    capturesLeft (c.dropRoot state) < capturesLeft c := by
  have hperm := dropRoot_perm hfinished
  have hsame : (c.dropRoot state).finishedStates.map (leftOf (c.dropRoot state).captureListPool) =
      (c.dropRoot state).finishedStates.map (leftOf c.captureListPool) := by
    refine map_congr_left fun other hother => ?_
    rw [leftOf, leftOf, show (c.dropRoot state).captureListPool.get other.captureListId = _ from
      get_release_of_perm howned hperm other hother]
  rw [capturesLeft, capturesLeft, (hperm.map _).sum_eq, hsame, map_cons, sum_cons, leftOf]
  omega

theorem skipRoot_left (hshort : Short c) (hfinished : c.finishedStates = state :: rest)
    (hcapture : nextCaptureOf c.captureListPool state = some capture) :
    capturesLeft (c.replaceRoot state.consume) < capturesLeft c := by
  have hlt := nextCaptureOf_lt hcapture
  have hlength := hshort state (by simp [hfinished])
  have hperm := replaceRoot_perm hfinished state.consume
  have hroot : leftOf c.captureListPool state.consume < leftOf c.captureListPool state := by
    rw [capturesOf] at hlt hlength
    rw [leftOf, leftOf, consume_count (by omega)]
    show (c.captureListPool.get state.captureListId).contents.length - _ + 1 < _
    omega
  rw [capturesLeft, capturesLeft, (hperm.map _).sum_eq, hfinished, map_cons, map_cons,
    sum_cons, sum_cons]
  exact Nat.add_lt_add_right hroot _

theorem cleanUp_isSome : ∀ {turns : Nat} {c : TSQueryCursor τ}, ListsOwned limit c → FinishedOk c →
    c.finishedStatesHeapSize = c.finishedStates.length → Short c → capturesLeft c < turns →
    (cleanUp turns c).isSome = true := by
  intro turns
  induction turns with
  | zero =>
    intro c _ _ _ _ hturns
    exact absurd hturns (Nat.not_lt_zero _)
  | succ turns ih =>
    intro c howned h hfull hshort hturns
    rw [cleanUp]
    split
    · rfl
    · rename_i state rest hfinished
      split
      · have hok := h.dropRoot howned hfull hfinished
        have hleft := dropRoot_left howned hfinished
        exact ih (dropRoot_owned hfinished howned) hok rfl
          (hshort.of_follows hok (dropRoot_follows howned hfinished) rfl) (by omega)
      · rename_i hconsumed
        have hmem : state ∈ c.finishedStates := by simp [hfinished]
        have hlt := (isConsumed_iff howned hmem).1 (by simpa using hconsumed)
        obtain ⟨capture, hcapture⟩ : ∃ capture, nextCaptureOf c.captureListPool state = some capture :=
          ⟨_, getElem?_eq_getElem hlt⟩
        rw [hcapture, Option.bind_some]
        split
        · have hnumbers : numbers state.consume = numbers state := rfl
          obtain ⟨hok, hfull'⟩ := h.replaceRoot hfull hfinished hnumbers
          have hleft := skipRoot_left hshort hfinished hcapture
          exact ih (replaceRoot_owned hfinished rfl howned) hok hfull'
            (hshort.of_follows hok (skipRoot_follows hshort hfinished hcapture) rfl) (by omega)
        · rfl

/-! ### Runs -/

/-- A step for a cursor with short matches that does not start anew: `ts_query_cursor_exec` is the
one step that takes the count of the finished states back. -/
def ShortStep (walk : TreeWalk τ) (c c' : TSQueryCursor τ) : Prop :=
  CursorStep walk c c' ∧ Short c ∧ c.finishedCount ≤ c'.finishedCount

theorem ShortStep.follows (hstep : ShortStep walk c c') (h : StatesOk c) : Follows c c' := by
  obtain ⟨⟨limit, howned⟩, hok⟩ := h
  obtain ⟨hstep, hshort, hcount⟩ := hstep
  have hsame : ∀ {c' : TSQueryCursor τ}, c'.finishedCount = c.finishedCount →
      c'.finishedStates = c.finishedStates → c'.captureListPool.list = c.captureListPool.list →
      Follows c c' := by
    intro c' hcount hfinished hlist
    refine follows_of_subset hcount ?_
    intro state hstate
    rw [hfinished] at hstate
    exact ⟨hstate, by rw [CaptureListPool.get, CaptureListPool.get, hlist]⟩
  cases hstep with
  | @call turns call hmatch hcapture hcall =>
    cases call with
    | nextMatch => exact absurd rfl hmatch
    | nextCapture => exact absurd rfl hcapture
    | removeMatch matchId =>
      cases hcall
      exact removeMatch_follows howned matchId
    | exec query cursor progressCallback =>
      cases hcall
      exact ⟨hcount, fun _ hstate => absurd hstate not_mem_nil⟩
    | setMatchLimit limit | setByteRange startByte endByte
    | setPointRange startPoint endPoint | setContainingByteRange startByte endByte
    | setContainingPointRange startPoint endPoint | setMaxStartDepth maxStartDepth =>
      cases hcall
      exact hsame rfl rfl rfl
  | advance hadvance => exact follows_of_adds (advance_move hadvance howned).2
  | takeMatch htake => exact takeMatch_follows howned htake
  | captureTurn hturn => exact captureTurn_follows hok howned hshort hturn

theorem follows_of_run (hrun : Relation.ReflTransGen (ShortStep walk) c c') (h : StatesOk c) :
    StatesOk c' ∧ Follows c c' := by
  induction hrun with
  | refl => exact ⟨h, .refl c⟩
  | tail _ hstep ih => exact ⟨hstep.1.statesOk ih.1, ih.2.trans (hstep.follows ih.1)⟩

/-- A turn of `ts_query_cursor_next_capture` returns a capture of a finished state, which is this
one by then: the result and the index. -/
def ReturnsFinished (c c' : TSQueryCursor τ) (state : QueryState) (result : TSQueryMatch) (index : Nat) :
    Prop :=
  ∃ turns first cleaned, CleanedTurn c turns first cleaned ∧ cleaned.firstFinished first = some state ∧
    c.captureTurn turns = some (c', some (result, index))

/-- What one wants of the captures of finished matches. Each one that is returned is counted, so
that none is returned again in what follows; and the loop over the finished states ends, with those
removed that have no captures left before any other. -/
structure CapturesOnce (walk : TreeWalk τ) (c : TSQueryCursor τ) : Prop where
  grows : ∀ c' state result index, ReturnsFinished c c' state result index →
    result.captures[index]?.isSome = true ∧
    (∃ before ∈ c.finishedStates, before.discovery = state.discovery ∧
      before.consumedCaptureCount ≤ index) ∧
    ∃ after ∈ c'.finishedStates, after.discovery = state.discovery ∧
      after.consumedCaptureCount = index + 1
  once : ∀ c' state result index, ReturnsFinished c c' state result index →
    ∀ c₁ c₂ state' result' index', Relation.ReflTransGen (ShortStep walk) c' c₁ → Short c₁ →
      ReturnsFinished c₁ c₂ state' result' index' → state'.discovery = state.discovery →
      index < index'
  ends : ∀ turns first c₁,
    c.heapifyFinishedStates.firstInProgressCapture turns true = some (c₁, first) →
    capturesLeft c < turns → (cleanUp turns c₁).isSome = true
  removed : ∀ turns first cleaned, CleanedTurn c turns first cleaned →
    ∀ state rest, cleaned.finishedStates = state :: rest →
      state.consumedCaptureCount < (cleaned.capturesOf state).length

theorem CleanedTurn.unique {first' : Option FirstCapture} {cleaned' : TSQueryCursor τ}
    (h : CleanedTurn c turns first cleaned) (h' : CleanedTurn c turns first' cleaned') :
    first' = first ∧ cleaned' = cleaned := by
  obtain ⟨c₁, hfirst, hclean⟩ := h
  obtain ⟨c₁', hfirst', hclean'⟩ := h'
  rw [hfirst, Option.some_inj, Prod.mk.injEq] at hfirst'
  obtain ⟨rfl, rfl⟩ := hfirst'
  rw [hclean, Option.some_inj] at hclean'
  exact ⟨rfl, hclean'.symm⟩

theorem ReturnsFinished.counted {result : TSQueryMatch} {index : Nat} (hok : FinishedOk c)
    (howned : ListsOwned limit c) (hshort : Short c) (h : ReturnsFinished c c' state result index) :
    result.captures[index]?.isSome = true ∧
    (∃ before ∈ c.finishedStates, before.discovery = state.discovery ∧
      before.consumedCaptureCount ≤ index) ∧
    (∃ after ∈ c'.finishedStates, after.discovery = state.discovery ∧
      after.consumedCaptureCount = index + 1) ∧
    state.discovery < c.finishedCount := by
  obtain ⟨turns, first, cleaned, hturn, hstate, hreturn⟩ := h
  obtain ⟨-, first', cleaned', hturn', hcleaned, -, hcount, htakes⟩ :=
    captureTurn_finishedOk hok howned hreturn
  obtain ⟨rfl, rfl⟩ := hturn.unique hturn'
  obtain ⟨-, hfollows, hshort'⟩ := hturn.follows hok howned hshort
  have hleft := firstFinished_left hstate
  obtain ⟨rest, hfinished⟩ := firstFinished_head hstate
  have hmem : state ∈ cleaned'.finishedStates := by simp [hfinished]
  have hdiscovery : state.discovery < c.finishedCount := hcount ▸ (hcleaned.ok.order state hmem).2
  rw [hstate] at htakes
  obtain ⟨after, hafter, hnumber, hconsumed⟩ := htakes.consumed hshort' hleft
  obtain ⟨id, -, -, -, heq⟩ := htakes
  cases heq
  obtain ⟨before, hbefore, hnumber', hle, -⟩ := hfollows.states state hmem hdiscovery
  refine ⟨?_, ⟨before, hbefore, hnumber', hle⟩, ⟨after, hafter, hnumber, hconsumed⟩, hdiscovery⟩
  have hget := getElem?_eq_getElem hleft
  show (cleaned'.capturesOf state)[state.consumedCaptureCount]?.isSome = true
  rw [hget]
  rfl

/-- In every run, the captures of matches of less than `2 ^ 12` captures are returned once, and
such matches are removed after that. -/
theorem Reachable.capturesOnce (h : Reachable walk c) (hshort : Short c) : CapturesOnce walk c := by
  obtain ⟨⟨limit, howned⟩, hok⟩ := h.statesOk
  refine ⟨?_, ?_, ?_, ?_⟩
  · intro c' state result index hreturns
    obtain ⟨hcapture, hbefore, hafter, -⟩ := hreturns.counted hok howned hshort
    exact ⟨hcapture, hbefore, hafter⟩
  · intro c' state result index hreturns c₁ c₂ state' result' index' hrun hshort₁ hreturns' hsame
    obtain ⟨-, -, ⟨after, hafter, hnumber, hconsumed⟩, hdiscovery⟩ := hreturns.counted hok howned hshort
    obtain ⟨turns, -, -, -, -, hturn⟩ := hreturns
    have hstep : CursorStep walk c c' := .captureTurn hturn
    have hok' : StatesOk c' := hstep.statesOk ⟨⟨limit, howned⟩, hok⟩
    obtain ⟨⟨⟨limit₁, howned₁⟩, hok₁⟩, hfollows⟩ := follows_of_run hrun hok'
    obtain ⟨-, ⟨before, hbefore, hnumber', hle⟩, -, -⟩ := hreturns'.counted hok₁ howned₁ hshort₁
    -- the match that returns a capture now is the one that did so before
    have hafterCount := (hok'.2.order after hafter).2
    obtain ⟨earlier, hearlier, hnumber'', hle', -⟩ := hfollows.states before hbefore (by omega)
    have heq : earlier = after :=
      inj_on_of_nodup_map hok'.2.nodup hearlier hafter (by omega)
    rw [heq] at hle'
    omega
  · intro turns first c₁ hfirst hturns
    obtain ⟨⟨states, rfl⟩, howned₁, hok₁, hfull⟩ := hok.startTurn howned hfirst
    have hshort₁ : Short { c.heapifyFinishedStates with states } :=
      fun state hstate => hshort state ((heapifyFinishedStates_perm c).subset hstate)
    refine cleanUp_isSome howned₁ hok₁ hfull hshort₁ ?_
    have hleft := ((heapifyFinishedStates_perm c).map (leftOf c.captureListPool)).sum_eq
    exact hleft.trans_lt hturns
  · intro turns first cleaned hturn state rest hfinished
    obtain ⟨howned', -, -⟩ := hturn.follows hok howned hshort
    obtain ⟨c₁, hfirst, hclean⟩ := hturn
    obtain ⟨⟨states, rfl⟩, howned₁, hok₁, hfull⟩ := hok.startTurn howned hfirst
    obtain ⟨hcleaned, -⟩ := cleanUp_cleaned hclean howned₁ hok₁ hfull fun _ _ => rfl
    have hmem : state ∈ cleaned.finishedStates := by simp [hfinished]
    refine (isConsumed_iff howned' hmem).1 ?_
    rw [isConsumed_congr (hcleaned.lists state hmem)]
    exact (hcleaned.root state rest hfinished).1

theorem Reachable.capturesOnce_leaf :
    ∃ c, Reachable leafWalk c ∧ c.finishedStates.map (fun state =>
      (state.consumedCaptureCount, (c.capturesOf state).length)) = [(1, 2), (0, 2)] ∧
      CapturesOnce leafWalk c := by
  have hfinished : ((new captureQuery ()).calls leafWalk 20
      [.exec captureQuery () none, .nextCapture]).map
        (fun c => (c.finishedStates.map fun state =>
            (state.consumedCaptureCount, (c.capturesOf state).length),
          c.finishedStates.all fun state => (c.capturesOf state).length < 2 ^ 12)) =
        some ([(1, 2), (0, 2)], true) := by
    cbv
  obtain ⟨c, hc, hlength⟩ := Option.map_eq_some_iff.1 hfinished
  rw [Prod.mk.injEq, all_eq_true] at hlength
  have hreach : Reachable leafWalk c := ⟨captureQuery, (), calls_steps hc⟩
  refine ⟨c, hreach, hlength.1, hreach.capturesOnce fun state hstate => ?_⟩
  simpa using hlength.2 state hstate

/-! ### When the counter wraps around -/

/-- The first step of the pattern `(p . (a) @x . (a) @x ...)`, where the symbol 2 is called `p`. -/
def parentStep : QueryStep := { QueryStep.new 2 0 false with containsCaptures := true }

/-- A step `. (a) @x` inside of it. -/
def childStep : QueryStep :=
  { QueryStep.new 1 1 true with captureIds := [0], containsCaptures := true }

/-- The pattern with so many children. -/
def chainQuery (n : Nat) : AnalyzedQuery where
  steps := parentStep :: (List.replicate n childStep ++ [doneStep])
  patternMap := [⟨0, 0, true⟩]
  patternCount := 1
  wildcardRootPatternCount := 0
  negatedFields := []
  repeatSymbolsWithRootlessPatterns := []

def lineCaptures (n : Nat) : List TSQueryCapture := (List.range n).map fun i => ⟨byteNode i, 0⟩

/-- The state of the pattern after so many children. -/
def chainState (captureListId order discovery count i : Nat) : QueryState where
  id := captureListNone
  captureListId := captureListId
  heapInsertOrder := order
  discovery := discovery
  startDepth := 0
  stepIndex := i + 1
  patternIndex := 0
  consumedCaptureCount := count
  seekingImmediateMatch := false
  hasInProgressAlternatives := false
  dead := false
  needsParent := false
  skippedQuantifier := false

/-- The cursor at a node of the line. -/
def chainCursor (n i : Nat) (ascending : Bool) (states : List QueryState) (captureListPool : CaptureListPool)
    (finishedStates : List QueryState) (finishedCount operationCount : Nat) : TSQueryCursor (Option Nat) where
  query := chainQuery n
  cursor := some i
  states := states
  finishedStates := finishedStates
  finishedStatesHeapSize := 0
  captureListPool := captureListPool
  depth := 1
  maxStartDepth := 2 ^ 32 - 1
  includedRange := fullRange
  containingRange := fullRange
  nextStateId := 0
  nextFinishedStateId := finishedCount
  finishedCount := finishedCount
  progressCallback := none
  callbackCount := 0
  operationCount := operationCount
  onVisibleNode := true
  ascending := ascending
  halted := false
  didExceedMatchLimit := false

def chainPool (i : Nat) : CaptureListPool := ⟨[⟨lineCaptures i, true⟩], captureListNone, 0⟩

section Chain

variable {n i op : Nat}

theorem steps_child (h : i < n) : (chainQuery n).steps[i + 1]? = some childStep := by
  show (List.replicate n childStep ++ [doneStep])[i]? = some childStep
  rw [getElem?_append_left (by simpa using h), getElem?_replicate, if_pos h]

theorem steps_done (n : Nat) : (chainQuery n).steps[n + 1]? = some doneStep := by
  show (List.replicate n childStep ++ [doneStep])[n]? = some doneStep
  rw [getElem?_append_right (by simp)]
  simp

theorem lineCaptures_succ (i : Nat) : lineCaptures (i + 1) = lineCaptures i ++ [⟨byteNode i, 0⟩] := by
  rw [lineCaptures, range_succ, map_append]
  rfl

theorem updateState_chain (hi : i < n) (turns : Nat) (later : Bool) :
    (chainCursor n i false [chainState 0 captureListNone 0 0 i] (chainPool i) [] 0 op).updateState
        (turns + 9) true (lineFacts n i later) 0 =
      (chainCursor n i false [chainState 0 captureListNone 0 0 i] (chainPool (i + 1)) [] 0
        op).finishUpdate (turns + 9) true (lineFacts n i later) 0 childStep 0 := by
  have hstep : (chainQuery n).steps[i + 1]? = some childStep := steps_child hi
  simp only [chainPool, lineCaptures_succ]
  unfold updateState
  simp only [chainState, chainCursor, getElem?_cons_zero, Option.bind_eq_bind, Option.bind_some]
  rw [hstep]
  cases later <;> rfl

variable {nextStep : QueryStep}

theorem finishUpdate_chain (hi : i + 2 < 2 ^ 16) (turns : Nat) (later : Bool)
    (hnext : (chainQuery n).steps[i + 2]? = some nextStep)
    (hnone : nextStep.alternativeIndex = queryNone) (pool : CaptureListPool) :
    (chainCursor n i false [chainState 0 captureListNone 0 0 i] pool [] 0 op).finishUpdate (turns + 9) true
        (lineFacts n i later) 0 childStep 0 =
      some (chainCursor n i false [chainState 0 captureListNone 0 0 (i + 1)] pool [] 0 op, 1,
        nextStep.rootPatternGuaranteed) := by
  have hmod : (i + 1 + 1) % 2 ^ 16 = i + 2 := Nat.mod_eq_of_lt hi
  have hsplit : splitLoop (lineFacts n i later) (turns + 9)
      (chainCursor n i false [chainState 0 captureListNone 0 0 (i + 1)] pool [] 0 op) 0 1 0 =
        some (chainCursor n i false [chainState 0 captureListNone 0 0 (i + 1)] pool [] 0 op, 0) := by
    rw [splitLoop, if_pos Nat.one_pos]
    simp only [chainState, chainCursor, getElem?_cons_zero, Option.bind_eq_bind, Option.bind_some]
    rw [hnext, Option.bind_some, if_pos hnone]
    rfl
  have hadvance : (chainCursor n i false [chainState 0 captureListNone 0 0 i] pool [] 0 op).advanceStep 0
      childStep =
        some (chainCursor n i false [chainState 0 captureListNone 0 0 (i + 1)] pool [] 0 op, nextStep) := by
    unfold advanceStep
    simp only [chainState, chainCursor, getElem?_cons_zero, Option.bind_eq_bind, Option.bind_some,
      hmod, hnext, modifyState]
    simp [childStep, QueryStep.new, wildcardSymbol]
    omega
  unfold finishUpdate
  rw [hadvance]
  simp only [chainCursor, chainState, getElem?_cons_zero, Option.bind_eq_bind, Option.bind_some] at hsplit ⊢
  rw [hsplit]
  rfl

theorem updateStates_chain (hn : n < 2 ^ 15) (hi : i < n) (turns : Nat) (later : Bool)
    (hnext : (chainQuery n).steps[i + 2]? = some nextStep)
    (hnone : nextStep.alternativeIndex = queryNone) :
    updateStates true (lineFacts n i later) (turns + 11)
        (chainCursor n i false [chainState 0 captureListNone 0 0 i] (chainPool i) [] 0 op) 0 false =
      some (chainCursor n i false [chainState 0 captureListNone 0 0 (i + 1)] (chainPool (i + 1)) [] 0 op,
        nextStep.rootPatternGuaranteed) := by
  rw [updateStates, if_pos (by simp [chainCursor]), updateState_chain hi (turns + 1) later,
    finishUpdate_chain (by omega) (turns + 1) later hnext hnone]
  rfl

theorem dedupStates_chain_eq (turns : Nat) (pool : CaptureListPool) (found : Bool) :
    dedupStates (turns + 11)
        (chainCursor n i false [chainState 0 captureListNone 0 0 (i + 1)] pool [] 0
          op).sortStatesByCapture 0 found =
      ((chainCursor n i false [chainState 0 captureListNone 0 0 (i + 1)] pool [] 0 op).finishState 0).bind
        fun (c, finished) =>
          if finished then dedupStates (turns + 10) c 0 true else dedupStates (turns + 10) c 1 found :=
  (rfl)

theorem dedupStates_chain (turns : Nat) (pool : CaptureListPool)
    (hnext : (chainQuery n).steps[i + 2]? = some nextStep) (hdepth : nextStep.depth ≠ queryNone)
    (found : Bool) :
    dedupStates (turns + 11)
        (chainCursor n i false [chainState 0 captureListNone 0 0 (i + 1)] pool [] 0
          op).sortStatesByCapture 0 found =
      some (chainCursor n i false [chainState 0 captureListNone 0 0 (i + 1)] pool [] 0 op, found) := by
  rw [dedupStates_chain_eq]
  unfold finishState
  simp only [chainState, chainCursor, getElem?_cons_zero, Option.bind_eq_bind, Option.bind_some]
  rw [hnext]
  simp [hdepth]
  rfl

theorem dedupStates_chain_last (turns : Nat) (pool : CaptureListPool)
    (hdone : (chainQuery n).steps[i + 2]? = some doneStep) (found : Bool) :
    dedupStates (turns + 11)
        (chainCursor n i false [chainState 0 captureListNone 0 0 (i + 1)] pool [] 0
          op).sortStatesByCapture 0 found =
      some (chainCursor n i false [] pool [chainState 0 0 0 0 (i + 1)] 1 op, true) := by
  rw [dedupStates_chain_eq]
  unfold finishState
  simp only [chainState, chainCursor, getElem?_cons_zero, Option.bind_eq_bind, Option.bind_some]
  rw [hdone]
  rfl

theorem addStates_chain (states : List QueryState) (pool : CaptureListPool) :
    (chainCursor n i false states pool [] 0 op).addStates ⟨1, false, true, true, 0, 0, 1, 2 ^ 32 - 1⟩ =
      some (chainCursor n i false states pool [] 0 op) := by
  have hstart : (chainQuery n).toTSQuery.startPatterns ⟨1, false, true, true, 0, 0, 1, 2 ^ 32 - 1⟩ =
      some [] := by cbv
  unfold addStates
  rw [show (chainCursor n i false states pool [] 0 op).query = chainQuery n from rfl, hstart]
  rfl

theorem enterNode_chain (hn : n < 2 ^ 15) (hi : i < n) (turns : Nat) (later : Bool)
    (states : List QueryState) (pool : CaptureListPool) :
    (chainCursor n i false states pool [] 0 op).enterNode turns true (lineFacts n i later) =
      (updateStates true (lineFacts n i later) turns (chainCursor n i false states pool [] 0 op) 0
        false).bind fun (c, didMatch) => dedupStates turns c.sortStatesByCapture 0 didMatch := by
  have hwithin : ((lineFacts n i later).node.range.within
      (chainCursor n i false states pool [] 0 op).containingRange &&
        (chainCursor n i false states pool [] 0 op).onVisibleNode) = true := by
    have hwithin := within_line hi (show n < 2 ^ 32 by omega) later
    simpa [chainCursor] using hwithin
  unfold enterNode
  rw [if_pos hwithin, nodeContext_line hi (by omega) rfl]
  rw [show (⟨1, false, true, true, 0, 0, (chainCursor n i false states pool [] 0 op).depth,
    (chainCursor n i false states pool [] 0 op).maxStartDepth⟩ : NodeContext) =
      ⟨1, false, true, true, 0, 0, 1, 2 ^ 32 - 1⟩ from rfl, addStates_chain]
  rfl

theorem descend_chain (hn : n < 2 ^ 15) (hi : i < n) (later : Bool) (states : List QueryState)
    (pool : CaptureListPool) (finished : List QueryState) (count : Nat) :
    (chainCursor n i false states pool finished count op).descend (lineWalk n) (lineFacts n i later) =
      some (chainCursor n i true states pool finished count op) := by
  have hcontaining : (lineFacts n i later).node.range.intersects
      (chainCursor n i false states pool finished count op).containingRange = true :=
    intersects_line hi (by omega) later
  rw [descend, if_pos hcontaining, nodeContext_line hi (by omega) rfl]
  rfl

theorem enter_chain_of (hn : n < 2 ^ 15) (hi : i < n) (turns : Nat)
    (hnext : (chainQuery n).steps[i + 2]? = some nextStep)
    (hnone : nextStep.alternativeIndex = queryNone) {states finished : List QueryState} {count : Nat}
    {found : Bool} (hdedup : dedupStates (turns + 11)
        (chainCursor n i false [chainState 0 captureListNone 0 0 (i + 1)] (chainPool (i + 1)) [] 0
          op).sortStatesByCapture 0 nextStep.rootPatternGuaranteed =
      some (chainCursor n i false states (chainPool (i + 1)) finished count op, found)) :
    (chainCursor n i false [chainState 0 captureListNone 0 0 i] (chainPool i) [] 0 op).advanceTurn
        (lineWalk n) (turns + 11) true =
      some (chainCursor n i true states (chainPool (i + 1)) finished count op, found) := by
  have hfacts : ∀ (states finished : List QueryState) (pool : CaptureListPool) (count : Nat),
      (lineWalk n).facts (chainCursor n i false states pool finished count op).cursor =
        lineFacts n i (i + 1 < n) := fun _ _ _ _ => rfl
  rw [advanceTurn, if_neg (by simp [chainCursor]), hfacts, enterNode_chain hn hi,
    updateStates_chain hn hi turns _ hnext hnone, Option.bind_some]
  simp only
  rw [hdedup, Option.bind_some]
  simp only [hfacts, descend_chain hn hi, Option.map_some]

theorem enter_chain (hn : n < 2 ^ 15) (hi : i + 1 < n) (turns : Nat) :
    (chainCursor n i false [chainState 0 captureListNone 0 0 i] (chainPool i) [] 0 op).advanceTurn
        (lineWalk n) (turns + 11) true =
      some (chainCursor n i true [chainState 0 captureListNone 0 0 (i + 1)] (chainPool (i + 1)) [] 0 op,
        false) := by
  have hnext : (chainQuery n).steps[i + 2]? = some childStep := steps_child hi
  exact enter_chain_of hn (by omega) turns hnext rfl (dedupStates_chain turns _ hnext (by decide) _)

theorem enter_chain_last (hn : n < 2 ^ 15) (hi : i + 1 = n) (turns : Nat) :
    (chainCursor n i false [chainState 0 captureListNone 0 0 i] (chainPool i) [] 0 op).advanceTurn
        (lineWalk n) (turns + 11) true =
      some (chainCursor n i true [] (chainPool (i + 1)) [chainState 0 0 0 0 (i + 1)] 1 op, true) := by
  have hdone : (chainQuery n).steps[i + 2]? = some doneStep := hi ▸ steps_done (i + 1)
  exact enter_chain_of hn (by omega) turns hdone rfl (dedupStates_chain_last turns _ hdone _)

theorem leave_chain (hi : i + 1 < n) (turns : Nat) (pool : CaptureListPool) :
    (chainCursor n i true [chainState 0 captureListNone 0 0 (i + 1)] pool [] 0 op).advanceTurn
        (lineWalk n) turns true =
      some (chainCursor n (i + 1) false [chainState 0 captureListNone 0 0 (i + 1)] pool [] 0 op, false) := by
  have hnext : (chainQuery n).steps[i + 1 + 1]? = some childStep := steps_child hi
  have hsibling : (lineWalk n).gotoNextSibling (some i) = (.visible, some (i + 1)) := if_pos hi
  have hleave : (chainCursor n i true [chainState 0 captureListNone 0 0 (i + 1)] pool [] 0 op).leaveNode =
      some (chainCursor n i true [chainState 0 captureListNone 0 0 (i + 1)] pool [] 0 op, false) := by
    simp only [leaveNode, chainCursor, if_true, leaveStates, chainState]
    rw [hnext]
    rfl
  have hcursor : (chainCursor n i true [chainState 0 captureListNone 0 0 (i + 1)] pool [] 0 op).cursor =
      some i := rfl
  rw [advanceTurn, if_pos (by rfl), hleave, Option.map_some]
  simp only
  rw [leave, hcursor, hsibling]
  rfl

theorem countOperation_chain (n i op : Nat) (ascending : Bool) (states : List QueryState) (pool : CaptureListPool) :
    ∃ op', (chainCursor n i ascending states pool [] 0 op).countOperation =
      chainCursor n i ascending states pool [] 0 op' := ⟨_, rfl⟩

theorem advance_chain_next (hi : i + 1 < n) (turns op : Nat) :
    ∃ op', advance (lineWalk n) true (turns + 2)
        (chainCursor n i true [chainState 0 captureListNone 0 0 (i + 1)] (chainPool (i + 1)) [] 0 op)
        false =
      ((chainCursor n (i + 1) false [chainState 0 captureListNone 0 0 (i + 1)] (chainPool (i + 1)) [] 0
        op').advanceTurn (lineWalk n) turns true).bind fun (c, matched) =>
          advance (lineWalk n) true turns c matched := by
  obtain ⟨op₁, hop₁⟩ := countOperation_chain n i op true
    [chainState 0 captureListNone 0 0 (i + 1)] (chainPool (i + 1))
  obtain ⟨op₂, hop₂⟩ := countOperation_chain n (i + 1) op₁ false
    [chainState 0 captureListNone 0 0 (i + 1)] (chainPool (i + 1))
  refine ⟨op₂, ?_⟩
  rw [advance_step (turns + 1) true rfl rfl, hop₁, leave_chain hi, Option.bind_some]
  simp only
  rw [advance_step turns true rfl rfl, hop₂]

theorem advance_chain (hn : n < 2 ^ 15) : ∀ (left i op turns : Nat), i + 1 + left + 1 = n →
    ∃ op', advance (lineWalk n) true (turns + 2 * left + 14)
        (chainCursor n i true [chainState 0 captureListNone 0 0 (i + 1)] (chainPool (i + 1)) [] 0 op)
        false =
      some (chainCursor n (n - 1) true [] (chainPool n) [chainState 0 0 0 0 n] 1 op', true) := by
  intro left
  induction left with
  | zero =>
    intro i op turns hleft
    obtain ⟨op₁, hadvance⟩ := advance_chain_next (i := i) (show i + 1 < n by omega) (turns + 12) op
    rw [Nat.mul_zero, Nat.add_zero, hadvance, enter_chain_last hn (by omega) (turns + 1),
      Option.bind_some]
    obtain rfl : n = i + 2 := by omega
    exact ⟨_, rfl⟩
  | succ left ih =>
    intro i op turns hleft
    obtain ⟨op₁, hadvance⟩ := advance_chain_next (i := i) (show i + 1 < n by omega) (turns + 2 * left + 14) op
    obtain ⟨op₂, hrest⟩ := ih (i + 1) op₁ turns (by omega)
    refine ⟨op₂, ?_⟩
    rw [show turns + 2 * (left + 1) + 14 = turns + 2 * left + 14 + 2 by omega, hadvance,
      enter_chain hn (by omega) (turns + 2 * left + 3), Option.bind_some]
    exact hrest

/-- What is known of the root of the line. -/
def rootFacts (width : Nat) : NodeFacts :=
  { leafFacts 2 with node := ⟨0, ⟨0, width, ⟨0, 0⟩, ⟨0, width⟩⟩⟩ }

theorem root_ranges (hn : n < 2 ^ 15) (hpos : 0 < n) :
    (rootFacts n).node.range.within fullRange = true ∧
      (rootFacts n).node.range.intersects fullRange = true := by
  refine ⟨?_, ?_⟩
  · have hle : n ≤ 4294967295 := by omega
    simp [rootFacts, TSRange.within, fullRange, Point.lte, pointMax, hle]
  · simp [rootFacts, TSRange.intersects, fullRange, Point.lt, pointMax, hpos]

/-- The cursor before it enters the root. -/
def startCursor (n operationCount : Nat) : TSQueryCursor (Option Nat) :=
  { (new (chainQuery n) (none : Option Nat)).exec (chainQuery n) none none with operationCount }

def emptyPool : CaptureListPool := ⟨[], captureListNone, 0⟩

theorem enterRoot_chain (m : Nat) (hm : m + 1 < 2 ^ 15) (turns : Nat) :
    (startCursor (m + 1) op).advanceTurn (lineWalk (m + 1)) (turns + 11) true =
      some (chainCursor (m + 1) 0 false [chainState captureListNone captureListNone 0 0 0] emptyPool [] 0 op,
        false) := by
  obtain ⟨hwithin, hintersects⟩ := root_ranges hm (Nat.succ_pos m)
  have hcontext : ∀ c : TSQueryCursor (Option Nat), c.includedRange = fullRange → c.depth = 0 →
      c.maxStartDepth = 2 ^ 32 - 1 → c.nodeContext (rootFacts (m + 1)) = ⟨2, false, true, true, 0, 0, 0, 2 ^ 32 - 1⟩ := by
    intro c hrange hdepth hmax
    simp only [nodeContext, hrange, hdepth, hmax, hintersects]
    rfl
  have henter : (startCursor (m + 1) op).enterNode (turns + 11) true (rootFacts (m + 1)) =
      some ({ startCursor (m + 1) op with states := [chainState captureListNone captureListNone 0 0 0] }, false) := by
    unfold enterNode
    rw [hcontext _ rfl rfl rfl]
    rw [show (startCursor (m + 1) op).containingRange = fullRange from rfl, hwithin]
    rfl
  have hfacts : (lineWalk (m + 1)).facts none = rootFacts (m + 1) := rfl
  have hcursor : (startCursor (m + 1) op).cursor = none := rfl
  rw [advanceTurn, if_neg (by simp [startCursor, exec]), hcursor, hfacts, henter, Option.bind_some]
  simp only [hcursor, hfacts]
  rw [descend, hcontext _ rfl rfl rfl,
    show (startCursor (m + 1) op).containingRange = fullRange from rfl, if_pos hintersects]
  rfl

theorem updateState_chain_first (hn : 0 < n) (turns : Nat) (later : Bool) :
    (chainCursor n 0 false [chainState captureListNone captureListNone 0 0 0] emptyPool [] 0
        op).updateState (turns + 9) true (lineFacts n 0 later) 0 =
      (chainCursor n 0 false [chainState 0 captureListNone 0 0 0] (chainPool 1) [] 0
        op).finishUpdate (turns + 9) true (lineFacts n 0 later) 0 childStep 0 := by
  have hstep : (chainQuery n).steps[0 + 1]? = some childStep := steps_child hn
  unfold updateState
  simp only [chainState, chainCursor, getElem?_cons_zero, Option.bind_eq_bind, Option.bind_some]
  rw [hstep]
  cases later <;> rfl

theorem advance_chain_start (m : Nat) (hm : m + 2 < 2 ^ 15) (turns op : Nat) :
    ∃ op', advance (lineWalk (m + 2)) true (turns + 13) (startCursor (m + 2) op) false =
      advance (lineWalk (m + 2)) true (turns + 11)
        (chainCursor (m + 2) 0 true [chainState 0 captureListNone 0 0 1] (chainPool 1) [] 0 op')
        false := by
  have hnext : (chainQuery (m + 2)).steps[0 + 2]? = some childStep := steps_child (by omega)
  have hfacts : ∀ (states finished : List QueryState) (pool : CaptureListPool) (count op : Nat),
      (lineWalk (m + 2)).facts (chainCursor (m + 2) 0 false states pool finished count op).cursor =
        lineFacts (m + 2) 0 (0 + 1 < m + 2) := fun _ _ _ _ _ => rfl
  have hchild : ∀ op, (chainCursor (m + 2) 0 false [chainState captureListNone captureListNone 0 0 0]
      emptyPool [] 0 op).advanceTurn (lineWalk (m + 2)) (turns + 11) true =
        some (chainCursor (m + 2) 0 true [chainState 0 captureListNone 0 0 1] (chainPool 1) [] 0 op,
          false) := by
    intro op
    have hupdate : updateStates true (lineFacts (m + 2) 0 (0 + 1 < m + 2)) (turns + 11)
        (chainCursor (m + 2) 0 false [chainState captureListNone captureListNone 0 0 0] emptyPool [] 0
          op) 0 false =
        some (chainCursor (m + 2) 0 false [chainState 0 captureListNone 0 0 1] (chainPool 1) [] 0 op,
          false) := by
      rw [updateStates, if_pos (by simp [chainCursor]), updateState_chain_first (by omega) (turns + 1),
        finishUpdate_chain (by omega) (turns + 1) _ hnext rfl]
      rfl
    rw [advanceTurn, if_neg (by simp [chainCursor]), hfacts, enterNode_chain hm (by omega), hupdate,
      Option.bind_some]
    simp only
    rw [dedupStates_chain turns _ hnext (by decide), Option.bind_some]
    simp only [hfacts, descend_chain hm (show 0 < m + 2 by omega), Option.map_some]
  obtain ⟨op₁, hop₁⟩ : ∃ op', (startCursor (m + 2) op).countOperation = startCursor (m + 2) op' := ⟨_, rfl⟩
  obtain ⟨op₂, hop₂⟩ := countOperation_chain (m + 2) 0 op₁ false
    [chainState captureListNone captureListNone 0 0 0] emptyPool
  refine ⟨op₂, ?_⟩
  rw [advance_step (turns + 12) true rfl rfl, hop₁, enterRoot_chain (m + 1) hm (turns + 1),
    Option.bind_some]
  simp only
  rw [advance_step (turns + 11) true rfl rfl, hop₂, hchild, Option.bind_some]

/-- The cursor with the match finished, under this number, and so many captures consumed. -/
def matchCursor (n id nextStateId count finishedStatesHeapSize op : Nat) : TSQueryCursor (Option Nat) :=
  { chainCursor n (n - 1) true [] (chainPool n) [{ chainState 0 0 0 count n with id }] 1 op with
    nextStateId, finishedStatesHeapSize }

variable {count : Nat}

theorem nextCaptureOf_chain {id : Nat} (h : count < n) :
    nextCaptureOf (chainPool n) { chainState 0 0 0 count n with id } = some ⟨byteNode count, 0⟩ := by
  show (lineCaptures n)[count]? = _
  simp [lineCaptures, h]

theorem isConsumed_chain {id : Nat} (h : count < n) :
    isConsumed (chainPool n) { chainState 0 0 0 count n with id } = false := by
  show decide (count ≥ (lineCaptures n).length) = false
  simp [lineCaptures, h]

theorem inside_line (hn : n < 2 ^ 15) (h : count < n) :
    ((byteNode count).precedesRange fullRange || (byteNode count).followsRange fullRange) = false := by
  have hlt : count < 4294967295 := by omega
  simp [byteNode, QueryNode.precedesRange, QueryNode.followsRange, fullRange, Point.lte, pointMax, hlt]

/-- There is nothing to clean up before a capture inside of the range, and it comes first when no
capture is in progress. -/
theorem cleanUp_of_inside {τ : Type} {c : TSQueryCursor τ} {state : QueryState} {rest : List QueryState}
    {capture : TSQueryCapture} (hfinished : c.finishedStates = state :: rest)
    (hconsumed : isConsumed c.captureListPool state = false)
    (hcapture : nextCaptureOf c.captureListPool state = some capture)
    (hinside : (capture.node.precedesRange c.includedRange ||
      capture.node.followsRange c.includedRange) = false) (turns : Nat) :
    cleanUp (turns + 1) c = some c ∧ c.firstFinished none = some state := by
  have hclean : cleanUp (turns + 1) c = some c := by
    rw [cleanUp, hfinished]
    simp only [hconsumed, hcapture, Option.bind_some, hinside, Bool.false_eq_true, if_false]
  have hfirst : c.firstFinished none = some state := by
    rw [firstFinished, hfinished]
    simp only [hcapture, Option.bind_some, beforeFirst, if_true]
  exact ⟨hclean, hfirst⟩

theorem captureTurn_chain (hn : n < 2 ^ 15) {heapSize : Nat} (h : count < n)
    (hheap : heapSize = 0 ∨ heapSize = 1) (id nextStateId op : Nat) :
    CleanedTurn (matchCursor n id nextStateId count heapSize op) 1 none
        (matchCursor n id nextStateId count 1 op) ∧
      (matchCursor n id nextStateId count 1 op).firstFinished none =
        some { chainState 0 0 0 count n with id } ∧
      ∃ id' nextStateId' result,
        (matchCursor n id nextStateId count heapSize op).captureTurn 1 =
          some (matchCursor n id' nextStateId' ((count + 1) % 2 ^ 12) 1 op, some (result, count)) := by
  have hstart : (matchCursor n id nextStateId count heapSize op).heapifyFinishedStates.firstInProgressCapture
      1 true = some (matchCursor n id nextStateId count 1 op, none) := by
    rcases hheap with rfl | rfl <;> rfl
  obtain ⟨hclean, hfirst⟩ := cleanUp_of_inside (c := matchCursor n id nextStateId count 1 op) rfl
    (isConsumed_chain h) (nextCaptureOf_chain h) (inside_line hn h) 0
  refine ⟨⟨_, hstart, hclean⟩, hfirst, ?_⟩
  unfold captureTurn
  simp only [Option.bind_eq_bind, hstart, Option.bind_some, hclean, hfirst]
  unfold returnFinished assignId
  by_cases hid : id = captureListNone
  · simp only [chainState, hid, if_true]
    exact ⟨_, _, _, rfl⟩
  · simp only [chainState, hid, if_false]
    exact ⟨_, _, _, rfl⟩

theorem reachable_match (m : Nat) (hm : m + 2 < 2 ^ 15) :
    ∃ op, Reachable (lineWalk (m + 2)) (matchCursor (m + 2) captureListNone 0 0 0 op) := by
  obtain ⟨op₁, hstart⟩ := advance_chain_start m hm (2 * m + 3) 0
  obtain ⟨op₂, hrest⟩ := advance_chain hm m 0 op₁ 0 (by omega)
  rw [show 2 * m + 3 + 11 = 0 + 2 * m + 14 by omega, hrest] at hstart
  have hcall : (new (chainQuery (m + 2)) none).call (lineWalk (m + 2)) 0
      (.exec (chainQuery (m + 2)) none none) = some (startCursor (m + 2) 0) := rfl
  have hexec : CursorStep (lineWalk (m + 2)) (new (chainQuery (m + 2)) none) (startCursor (m + 2) 0) :=
    .call (by simp) (by simp) hcall
  exact ⟨op₂, chainQuery (m + 2), none, .tail (.single hexec) (.advance hstart)⟩

theorem reachable_captures (m : Nat) (hm : m + 2 < 2 ^ 15) : ∀ count, count < m + 2 → count < 2 ^ 12 →
    ∃ id nextStateId heapSize op, (heapSize = 0 ∨ heapSize = 1) ∧
      Reachable (lineWalk (m + 2)) (matchCursor (m + 2) id nextStateId count heapSize op) := by
  intro count
  induction count with
  | zero =>
    intro _ _
    obtain ⟨op, hreach⟩ := reachable_match m hm
    exact ⟨captureListNone, 0, 0, op, .inl rfl, hreach⟩
  | succ count ih =>
    intro hcount hlt
    obtain ⟨id, nextStateId, heapSize, op, hheap, query, cursor, hsteps⟩ := ih (by omega) (by omega)
    obtain ⟨-, -, id', nextStateId', result, hturn⟩ :=
      captureTurn_chain hm (show count < m + 2 by omega) hheap id nextStateId op
    rw [Nat.mod_eq_of_lt hlt] at hturn
    exact ⟨id', nextStateId', 1, op, .inr rfl, query, cursor, hsteps.tail (.captureTurn hturn)⟩

end Chain

/-- With 4096 captures, the counter is 0 again after the last one, and the first capture is returned
once more. -/
theorem not_capturesOnce_wrap :
    ∃ c c' state result, Reachable (lineWalk 4096) c ∧ ReturnsFinished c c' state result 4095 ∧
      c'.finishedStates.map QueryState.consumedCaptureCount = [0] ∧
      (∃ c'' state' result', ReturnsFinished c' c'' state' result' 0) ∧
      ¬ CapturesOnce (lineWalk 4096) c := by
  obtain ⟨id, nextStateId, heapSize, op, hheap, hreach⟩ :=
    reachable_captures 4094 (by omega) 4095 (by omega) (by omega)
  obtain ⟨hturn, hfirst, id', nextStateId', result, hreturn⟩ :=
    captureTurn_chain (by omega) (show 4095 < 4096 by omega) hheap id nextStateId op
  obtain ⟨hturn', hfirst', id'', nextStateId'', result', hreturn'⟩ :=
    captureTurn_chain (by omega) (show 0 < 4096 by omega) (.inr rfl) id' nextStateId' op
  have hreturns : ReturnsFinished (matchCursor 4096 id nextStateId 4095 heapSize op)
      (matchCursor 4096 id' nextStateId' 0 1 op) { chainState 0 0 0 4095 4096 with id } result 4095 :=
    ⟨1, none, _, hturn, hfirst, hreturn⟩
  refine ⟨_, _, _, _, hreach, hreturns, rfl, ⟨_, _, _, 1, none, _, hturn', hfirst', hreturn'⟩, ?_⟩
  intro honce
  obtain ⟨-, -, after, hafter, -, hcount⟩ := honce.grows _ _ _ _ hreturns
  rw [show (matchCursor 4096 id' nextStateId' 0 1 op).finishedStates =
    [{ chainState 0 0 0 0 4096 with id := id' }] from rfl, mem_singleton] at hafter
  rw [hafter] at hcount
  cases hcount

end TSQueryCursor

end TreeSitter.Lib
