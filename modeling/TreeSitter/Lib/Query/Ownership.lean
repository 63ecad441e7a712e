import TreeSitter.Lib.Query.Advance

/-!
# TreeSitter.Lib.Query.Ownership

Who **owns** the capture lists: every list in use is the list of exactly one state, in progress or
finished, and the pool counts the lists that are not in use (`Owned`).

Everything that `ts_query_cursor__advance` does with the states is a `Move`: it keeps the
ownership, adds finished states only at the end, and leaves alone the lists of the states that
are finished already. Moves compose, so that each function is taken apart into the few steps that
acquire, fill, hand over or release a list.
-/

namespace TreeSitter.Lib

open List

namespace CaptureListPool

variable {self : CaptureListPool} {limit : Nat} {ids : List Nat}

def usedIds (self : CaptureListPool) : List Nat :=
  (List.range self.list.length).filter fun i => self.list[i]?.any CaptureList.inUse

variable {i : Nat}

theorem mem_usedIds : i ∈ self.usedIds ↔ self.list[i]?.any CaptureList.inUse = true := by
  simp only [usedIds, mem_filter, mem_range, and_iff_right_iff_imp]
  intro h
  by_contra hlt
  rw [getElem?_eq_none (not_lt.1 hlt)] at h
  cases h

theorem nodup_usedIds : self.usedIds.Nodup := nodup_range.filter _

theorem lt_of_mem_usedIds (h : i ∈ self.usedIds) : i < self.list.length :=
  mem_range.1 (mem_of_mem_filter h)

theorem length_filter_range {α : Type*} (p : α → Bool) (xs : List α) :
    ((List.range xs.length).filter fun i => xs[i]?.any p).length = xs.countP p := by
  induction xs with
  | nil => rfl
  | cons x xs ih =>
    rw [length_cons, range_succ_eq_map, filter_cons, filter_map, countP_cons, ← ih]
    cases h : p x <;> simp [Function.comp_def, h]

theorem countP_add_length_usedIds :
    self.list.countP (fun list => !list.inUse) + self.usedIds.length = self.list.length := by
  rw [usedIds, length_filter_range, length_eq_countP_add_countP CaptureList.inUse, Nat.add_comm]
  simp

theorem usedIds_congr {pool : CaptureListPool}
    (h : ∀ i : Nat, pool.list[i]?.any CaptureList.inUse = self.list[i]?.any CaptureList.inUse) :
    pool.usedIds.Perm self.usedIds := by
  rw [perm_ext_iff_of_nodup nodup_usedIds nodup_usedIds]
  intro i
  rw [mem_usedIds, mem_usedIds, h]

/-- These are the lists of all states (`captureListNone` for a state without one): each list in use
is there exactly once, and the pool's count and size are right. -/
structure Owned (limit : Nat) (pool : CaptureListPool) (ids : List Nat) : Prop where
  owners : (ids.filter (· ≠ captureListNone)).Perm pool.usedIds
  free : pool.freeCaptureListCount = pool.list.countP fun list => !list.inUse
  lists : pool.list.length ≤ limit
  max : pool.maxCaptureListCount ≤ limit
  fits : limit ≤ captureListNone

theorem Owned.of_perm {ids' : List Nat} (h : Owned limit self ids) (hperm : ids.Perm ids') :
    Owned limit self ids' :=
  { h with owners := (hperm.symm.filter _).trans h.owners }

variable {id : Nat}

theorem Owned.mem_usedIds (h : Owned limit self ids) (hid : id ∈ ids) (hne : id ≠ captureListNone) :
    id ∈ self.usedIds :=
  h.owners.subset (mem_filter.2 ⟨hid, by simpa using hne⟩)

theorem Owned.cons_none (h : Owned limit self ids) : Owned limit self (captureListNone :: ids) :=
  { h with owners := by simpa using h.owners }

theorem Owned.of_cons_none (h : Owned limit self (captureListNone :: ids)) : Owned limit self ids :=
  { h with owners := by simpa using h.owners }

theorem Owned.not_mem (h : Owned limit self (id :: ids)) (hne : id ≠ captureListNone) :
    id ∉ ids := by
  intro hmem
  have hnodup := h.owners.nodup_iff.2 nodup_usedIds
  rw [filter_cons_of_pos (by simpa using hne), nodup_cons] at hnodup
  exact hnodup.1 (mem_filter.2 ⟨hmem, by simpa using hne⟩)

/-- The states with a list and the lists that are not in use are all lists. -/
theorem Owned.count (h : Owned limit self ids) :
    self.freeCaptureListCount + (ids.filter (· ≠ captureListNone)).length = self.list.length := by
  rw [h.free, h.owners.length_eq, countP_add_length_usedIds]

theorem owned_of_count (howners : (ids.filter (· ≠ captureListNone)).Perm self.usedIds)
    (hcount : self.freeCaptureListCount + (ids.filter (· ≠ captureListNone)).length = self.list.length)
    (hlists : self.list.length ≤ limit) (hmax : self.maxCaptureListCount ≤ limit)
    (hfits : limit ≤ captureListNone) : Owned limit self ids := by
  refine ⟨howners, ?_, hlists, hmax, hfits⟩
  have := self.countP_add_length_usedIds
  rw [howners.length_eq] at hcount
  omega

/-! ### The operations of the pool -/

theorem release_none (h : self.list.length ≤ captureListNone) : self.release captureListNone = self :=
  if_pos h

theorem getElem?_release (hid : id ≠ i) : (self.release i).list[id]? = self.list[id]? := by
  unfold release
  split
  · rfl
  · exact getElem?_modify_ne _ _ (Ne.symm hid)

theorem Owned.release (h : Owned limit self (id :: ids)) :
    Owned limit (self.release id) ids := by
  by_cases hne : id = captureListNone
  · subst hne
    rw [release_none (h.lists.trans h.fits)]
    exact h.of_cons_none
  · have hlt := lt_of_mem_usedIds (h.mem_usedIds (by simp) hne)
    have hpool : self.release id = { self with
        list := self.list.modify id fun list => { list with inUse := false }
        freeCaptureListCount := self.freeCaptureListCount + 1 } := if_neg (by omega)
    have howners := h.owners
    have hcount := h.count
    rw [filter_cons_of_pos (by simpa using hne)] at howners hcount
    refine owned_of_count ?_ ?_ ?_ ?_ h.fits
    · have herase := howners.erase id
      rw [erase_cons_head] at herase
      refine herase.trans ?_
      rw [perm_ext_iff_of_nodup (nodup_usedIds.erase _) nodup_usedIds]
      intro i
      rw [nodup_usedIds.mem_erase_iff, CaptureListPool.mem_usedIds, CaptureListPool.mem_usedIds]
      by_cases hi : i = id
      · subst hi
        rw [hpool]
        simp only [getElem?_modify_eq]
        cases self.list[i]? <;> simp
      · rw [getElem?_release hi]
        simp [hi]
    · rw [length_cons] at hcount
      rw [hpool]
      simp only [length_modify]
      omega
    · rw [hpool]
      simpa using h.lists
    · rw [hpool]
      exact h.max

/-- What acquiring a list does: a list that was not in use, and was empty or is cleared, is in
use. -/
theorem acquire_cases (h : Owned limit self ids) :
    (self.acquire = (self, captureListNone)) ∨
      ∃ id pool, self.acquire = (pool, id) ∧ id ≠ captureListNone ∧ id ∉ self.usedIds ∧
        pool.list[id]? = some ⟨[], true⟩ ∧ (∀ i : Nat, i ≠ id → pool.list[i]? = self.list[i]?) ∧
        Owned limit pool (id :: ids) := by
  have hcount := h.count
  unfold acquire
  cases hfree : self.findFree with
  | some id =>
    refine .inr ⟨id, _, rfl, ?_⟩
    unfold findFree at hfree
    split at hfree
    case isFalse => cases hfree
    case isTrue hpos =>
      obtain ⟨hlt, hunused, -⟩ := findIdx?_eq_some_iff_getElem.1 hfree
      have hnone : id ≠ captureListNone := by
        have := h.lists
        have := h.fits
        omega
      have hnot : id ∉ self.usedIds := by
        rw [CaptureListPool.mem_usedIds, getElem?_eq_getElem hlt]
        simpa using hunused
      refine ⟨hnone, hnot, by simp [hlt], fun i hi => getElem?_set_ne (Ne.symm hi), ?_⟩
      refine owned_of_count ?_ ?_ (by simpa using h.lists) h.max h.fits
      · rw [filter_cons_of_pos (by simpa using hnone)]
        refine (h.owners.cons id).trans ?_
        rw [perm_ext_iff_of_nodup (nodup_cons.2 ⟨hnot, nodup_usedIds⟩) nodup_usedIds]
        intro i
        rw [mem_cons, CaptureListPool.mem_usedIds, CaptureListPool.mem_usedIds]
        by_cases hi : i = id
        · subst hi
          simp [hlt]
        · simp [hi, getElem?_set_ne (Ne.symm hi)]
      · rw [filter_cons_of_pos (by simpa using hnone)]
        simp only [length_set, length_cons]
        omega
  | none =>
    by_cases hfull : self.list.length ≥ self.maxCaptureListCount
    · exact .inl (by simp [hfull])
    · refine .inr ⟨self.list.length, { self with list := self.list ++ [⟨[], true⟩] },
        by simp [hfull], ?_⟩
      have hnone : self.list.length ≠ captureListNone := by
        have := h.max
        have := h.fits
        omega
      have hnot : self.list.length ∉ self.usedIds := fun hmem => lt_irrefl _ (lt_of_mem_usedIds hmem)
      refine ⟨hnone, hnot, by simp, fun i hi => ?_, ?_⟩
      · rcases Nat.lt_or_gt_of_ne hi with hlt | hgt
        · exact getElem?_append_left hlt
        · rw [getElem?_eq_none (by simp; omega), getElem?_eq_none (by omega)]
      · refine owned_of_count ?_ ?_ ?_ h.max h.fits
        · rw [filter_cons_of_pos (by simpa using hnone)]
          refine (h.owners.cons _).trans ?_
          rw [perm_ext_iff_of_nodup (nodup_cons.2 ⟨hnot, nodup_usedIds⟩) nodup_usedIds]
          intro i
          rw [mem_cons, CaptureListPool.mem_usedIds, CaptureListPool.mem_usedIds]
          rcases Nat.lt_trichotomy i self.list.length with hlt | rfl | hgt
          · simp [getElem?_append_left hlt, hlt.ne]
          · simp
          · rw [getElem?_eq_none (by omega), getElem?_eq_none (by simp; omega)]
            simp [hgt.ne']
        · rw [filter_cons_of_pos (by simpa using hnone)]
          simp only [length_append, length_cons, length_nil]
          omega
        · have := h.max
          simp only [length_append, length_cons, length_nil]
          omega

theorem Owned.modify (h : Owned limit self ids) (hid : id ∈ self.usedIds)
    {f : CaptureList → CaptureList} (hf : ∀ list, list.inUse = true → (f list).inUse = true) :
    Owned limit { self with list := self.list.modify id f } ids := by
  have hsame : ∀ i : Nat, (self.list.modify id f)[i]?.any CaptureList.inUse =
      self.list[i]?.any CaptureList.inUse := by
    intro i
    by_cases hi : i = id
    · subst hi
      have hused := CaptureListPool.mem_usedIds.1 hid
      cases hget : self.list[i]? with
      | none => simp [hget] at hused
      | some list =>
        rw [hget] at hused
        have hinUse : list.inUse = true := by simpa using hused
        simp [hget, hf list hinUse, hinUse]
    · rw [getElem?_modify_ne _ _ (Ne.symm hi)]
  refine owned_of_count (h.owners.trans (usedIds_congr hsame).symm) ?_ ?_ h.max h.fits
  · rw [length_modify]
    exact h.count
  · rw [length_modify]
    exact h.lists

theorem Owned.clear (h : Owned limit self ids) (hid : id ∈ self.usedIds) :
    Owned limit (self.clear id) ids := h.modify hid fun _ _ => rfl

theorem Owned.push (h : Owned limit self ids) (hid : id ∈ self.usedIds)
    (captures : List TSQueryCapture) : Owned limit (self.push id captures) ids :=
  h.modify hid fun _ h => h

theorem get_congr {pool : CaptureListPool} (h : ∀ j : Nat, j ≠ i → pool.list[j]? = self.list[j]?)
    (hid : id ≠ i) :
    pool.get id = self.get id := by
  rw [get, get, h id hid]

theorem get_release (hid : id ≠ i) : (self.release i).get id = self.get id :=
  get_congr (fun _ hj => getElem?_release hj) hid

theorem Owned.get_release (h : Owned limit self (i :: ids)) (hid : id ∈ ids) :
    (self.release i).get id = self.get id := by
  by_cases hne : i = captureListNone
  · rw [hne, release_none (h.lists.trans h.fits)]
  · exact CaptureListPool.get_release fun heq => h.not_mem hne (heq ▸ hid)

theorem get_clear (hid : id ≠ i) : (self.clear i).get id = self.get id :=
  get_congr (fun _ hj => getElem?_modify_ne _ _ (Ne.symm hj)) hid

theorem get_push (hid : id ≠ i) (captures : List TSQueryCapture) :
    (self.push i captures).get id = self.get id :=
  get_congr (fun _ hj => getElem?_modify_ne _ _ (Ne.symm hj)) hid

end CaptureListPool

namespace TSQueryCursor

variable {τ : Type} {limit : Nat} {c c' c'' : TSQueryCursor τ}

open CaptureListPool (Owned)

/-- The lists of the states in progress and of the finished ones. -/
def listIds (c : TSQueryCursor τ) : List Nat :=
  (c.states ++ c.finishedStates).map QueryState.captureListId

/-- A state that is dead, or waits for its parent, has no list. -/
def Spare (states : List QueryState) : Prop :=
  ∀ state ∈ states, state.dead = true ∨ state.needsParent = true →
    state.captureListId = captureListNone

/-- The invariant of the cursor: every list in use has exactly one owner. -/
structure ListsOwned (limit : Nat) (c : TSQueryCursor τ) : Prop where
  owned : Owned limit c.captureListPool c.listIds
  spare : Spare c.states

/-- The sequence number after a given one. -/
def nextOrder (order : Nat) : Nat := (order + 1) % 2 ^ 32

/-- What the work on the states in progress leaves alone: finished states are added at the end, in
order, and the lists of the others stay as they are. -/
structure Adds (c c' : TSQueryCursor τ) : Prop where
  finished : ∃ added, c'.finishedStates = c.finishedStates ++ added ∧
    added.map QueryState.heapInsertOrder =
      (List.range added.length).map (fun i => nextOrder^[i] c.nextFinishedStateId) ∧
    added.map QueryState.discovery = List.range' c.finishedCount added.length ∧
    c'.nextFinishedStateId = nextOrder^[added.length] c.nextFinishedStateId ∧
    c'.finishedCount = c.finishedCount + added.length
  heapSize : c'.finishedStatesHeapSize = c.finishedStatesHeapSize
  lists : ∀ state ∈ c.finishedStates,
    c'.captureListPool.get state.captureListId = c.captureListPool.get state.captureListId
  range : c'.includedRange = c.includedRange

theorem adds_none (hfinished : c'.finishedStates = c.finishedStates)
    (hnext : c'.nextFinishedStateId = c.nextFinishedStateId)
    (hcount : c'.finishedCount = c.finishedCount)
    (hheap : c'.finishedStatesHeapSize = c.finishedStatesHeapSize)
    (hrange : c'.includedRange = c.includedRange)
    (hlists : ∀ state ∈ c.finishedStates,
      c'.captureListPool.get state.captureListId = c.captureListPool.get state.captureListId) :
    Adds c c' :=
  ⟨⟨[], by simp [hfinished], rfl, rfl, hnext, hcount⟩, hheap, hlists, hrange⟩

theorem Adds.refl (c : TSQueryCursor τ) : Adds c c := adds_none rfl rfl rfl rfl rfl fun _ _ => rfl

theorem Adds.trans (h : Adds c c') (h' : Adds c' c'') : Adds c c'' := by
  obtain ⟨added, hfinished, horders, hdiscovery, hnext, hcount⟩ := h.finished
  obtain ⟨added', hfinished', horders', hdiscovery', hnext', hcount'⟩ := h'.finished
  refine ⟨⟨added ++ added', ?_, ?_, ?_, ?_, ?_⟩, h'.heapSize.trans h.heapSize, ?_,
    h'.range.trans h.range⟩
  · rw [hfinished', hfinished, append_assoc]
  · rw [map_append, horders, horders', length_append, range_add, map_append, map_map, hnext]
    congr 2
    funext i
    rw [Function.comp_apply, ← Function.iterate_add_apply, Nat.add_comm]
  · rw [map_append, hdiscovery, hdiscovery', hcount, length_append, range'_append_1]
  · rw [hnext', hnext, ← Function.iterate_add_apply, length_append, Nat.add_comm]
  · rw [hcount', hcount, length_append, Nat.add_assoc]
  · intro state hstate
    rw [h'.lists state (by rw [hfinished]; exact mem_append_left _ hstate), h.lists state hstate]

theorem adds_pushFinishedState (c : TSQueryCursor τ) (state : QueryState) (states : List QueryState) :
    Adds c { c.pushFinishedState state with states } :=
  ⟨⟨[{ state with heapInsertOrder := c.nextFinishedStateId, discovery := c.finishedCount }], rfl, rfl,
    rfl, rfl, rfl⟩, rfl, fun _ _ => rfl, rfl⟩

/-- A step of the work on the states in progress. -/
def Move (limit : Nat) (c c' : TSQueryCursor τ) : Prop :=
  ListsOwned limit c → ListsOwned limit c' ∧ Adds c c'

theorem Move.refl (c : TSQueryCursor τ) : Move limit c c := fun h => ⟨h, .refl c⟩

theorem Move.trans (h : Move limit c c') (h' : Move limit c' c'') : Move limit c c'' := by
  intro howned
  obtain ⟨howned', hadds⟩ := h howned
  obtain ⟨howned'', hadds'⟩ := h' howned'
  exact ⟨howned'', hadds.trans hadds'⟩

/-! ### Steps that keep the lists -/

/-- The same list, and the same reasons to have none. -/
def SameOwner (state state' : QueryState) : Prop :=
  state'.captureListId = state.captureListId ∧ state'.dead = state.dead ∧
    state'.needsParent = state.needsParent

theorem move_of_states (hpool : c'.captureListPool = c.captureListPool)
    (hfinished : c'.finishedStates = c.finishedStates)
    (hheap : c'.finishedStatesHeapSize = c.finishedStatesHeapSize)
    (hnext : c'.nextFinishedStateId = c.nextFinishedStateId)
    (hcount : c'.finishedCount = c.finishedCount) (hrange : c'.includedRange = c.includedRange)
    (hids : (c'.states.map QueryState.captureListId).Perm (c.states.map QueryState.captureListId))
    (hspare : Spare c.states → Spare c'.states) : Move limit c c' := by
  intro h
  refine ⟨⟨?_, hspare h.spare⟩, adds_none hfinished hnext hcount hheap hrange ?_⟩
  · rw [hpool]
    refine h.owned.of_perm ?_
    rw [listIds, listIds, map_append, map_append, hfinished]
    exact hids.symm.append_right _
  · intro state _
    rw [hpool]

theorem move_of_same (hpool : c'.captureListPool = c.captureListPool)
    (hfinished : c'.finishedStates = c.finishedStates)
    (hheap : c'.finishedStatesHeapSize = c.finishedStatesHeapSize)
    (hnext : c'.nextFinishedStateId = c.nextFinishedStateId)
    (hcount : c'.finishedCount = c.finishedCount) (hrange : c'.includedRange = c.includedRange)
    (hstates : c'.states = c.states) : Move limit c c' :=
  move_of_states hpool hfinished hheap hnext hcount hrange (by rw [hstates]) (by rw [hstates]; exact id)

variable {states : List QueryState}

theorem map_captureListId_of_forall₂ {states' : List QueryState}
    (h : List.Forall₂ SameOwner states states') :
    states'.map QueryState.captureListId = states.map QueryState.captureListId := by
  induction h with
  | nil => rfl
  | cons hstate _ ih => simp [ih, hstate.1]

theorem Spare.of_forall₂ {states' : List QueryState} (h : List.Forall₂ SameOwner states states')
    (hspare : Spare states) : Spare states' := by
  induction h with
  | nil => exact hspare
  | cons hstate _ ih =>
    obtain ⟨hid, hdead, hparent⟩ := hstate
    intro state hmem hreason
    rcases mem_cons.1 hmem with rfl | hmem
    · rw [hid]
      exact hspare _ (by simp) (by rwa [← hdead, ← hparent])
    · exact ih (fun s hs => hspare s (by simp [hs])) state hmem hreason

theorem forall₂_sameOwner_refl (states : List QueryState) : List.Forall₂ SameOwner states states :=
  forall₂_same.2 fun _ _ => ⟨rfl, rfl, rfl⟩

variable {f : QueryState → QueryState}

theorem forall₂_modify (hf : ∀ state, SameOwner state (f state)) :
    ∀ (states : List QueryState) (index : Nat),
    List.Forall₂ SameOwner states (states.modify index f) := by
  intro states
  induction states with
  | nil =>
    intro index
    simp
  | cons state states ih =>
    intro index
    cases index with
    | zero => exact .cons (hf state) (forall₂_sameOwner_refl states)
    | succ index => exact .cons ⟨rfl, rfl, rfl⟩ (ih index)

theorem move_modifyState (c : TSQueryCursor τ) (index : Nat)
    (hf : ∀ state, SameOwner state (f state)) : Move limit c (c.modifyState index f) :=
  move_of_states rfl rfl rfl rfl rfl rfl
    (.of_eq (map_captureListId_of_forall₂ (forall₂_modify hf c.states index)))
    (Spare.of_forall₂ (forall₂_modify hf c.states index))

/-! ### The first capture in progress -/

variable {pool : CaptureListPool}

theorem skipPreceding_sameOwner {range : TSRange} :
    ∀ {turns : Nat} {state state' : QueryState},
    skipPreceding pool range turns state = some state' → SameOwner state state' := by
  intro turns
  induction turns with
  | zero =>
    intro state state' h
    cases h
  | succ turns ih =>
    intro state state' h
    rw [skipPreceding] at h
    split at h
    · cases h
      exact ⟨rfl, rfl, rfl⟩
    · obtain ⟨capture, -, h⟩ := Option.bind_eq_some_iff.1 h
      split at h
      · have hsame := ih h
        exact hsame
      · cases h
        exact ⟨rfl, rfl, rfl⟩

variable {state : QueryState}

theorem captureListId_ne_none (hfits : pool.list.length ≤ captureListNone)
    {capture : TSQueryCapture} (h : nextCaptureOf pool state = some capture) :
    state.captureListId ≠ captureListNone := by
  intro hid
  rw [nextCaptureOf, hid, CaptureListPool.get, getElem?_eq_none hfits] at h
  simp at h

variable {index turns : Nat} {wantsDefinite : Bool}

section

variable (hfits : c.captureListPool.list.length ≤ captureListNone)

include hfits

theorem firstInProgressTurn_spec {state' : QueryState} {first first' : Option FirstCapture}
    (h : c.firstInProgressTurn turns wantsDefinite index state first = some (state', first')) :
    SameOwner state state' ∧ (first' = first ∨
      (∃ f, first' = some f ∧ f.stateIndex = index) ∧ state'.captureListId ≠ captureListNone) := by
  unfold firstInProgressTurn at h
  split at h
  · cases h
    exact ⟨⟨rfl, rfl, rfl⟩, .inl rfl⟩
  · obtain ⟨skipped, hskipped, h⟩ := Option.bind_eq_some_iff.1 h
    have hsame := skipPreceding_sameOwner hskipped
    split at h
    · cases h
      exact ⟨hsame, .inl rfl⟩
    · obtain ⟨capture, hcapture, h⟩ := Option.bind_eq_some_iff.1 h
      split at h
      · obtain ⟨step, -, h⟩ := Option.map_eq_some_iff.1 h
        split at h
        · cases h
          exact ⟨hsame, .inr ⟨⟨_, rfl, rfl⟩, captureListId_ne_none hfits hcapture⟩⟩
        · split at h
          · cases h
            exact ⟨hsame, .inl rfl⟩
          · cases h
            exact ⟨hsame, .inr ⟨⟨_, rfl, rfl⟩, captureListId_ne_none hfits hcapture⟩⟩
      · cases h
        exact ⟨hsame, .inl rfl⟩

theorem firstInProgressLoop_spec : ∀ {states : List QueryState} {index : Nat}
    {first : Option FirstCapture} {states' : List QueryState} {first' : Option FirstCapture},
    c.firstInProgressLoop turns wantsDefinite states index first = some (states', first') →
    List.Forall₂ SameOwner states states' ∧ (first' = first ∨ ∃ f i state, first' = some f ∧
      f.stateIndex = index + i ∧ states'[i]? = some state ∧
      state.captureListId ≠ captureListNone) := by
  intro states
  induction states with
  | nil =>
    intro index first states' first' h
    cases h
    exact ⟨.nil, .inl rfl⟩
  | cons state states ih =>
    intro index first states' first' h
    obtain ⟨⟨state', mid⟩, hturn, h⟩ := Option.bind_eq_some_iff.1 h
    obtain ⟨⟨rest, last⟩, hrest, h⟩ := Option.map_eq_some_iff.1 h
    cases h
    obtain ⟨hsame, hfound⟩ := firstInProgressTurn_spec hfits hturn
    obtain ⟨hrestSame, hrestFound⟩ := ih hrest
    refine ⟨.cons hsame hrestSame, ?_⟩
    rcases hrestFound with hlast | ⟨f, i, s, hf, hindex, hget, hne⟩
    · rcases hfound with hmid | ⟨⟨f, hf, hindex⟩, hne⟩
      · exact .inl (hlast.trans hmid)
      · exact .inr ⟨f, 0, state', hlast.trans hf, by simpa using hindex, rfl, hne⟩
    · exact .inr ⟨f, i + 1, s, hf, by omega, hget, hne⟩

theorem firstInProgressCapture_spec {first : Option FirstCapture}
    (h : c.firstInProgressCapture turns wantsDefinite = some (c', first)) :
    (∃ states, c' = { c with states } ∧ List.Forall₂ SameOwner c.states states) ∧
      ∀ f, first = some f → ∃ state, c'.states[f.stateIndex]? = some state ∧
        state.captureListId ≠ captureListNone := by
  obtain ⟨⟨states, first'⟩, hloop, h⟩ := Option.map_eq_some_iff.1 h
  cases h
  obtain ⟨hsame, hfound⟩ := firstInProgressLoop_spec hfits hloop
  refine ⟨⟨states, rfl, hsame⟩, ?_⟩
  intro f hf
  rcases hfound with hnone | ⟨g, i, state, hg, hindex, hget, hne⟩
  · rw [hnone] at hf
    cases hf
  · rw [hg] at hf
    cases hf
    exact ⟨state, by rw [hindex, Nat.zero_add]; exact hget, hne⟩

end

/-! ### A list for a state -/

theorem states_split (h : c.states[index]? = some state) :
    c.states = c.states.take index ++ state :: c.states.drop (index + 1) := by
  obtain ⟨hlt, rfl⟩ := List.getElem?_eq_some_iff.1 h
  rw [List.getElem_cons_drop hlt, List.take_append_drop]

theorem listIds_perm (h : c.states[index]? = some state) :
    c.listIds.Perm (state.captureListId ::
      (c.states.take index ++ c.states.drop (index + 1) ++ c.finishedStates).map
        QueryState.captureListId) := by
  have hsplit := states_split h
  rw [listIds, hsplit]
  simp only [map_append, map_cons, append_assoc, cons_append]
  rw [← hsplit]
  exact perm_middle

theorem captureListId_ne_finished (h : ListsOwned limit c) (hget : c.states[index]? = some state)
    (hne : state.captureListId ≠ captureListNone) :
    ∀ s ∈ c.finishedStates, s.captureListId ≠ state.captureListId := by
  intro s hs heq
  have hnot := (h.owned.of_perm (listIds_perm hget)).not_mem hne
  exact hnot (heq ▸ mem_map_of_mem (mem_append_right _ hs))

/-- What a cursor has after a list was prepared: the list belongs to no state yet. -/
structure Prepared (limit : Nat) (c c' : TSQueryCursor τ) (id : Nat) : Prop where
  owned : Owned limit c'.captureListPool (id :: c'.listIds)
  spare : Spare c'.states
  adds : Adds c c'

variable {id : Nat}

theorem stealList_prepared (h : ListsOwned limit c) {stateIndex : Nat}
    (hsteal : c.stealList stateIndex = some (c', id)) : Prepared limit c c' id := by
  obtain ⟨other, hother, hsteal⟩ := Option.map_eq_some_iff.1 hsteal
  cases hsteal
  have hlt := (List.getElem?_eq_some_iff.1 hother).1
  have hset : c.states.set stateIndex { other with captureListId := captureListNone, dead := true } =
      c.states.take stateIndex ++ { other with captureListId := captureListNone, dead := true } ::
        c.states.drop (stateIndex + 1) := set_eq_take_append_cons_drop.trans (if_pos hlt)
  have hperm := listIds_perm hother
  have howned := h.owned.of_perm hperm
  refine ⟨?_, ?_, ?_⟩
  · have hids : (other.captureListId :: listIds { c with
        states := c.states.set stateIndex { other with captureListId := captureListNone, dead := true }
        captureListPool := c.captureListPool.clear other.captureListId }).Perm
        (captureListNone :: c.listIds) := by
      refine List.Perm.trans (List.Perm.cons _ ?_) ((hperm.cons _).trans (List.Perm.swap _ _ _)).symm
      rw [listIds]
      simp only [hset, map_append, map_cons, append_assoc, cons_append]
      exact perm_middle
    refine Owned.of_perm ?_ hids.symm
    by_cases hne : other.captureListId = captureListNone
    · have hclear : c.captureListPool.clear other.captureListId = c.captureListPool := by
        rw [CaptureListPool.clear, modify_eq_self (by rw [hne]; exact h.owned.lists.trans h.owned.fits)]
      rw [hclear]
      exact h.owned.cons_none
    · exact (h.owned.cons_none).clear (howned.mem_usedIds (by simp) hne)
  · intro state hstate hreason
    rw [hset] at hstate
    rcases mem_append.1 hstate with hstate | hstate
    · exact h.spare state (mem_of_mem_take hstate) hreason
    · rcases mem_cons.1 hstate with rfl | hstate
      · rfl
      · exact h.spare state (mem_of_mem_drop hstate) hreason
  · refine adds_none rfl rfl rfl rfl rfl ?_
    intro state hstate
    by_cases hne : other.captureListId = captureListNone
    · show (c.captureListPool.clear _).get _ = _
      rw [CaptureListPool.clear, modify_eq_self (by rw [hne]; exact h.owned.lists.trans h.owned.fits)]
    · exact CaptureListPool.get_clear (captureListId_ne_finished h hother hne state hstate)

/-- The states that a preparation cannot touch: those without a list, and the one to preserve. -/
def Untouched (preserve : Nat) (c c' : TSQueryCursor τ) : Prop :=
  ∀ (i : Nat) (state : QueryState), c.states[i]? = some state →
    state.captureListId = captureListNone ∨ i = preserve →
    ∃ state', c'.states[i]? = some state' ∧ SameOwner state state'

theorem acquire_prepared (h : ListsOwned limit c) (hne : id ≠ captureListNone)
    (hnot : id ∉ c.captureListPool.usedIds)
    (hsame : ∀ i : Nat, i ≠ id → pool.list[i]? = c.captureListPool.list[i]?)
    (howned : Owned limit pool (id :: c.listIds)) :
    Prepared limit c { c with captureListPool := pool } id := by
  refine ⟨howned, h.spare, adds_none rfl rfl rfl rfl rfl ?_⟩
  intro state hstate
  refine CaptureListPool.get_congr hsame fun heq => ?_
  have hmem : id ∈ c.listIds := heq ▸ mem_map_of_mem (mem_append_right _ hstate)
  exact hnot (h.owned.mem_usedIds hmem hne)

theorem prepareToCapture_prepared (h : ListsOwned limit c) {preserve : Nat}
    (hprepare : c.prepareToCapture turns captureListNone preserve = some (c', id)) :
    Prepared limit c c' id ∧ Untouched preserve c c' := by
  have hfits : c.captureListPool.list.length ≤ captureListNone := h.owned.lists.trans h.owned.fits
  unfold prepareToCapture at hprepare
  rw [if_neg (by simp)] at hprepare
  rcases CaptureListPool.acquire_cases h.owned with hnone | ⟨i, pool, hacquire, hne, hnot, -, hsame, howned⟩
  · rw [hnone] at hprepare
    simp only [ne_eq, not_true_eq_false, if_false] at hprepare
    obtain ⟨⟨c₁, first⟩, hfirst, hprepare⟩ := Option.bind_eq_some_iff.1 hprepare
    obtain ⟨⟨states, rfl, hsame⟩, hfound⟩ :=
      firstInProgressCapture_spec (c := { c with didExceedMatchLimit := true }) hfits hfirst
    obtain ⟨h₁, hadds⟩ := (move_of_states rfl rfl rfl rfl rfl rfl
      (.of_eq (map_captureListId_of_forall₂ hsame)) (Spare.of_forall₂ hsame) :
        Move limit c { c with didExceedMatchLimit := true, states }) h
    have huntouched : ∀ (i : Nat) (state : QueryState), c.states[i]? = some state →
        ∃ state', states[i]? = some state' ∧ SameOwner state state' := by
      intro i state hstate
      obtain ⟨hlt, rfl⟩ := List.getElem?_eq_some_iff.1 hstate
      have hlt' : i < states.length := hsame.length_eq ▸ hlt
      exact ⟨states.get ⟨i, hlt'⟩, getElem?_eq_getElem hlt', hsame.get hlt hlt'⟩
    have hunprepared : Prepared limit c { c with didExceedMatchLimit := true, states } captureListNone :=
      ⟨h₁.owned.cons_none, h₁.spare, hadds⟩
    cases first with
    | none =>
      cases hprepare
      exact ⟨hunprepared, fun i state hstate _ => huntouched i state hstate⟩
    | some f =>
      simp only at hprepare
      split at hprepare
      · rename_i hindex
        have hsteal := stealList_prepared h₁ hprepare
        refine ⟨⟨hsteal.owned, hsteal.spare, hadds.trans hsteal.adds⟩, ?_⟩
        intro i state hstate hreason
        obtain ⟨state', hstate', howner⟩ := huntouched i state hstate
        obtain ⟨stolen, hstolen, hlist⟩ := hfound f rfl
        -- the state that loses its list has one, and is not the one to preserve
        have hne : f.stateIndex ≠ i := by
          rintro rfl
          rcases hreason with hnone | rfl
          · rw [show states[f.stateIndex]? = some stolen from hstolen] at hstate'
            cases hstate'
            exact hlist (howner.1.trans hnone)
          · exact hindex rfl
        obtain ⟨other, -, hprepare⟩ := Option.map_eq_some_iff.1 hprepare
        cases hprepare
        exact ⟨state', by simpa [getElem?_set_ne hne] using hstate', howner⟩
      · cases hprepare
        exact ⟨hunprepared, fun i state hstate _ => huntouched i state hstate⟩
  · rw [hacquire] at hprepare
    simp only [ne_eq, hne, not_false_eq_true, if_true] at hprepare
    cases hprepare
    exact ⟨acquire_prepared h hne hnot hsame howned,
      fun i state hstate _ => ⟨state, hstate, rfl, rfl, rfl⟩⟩

/-! ### Captures -/

theorem move_push (c : TSQueryCursor τ) (hget : c.states[index]? = some state)
    (hne : state.captureListId ≠ captureListNone) (captures : List TSQueryCapture) :
    Move limit c { c with
      captureListPool := c.captureListPool.push state.captureListId captures } := by
  intro h
  have hused := (h.owned.of_perm (listIds_perm hget)).mem_usedIds (by simp) hne
  refine ⟨⟨h.owned.push hused captures, h.spare⟩, adds_none rfl rfl rfl rfl rfl ?_⟩
  intro s hs
  exact CaptureListPool.get_push (captureListId_ne_finished h hget hne s hs) captures

/-- A list that was prepared becomes the list of a state without one. -/
theorem Prepared.assign (h : Prepared limit c c' id) (hget : c'.states[index]? = some state)
    (hnone : state.captureListId = captureListNone) (hdead : state.dead = false)
    (hparent : state.needsParent = false) :
    ListsOwned limit (c'.modifyState index ({ · with captureListId := id })) := by
  have hlt := (List.getElem?_eq_some_iff.1 hget).1
  have hmodify : c'.states.modify index ({ · with captureListId := id }) =
      c'.states.take index ++ { state with captureListId := id } :: c'.states.drop (index + 1) := by
    rw [modify_eq_take_cons_drop hlt]
    obtain ⟨_, rfl⟩ := List.getElem?_eq_some_iff.1 hget
    rfl
  refine ⟨?_, ?_⟩
  · have hids := (listIds_perm hget).cons id
    rw [hnone] at hids
    have howned := ((h.owned.of_perm hids).of_perm (List.Perm.swap _ _ _)).of_cons_none
    refine howned.of_perm ?_
    rw [modifyState, listIds]
    simp only [hmodify, map_append, map_cons, append_assoc, cons_append]
    exact perm_middle.symm
  · intro s hs hreason
    rw [modifyState] at hs
    simp only [hmodify] at hs
    rcases mem_append.1 hs with hs | hs
    · exact h.spare s (mem_of_mem_take hs) hreason
    · rcases mem_cons.1 hs with rfl | hs
      · simp [hdead, hparent] at hreason
      · exact h.spare s (mem_of_mem_drop hs) hreason

theorem modify_eq_of_getElem? {α : Type*} {f : α → α} {a : α} : ∀ {xs : List α} {i : Nat},
    xs[i]? = some a → f a = a → xs.modify i f = xs := by
  intro xs i hget hf
  refine ext_getElem? fun j => ?_
  by_cases hij : i = j
  · subst hij
    simp [hget, hf]
  · rw [getElem?_modify_ne _ _ hij]

theorem map_captureListId_modify (hf : ∀ state, (f state).captureListId = state.captureListId)
    (states : List QueryState) (index : Nat) :
    (states.modify index f).map QueryState.captureListId = states.map QueryState.captureListId := by
  induction states generalizing index with
  | nil => simp
  | cons state states ih =>
    cases index with
    | zero => simp [hf]
    | succ index => simp [ih]

theorem move_kill (c : TSQueryCursor τ) (hget : c.states[index]? = some state)
    (hnone : state.captureListId = captureListNone) :
    Move limit c (c.modifyState index ({ · with dead := true })) := by
  have hids := map_captureListId_modify (f := ({ · with dead := true })) (fun _ => rfl) c.states index
  refine move_of_states rfl rfl rfl rfl rfl rfl (.of_eq hids) ?_
  intro hspare s hs hreason
  obtain ⟨i, hi⟩ := mem_iff_getElem?.1 hs
  rw [modifyState] at hi
  simp only [getElem?_modify] at hi
  obtain ⟨s', hs', rfl⟩ := Option.map_eq_some_iff.1 hi
  by_cases hindex : index = i
  · subst hindex
    rw [hget] at hs'
    cases hs'
    simpa using hnone
  · simp only [hindex, if_false] at hreason ⊢
    exact hspare s' (mem_of_getElem? hs') hreason

theorem getElem?_modifyState (index : Nat) (f : QueryState → QueryState) :
    (c.modifyState index f).states[index]? = c.states[index]?.map f := by
  simp [modifyState]

/-- A state that is dead, or does not wait for its parent. -/
def Placed (c : TSQueryCursor τ) (index : Nat) : Prop :=
  ∃ state, c.states[index]? = some state ∧ (state.dead = true ∨ state.needsParent = false)

/-- `ts_query_cursor__capture`, for a state that does not wait for its parent. -/
theorem capture_move {step : QueryStep} {node : QueryNode}
    (hcapture : c.capture turns index step node = some c') (hplaced : Placed c index)
    (h : ListsOwned limit c) :
    ListsOwned limit c' ∧ Adds c c' ∧ Placed c' index := by
  obtain ⟨state, hget, hplace⟩ := hplaced
  unfold capture at hcapture
  rw [hget] at hcapture
  simp only [Option.bind_eq_bind, Option.bind_some] at hcapture
  split at hcapture
  · cases hcapture
    exact ⟨h, .refl c, state, hget, hplace⟩
  · rename_i hdead
    have hdead' : state.dead = false := by simpa using hdead
    have hparent : state.needsParent = false := by simpa [hdead'] using hplace
    obtain ⟨⟨c₁, id⟩, hprepare, hcapture⟩ := Option.map_eq_some_iff.1 hcapture
    by_cases hlist : state.captureListId = captureListNone
    · rw [hlist] at hprepare
      obtain ⟨hprepared, huntouched⟩ := prepareToCapture_prepared h hprepare
      obtain ⟨state₁, hget₁, hsame⟩ := huntouched index state hget (.inl hlist)
      have hlist₁ : state₁.captureListId = captureListNone := hsame.1.trans hlist
      by_cases hid : id = captureListNone
      · -- no list to be had: the state is dead
        simp only [hid, if_true] at hcapture
        cases hcapture
        have h₁ : ListsOwned limit c₁ := ⟨(hid ▸ hprepared.owned).of_cons_none, hprepared.spare⟩
        obtain ⟨h', hadds⟩ := move_kill c₁ hget₁ hlist₁ h₁
        refine ⟨h', hprepared.adds.trans hadds, { state₁ with dead := true }, ?_, .inl rfl⟩
        rw [getElem?_modifyState, hget₁]
        rfl
      · simp only [hid, if_false] at hcapture
        cases hcapture
        have h₂ := hprepared.assign hget₁ hlist₁ (hsame.2.1.trans hdead') (hsame.2.2.trans hparent)
        have hget₂ : (c₁.modifyState index ({ · with captureListId := id })).states[index]? =
            some { state₁ with captureListId := id } := by
          rw [getElem?_modifyState, hget₁]
          rfl
        obtain ⟨h', hadds⟩ := move_push _ hget₂ hid
          (step.captureIds.map fun captureId => ⟨node, captureId⟩) h₂
        have hadds₂ : Adds c₁ (c₁.modifyState index ({ · with captureListId := id })) :=
          adds_none rfl rfl rfl rfl rfl fun _ _ => rfl
        exact ⟨h', (hprepared.adds.trans hadds₂).trans hadds,
          { state₁ with captureListId := id }, hget₂, .inr (hsame.2.2.trans hparent)⟩
    · rw [prepareToCapture, if_pos hlist] at hprepare
      cases hprepare
      simp only [hlist, if_false] at hcapture
      cases hcapture
      have hself : c.modifyState index ({ · with captureListId := state.captureListId }) = c := by
        rw [modifyState, modify_eq_of_getElem? hget rfl]
      rw [hself]
      obtain ⟨h', hadds⟩ := move_push c hget hlist
        (step.captureIds.map fun captureId => ⟨node, captureId⟩) h
      exact ⟨h', hadds, state, hget, hplace⟩

/-! ### Copies -/

theorem listIds_insertIdx_perm (copy : QueryState) (h : index ≤ c.states.length)
    (pool : CaptureListPool) :
    (listIds { c with states := c.states.insertIdx index copy, captureListPool := pool }).Perm
      (copy.captureListId :: c.listIds) := by
  rw [listIds, listIds, ← map_cons]
  refine List.Perm.map _ ?_
  have := perm_insertIdx copy c.states h
  exact this.append_right c.finishedStates

theorem Spare.insertIdx (hspare : Spare states) (index : Nat) {copy : QueryState}
    (hcopy : copy.dead = true ∨ copy.needsParent = true → copy.captureListId = captureListNone) :
    Spare (states.insertIdx index copy) := by
  intro state hstate hreason
  rcases eq_or_mem_of_mem_insertIdx hstate with rfl | hstate
  · exact hcopy hreason
  · exact hspare state hstate hreason

theorem copyState_move {copied : Bool} (hcopy : c.copyState turns index = some (c', copied))
    (h : ListsOwned limit c) :
    ListsOwned limit c' ∧ Adds c c' ∧
      ∀ state, c.states[index]? = some state →
        ∃ state', c'.states[index]? = some state' ∧ SameOwner state state' := by
  unfold copyState at hcopy
  obtain ⟨state, hget, hcopy⟩ := Option.bind_eq_some_iff.1 hcopy
  have hlt := (List.getElem?_eq_some_iff.1 hget).1
  split at hcopy
  · rename_i hlist
    obtain ⟨⟨c₁, id⟩, hprepare, hcopy⟩ := Option.map_eq_some_iff.1 hcopy
    obtain ⟨hprepared, huntouched⟩ := prepareToCapture_prepared h hprepare
    obtain ⟨state₁, hget₁, hsame⟩ := huntouched index state hget (.inr rfl)
    have hlt₁ := (List.getElem?_eq_some_iff.1 hget₁).1
    have hkept : ∀ s, c.states[index]? = some s →
        ∃ s', c₁.states[index]? = some s' ∧ SameOwner s s' := by
      intro s hs
      rw [hget] at hs
      cases hs
      exact ⟨state₁, hget₁, hsame⟩
    by_cases hid : id = captureListNone
    · simp only [hid, if_true] at hcopy
      cases hcopy
      exact ⟨⟨(hid ▸ hprepared.owned).of_cons_none, hprepared.spare⟩, hprepared.adds, hkept⟩
    · simp only [hid, if_false] at hcopy
      cases hcopy
      have hused := hprepared.owned.mem_usedIds (by simp) hid
      refine ⟨⟨?_, ?_⟩, ?_, ?_⟩
      · exact (hprepared.owned.push hused _).of_perm
          (listIds_insertIdx_perm { state with captureListId := id } (by omega) _).symm
      · refine hprepared.spare.insertIdx _ fun hreason => ?_
        -- a state with a list is neither dead nor waits for its parent
        exact absurd (h.spare state (mem_of_getElem? hget) hreason) hlist
      · refine hprepared.adds.trans (adds_none rfl rfl rfl rfl rfl ?_)
        intro s hs
        refine CaptureListPool.get_push (fun heq => ?_) _
        exact hprepared.owned.not_mem hid (heq ▸ mem_map_of_mem (mem_append_right _ hs))
      · intro s hs
        obtain ⟨s', hs', hsame'⟩ := hkept s hs
        exact ⟨s', by simpa [getElem?_insertIdx_of_lt] using hs', hsame'⟩
  · rename_i hlist
    cases hcopy
    have hlist' : state.captureListId = captureListNone := not_not.1 hlist
    refine ⟨⟨?_, ?_⟩, adds_none rfl rfl rfl rfl rfl fun _ _ => rfl, ?_⟩
    · refine (h.owned.cons_none).of_perm ?_
      have := listIds_insertIdx_perm (c := c) state (show index + 1 ≤ _ by omega) c.captureListPool
      rw [hlist'] at this
      exact this.symm
    · exact h.spare.insertIdx _ fun _ => hlist'
    · intro s hs
      exact ⟨s, by simpa [getElem?_insertIdx_of_lt] using hs, rfl, rfl, rfl⟩

/-! ### States that go away -/

theorem listIds_eraseIdx_perm (h : c.states[index]? = some state) :
    c.listIds.Perm (state.captureListId ::
      (c.states.eraseIdx index ++ c.finishedStates).map QueryState.captureListId) := by
  rw [eraseIdx_eq_take_drop_succ]
  exact listIds_perm h

theorem Spare.eraseIdx (hspare : Spare states) (index : Nat) :
    Spare (states.eraseIdx index) := fun state hstate =>
  hspare state (mem_of_mem_eraseIdx hstate)

theorem discardState_move (hdiscard : c.discardState index = some c') :
    Move limit c c' := by
  intro h
  obtain ⟨state, hget, hdiscard⟩ := Option.map_eq_some_iff.1 hdiscard
  cases hdiscard
  have howned := h.owned.of_perm (listIds_eraseIdx_perm hget)
  refine ⟨⟨howned.release, h.spare.eraseIdx index⟩, adds_none rfl rfl rfl rfl rfl ?_⟩
  intro s hs
  exact howned.get_release (mem_map_of_mem (mem_append_right _ hs))

theorem eraseDead_move (hget : c.states[index]? = some state) (hdead : state.dead = true) :
    Move limit c { c with states := c.states.eraseIdx index } := by
  intro h
  have howned := h.owned.of_perm (listIds_eraseIdx_perm hget)
  rw [h.spare state (mem_of_getElem? hget) (.inl hdead)] at howned
  exact ⟨⟨howned.of_cons_none, h.spare.eraseIdx index⟩,
    adds_none rfl rfl rfl rfl rfl fun _ _ => rfl⟩

theorem pushFinishedState_move (hget : c.states[index]? = some state) :
    Move limit c { c.pushFinishedState state with states := c.states.eraseIdx index } := by
  intro h
  refine ⟨⟨?_, h.spare.eraseIdx index⟩, adds_pushFinishedState c state _⟩
  refine h.owned.of_perm ((listIds_eraseIdx_perm hget).trans ?_)
  rw [listIds, pushFinishedState]
  simp only [← append_assoc, map_append, map_cons, map_nil]
  exact (perm_append_singleton _ _).symm

end TSQueryCursor

end TreeSitter.Lib
