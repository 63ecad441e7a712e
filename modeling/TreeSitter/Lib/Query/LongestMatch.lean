import TreeSitter.Lib.Query.CallsOwned
import TreeSitter.Lib.Query.CompareCaptures

/-!
# TreeSitter.Lib.Query.LongestMatch

The **early exit** of the pass over the states in progress that keeps the longest matches. The
states of a group are sorted by where their captures begin, and a state is compared with those
behind it up to the first one whose captures begin where its last capture ends. That the rest
has nothing in common with the state is true but for an empty node: if the last capture of a
state is one, other captures that begin there may contain it (`earlyExit_iff`). All of this is about
the places where the pass stops (`StopsIn`); elsewhere it compares what there is.

The pass is compared with the one that compares every pair (`dedupStatesUntil`, whose first
argument tells when to stop).
-/

namespace TreeSitter.Lib

open Option List

/-! ### States and their captures -/

/-- A state in progress, of what the pass compares. -/
structure CapturedState where
  startDepth : Nat
  patternIndex : Nat
  captures : List TSQueryCapture
deriving DecidableEq

namespace CapturedState

def SameGroup (s o : CapturedState) : Prop :=
  o.startDepth = s.startDepth ∧ o.patternIndex = s.patternIndex

/-- Neither state has captures that are contained in those of the other. -/
def Apart (s o : CapturedState) : Prop :=
  ¬ ContainsCaptures s.captures o.captures ∧ ¬ ContainsCaptures o.captures s.captures

/-- `ts_query_cursor__state_precedes`. -/
def precedes (a b : CapturedState) : Bool :=
  if a.startDepth ≠ b.startDepth then a.startDepth < b.startDepth
  else if a.patternIndex ≠ b.patternIndex then a.patternIndex < b.patternIndex
  else
    match a.captures.head?, b.captures.head? with
    | none, none => false
    | none, some _ => true
    | some _, none => false
    | some a, some b => a.node.range.startByte < b.node.range.startByte

end CapturedState

def capturedState (pool : CaptureListPool) (state : QueryState) : CapturedState :=
  ⟨state.startDepth, state.patternIndex, (pool.get state.captureListId).contents⟩

/-- The states in progress, with their captures. -/
def TSQueryCursor.captured {τ : Type} (self : TSQueryCursor τ) : List CapturedState :=
  self.states.map (capturedState self.captureListPool)

/-- A test of the captures of two states that ends the loop behind the first one. -/
abbrev StopTest := List TSQueryCapture → List TSQueryCapture → Bool

/-- The last capture of the first state is an empty node, and the captures of the other begin
there. -/
def CapturedState.BeginsAtEmptyLast (s o : CapturedState) : Prop :=
  ∃ last ∈ s.captures.getLast?, ∃ first ∈ o.captures.head?,
    last.node.range.startByte = last.node.range.endByte ∧
      first.node.range.startByte = last.node.range.endByte

/-- Captures in document order: none starts before one that it follows. -/
def InDocumentOrder (captures : List TSQueryCapture) : Prop :=
  captures.Pairwise fun a b => a.node.range.startByte ≤ b.node.range.startByte

/-- The captures of the states are in document order, and are of nodes of one tree. -/
structure WellCaptured (states : List CapturedState) : Prop where
  ordered : ∀ s ∈ states, InDocumentOrder s.captures
  extent : ∀ s ∈ states, ∀ a ∈ s.captures, a.node.range.startByte ≤ a.node.range.endByte
  identity : ∀ s ∈ states, ∀ o ∈ states, ∀ a ∈ s.captures, ∀ b ∈ o.captures,
    a.node.id = b.node.id → a.node = b.node

variable {captures : List TSQueryCapture}

theorem InDocumentOrder.head_le (h : InDocumentOrder captures)
    {first c : TSQueryCapture} (hfirst : captures.head? = some first) (hc : c ∈ captures) :
    first.node.range.startByte ≤ c.node.range.startByte := by
  cases captures with
  | nil => cases hfirst
  | cons a captures =>
    cases hfirst
    rcases mem_cons.mp hc with rfl | hc
    · exact le_rfl
    · exact (pairwise_cons.mp h).1 c hc

theorem InDocumentOrder.le_last (h : InDocumentOrder captures)
    {last c : TSQueryCapture} (hlast : captures.getLast? = some last) (hc : c ∈ captures) :
    c.node.range.startByte ≤ last.node.range.startByte := by
  obtain ⟨front, rfl⟩ := getLast?_eq_some_iff.mp hlast
  rcases mem_append.mp hc with hc | hc
  · exact (pairwise_append.mp h).2.2 c hc last mem_cons_self
  · rw [mem_singleton.mp hc]

theorem exists_of_containsCaptures {lefts rights : List TSQueryCapture}
    (h : ContainsCaptures lefts rights) {c : TSQueryCapture} (hc : c ∈ rights) :
    ∃ c' ∈ lefts, c'.node.id = c.node.id := by
  obtain ⟨c', hc', hpair⟩ := mem_map.mp (h.subset (mem_map_of_mem hc))
  exact ⟨c', hc', (Prod.mk.inj hpair).1⟩

theorem disjointCaptures_iff {s o : List TSQueryCapture} :
    TSQueryCursor.disjointCaptures s o = true ↔ ∃ last ∈ s.getLast?, ∃ first ∈ o.head?,
      last.node.range.endByte ≤ first.node.range.startByte := by
  unfold TSQueryCursor.disjointCaptures
  cases s.getLast? <;> cases o.head? <;> simp

section Exit

variable {states : List CapturedState} {s o : CapturedState}

/-- **States that the loop takes to be disjoint are apart, but for an empty node.** -/
theorem apart_of_disjointCaptures (hcaptured : WellCaptured states) (hs : s ∈ states)
    (ho : o ∈ states) (happart : s.BeginsAtEmptyLast o → s.Apart o)
    (hdisjoint : TSQueryCursor.disjointCaptures s.captures o.captures = true) : s.Apart o := by
  obtain ⟨last, hlast, first, hfirst, hle⟩ := disjointCaptures_iff.mp hdisjoint
  have hlastmem : last ∈ s.captures := mem_of_getLast? hlast
  have hfirstmem : first ∈ o.captures := mem_of_head? hfirst
  have hextent := hcaptured.extent s hs last hlastmem
  by_cases hempty : last.node.range.startByte = last.node.range.endByte ∧
      first.node.range.startByte = last.node.range.endByte
  · exact happart ⟨last, hlast, first, hfirst, hempty⟩
  · constructor
    · intro hcontains
      obtain ⟨c, hc, hid⟩ := exists_of_containsCaptures hcontains hfirstmem
      have hnode := hcaptured.identity s hs o ho c hc first hfirstmem hid
      have hcle := (hcaptured.ordered s hs).le_last hlast hc
      rw [hnode] at hcle
      omega
    · intro hcontains
      obtain ⟨c, hc, hid⟩ := exists_of_containsCaptures hcontains hlastmem
      have hnode := hcaptured.identity o ho s hs c hc last hlastmem hid
      have hcle := (hcaptured.ordered o ho).head_le hfirst hc
      rw [hnode] at hcle
      omega

def SortedStates (states : List CapturedState) : Prop :=
  states.Pairwise fun a b => b.precedes a = false

theorem head_le_of_sorted {a b : CapturedState} (h : b.precedes a = false)
    (hgroup : a.SameGroup b) {first : TSQueryCapture} (hfirst : a.captures.head? = some first) :
    ∃ first' ∈ b.captures.head?, first.node.range.startByte ≤ first'.node.range.startByte := by
  rw [CapturedState.precedes, if_neg (not_not.mpr hgroup.1), if_neg (not_not.mpr hgroup.2),
    hfirst] at h
  cases hfirst' : b.captures.head? with
  | none =>
    rw [hfirst'] at h
    cases h
  | some first' =>
    rw [hfirst'] at h
    exact ⟨first', rfl, by simpa using h⟩

theorem WellCaptured.sublist (h : WellCaptured states) {states' : List CapturedState}
    (hsub : states'.Sublist states) : WellCaptured states' where
  ordered s hs := h.ordered s (hsub.subset hs)
  extent s hs := h.extent s (hsub.subset hs)
  identity s hs o ho := h.identity s (hsub.subset hs) o (hsub.subset ho)

end Exit

/-! ### The states are sorted -/

section Insertion

variable {α κ : Type*} [LinearOrder κ] (key : α → κ)

theorem pairwise_insertBehind (x : α) {xs : List α}
    (h : xs.Pairwise fun a b => key a ≤ key b) :
    (xs.rdropWhile (fun y => decide (key x < key y)) ++
      x :: xs.rtakeWhile fun y => decide (key x < key y)).Pairwise fun a b => key a ≤ key b := by
  have hsplit : xs.rdropWhile (fun y => decide (key x < key y)) ++
      xs.rtakeWhile (fun y => decide (key x < key y)) = xs := by
    rw [List.rdropWhile, List.rtakeWhile, ← reverse_append, takeWhile_append_dropWhile,
      reverse_reverse]
  have hbehind : ∀ y ∈ xs.rtakeWhile (fun y => decide (key x < key y)), key x < key y := by
    intro y hy
    have hholds := mem_rtakeWhile_imp hy
    exact of_decide_eq_true hholds
  have hbefore : ∀ y ∈ xs.rdropWhile (fun y => decide (key x < key y)), key y ≤ key x := by
    intro y hy
    have hne := ne_nil_of_mem hy
    have hlast := rdropWhile_last_not _ xs hne
    rw [decide_eq_true_eq, not_lt] at hlast
    rw [← hsplit] at h
    have hfront := (pairwise_append.mp h).1
    rw [← dropLast_append_getLast hne] at hy hfront
    rcases mem_append.mp hy with hy | hy
    · exact ((pairwise_append.mp hfront).2.2 y hy _ mem_cons_self).trans hlast
    · rwa [mem_singleton.mp hy]
  rw [← hsplit] at h
  obtain ⟨hfront, hback, hacross⟩ := pairwise_append.mp h
  refine pairwise_append.mpr ⟨hfront, pairwise_cons.mpr
    ⟨fun y hy => (hbehind y hy).le, hback⟩, fun a ha b hb => ?_⟩
  rcases mem_cons.mp hb with rfl | hb
  · exact hbefore a ha
  · exact hacross a ha b hb

end Insertion

def CapturedState.key (s : CapturedState) : ℕ ×ₗ ℕ ×ₗ WithBot ℕ :=
  toLex (s.startDepth, toLex (s.patternIndex,
    (s.captures.head?.map fun c => (c.node.range.startByte : WithBot ℕ)).getD ⊥))

theorem CapturedState.precedes_eq (a b : CapturedState) :
    a.precedes b = decide (a.key < b.key) := by
  rw [CapturedState.precedes, Bool.eq_iff_iff, decide_eq_true_eq, CapturedState.key,
    CapturedState.key, Prod.Lex.toLex_lt_toLex, Prod.Lex.toLex_lt_toLex]
  split
  · rename_i hne
    simp [hne]
  · rename_i heq
    rw [not_not] at heq
    split
    · rename_i hne
      simp [heq, hne]
    · rename_i heq'
      rw [not_not] at heq'
      simp only [heq, heq', lt_irrefl, true_and, false_or]
      cases a.captures.head? <;> cases b.captures.head? <;> simp

section Loop

variable {τ : Type}

theorem sortedStates_sortStatesByCapture (c : TSQueryCursor τ) :
    SortedStates c.sortStatesByCapture.captured := by
  have hfold : ∀ (states sorted : List QueryState),
      (sorted.Pairwise fun a b => (capturedState c.captureListPool a).key ≤
        (capturedState c.captureListPool b).key) →
      (states.foldl c.insertSorted sorted).Pairwise fun a b =>
        (capturedState c.captureListPool a).key ≤ (capturedState c.captureListPool b).key := by
    intro states
    induction states with
    | nil => exact fun _ h => h
    | cons state states ih =>
      intro sorted h
      refine ih _ ?_
      have hprecedes : c.statePrecedes state = fun y =>
          decide ((capturedState c.captureListPool state).key <
            (capturedState c.captureListPool y).key) :=
        funext fun y => CapturedState.precedes_eq (capturedState c.captureListPool state)
          (capturedState c.captureListPool y)
      rw [TSQueryCursor.insertSorted, hprecedes]
      exact pairwise_insertBehind
        (fun s => (capturedState c.captureListPool s).key) state h
  rw [SortedStates, TSQueryCursor.captured, pairwise_map]
  refine (hfold c.states [] .nil).imp fun {a b} h => ?_
  rw [CapturedState.precedes_eq, decide_eq_false_iff_not, not_lt]
  exact h

/-! ### The loops, with a choice of when to stop -/

namespace TSQueryCursor

/-- What comes of two states that are compared. -/
inductive Compared (τ : Type) where
  | otherDropped (cursor : TSQueryCursor τ)
  | stateDropped (cursor : TSQueryCursor τ)
  | bothKept (cursor : TSQueryCursor τ)

variable (self : TSQueryCursor τ)

def compareStates (j k : Nat) (state other : QueryState) : Option (Compared τ) :=
  let compared := compareCaptures (self.capturesOf state) (self.capturesOf other)
  if compared.1 ∧ state.stepIndex = other.stepIndex ∧
      (other.seekingImmediateMatch ∨ ¬ state.seekingImmediateMatch) then
    (self.discardState k).map .otherDropped
  else
    let self := if compared.1 then
      self.modifyState k ({ · with hasInProgressAlternatives := true }) else self
    if compared.2 ∧ state.stepIndex = other.stepIndex ∧
        (state.seekingImmediateMatch ∨ ¬ other.seekingImmediateMatch) then
      (self.discardState j).map .stateDropped
    else some (.bothKept (if compared.2 then
      self.modifyState j ({ · with hasInProgressAlternatives := true }) else self))

/-- The loop over the states after one state. The captures of two states tell whether it stops
there. -/
def dedupAgainstUntil (stop : StopTest) :
    Nat → TSQueryCursor τ → Nat → Nat → Option (TSQueryCursor τ × Bool)
  | 0, _, _, _ => none
  | turns + 1, self, j, k =>
    if k < self.states.length then do
      let state ← self.states[j]?
      let other ← self.states[k]?
      if other.startDepth ≠ state.startDepth ∨ other.patternIndex ≠ state.patternIndex ∨
          stop (self.capturesOf state) (self.capturesOf other) then
        some (self, false)
      else
        (self.compareStates j k state other).bind fun
          | .otherDropped self => dedupAgainstUntil stop turns self j k
          | .stateDropped self => some (self, true)
          | .bothKept self => dedupAgainstUntil stop turns self j (k + 1)
    else some (self, false)

/-- The loop over the states. -/
def dedupStatesUntil (stop : StopTest) :
    Nat → TSQueryCursor τ → Nat → Bool → Option (TSQueryCursor τ × Bool)
  | 0, _, _, _ => none
  | turns + 1, self, j, didMatch =>
    if j < self.states.length then do
      let state ← self.states[j]?
      if state.dead then
        dedupStatesUntil stop turns { self with states := self.states.eraseIdx j } j didMatch
      else
        (dedupAgainstUntil stop turns self j (j + 1)).bind fun (self, removed) =>
          if removed then dedupStatesUntil stop turns self j didMatch
          else
            (self.finishState j).bind fun (self, finished) =>
              if finished then dedupStatesUntil stop turns self j true
              else dedupStatesUntil stop turns self (j + 1) didMatch
    else some (self, didMatch)

theorem dedupAgainst_eq (turns : Nat) (self : TSQueryCursor τ) (j k : Nat) :
    dedupAgainst turns self j k = dedupAgainstUntil disjointCaptures turns self j k := by
  induction turns generalizing self k with
  | zero => rfl
  | succ turns ih =>
    refine if_congr Iff.rfl ?_ rfl
    refine bind_congr fun state _ => bind_congr fun other _ => ?_
    refine if_congr Iff.rfl rfl ?_
    refine Eq.trans ?_ (apply_ite (Option.bind · _) _ _ _).symm
    refine if_congr Iff.rfl ?_ ?_
    · rw [bind_map]
      exact bind_congr fun self _ => ih self k
    · refine Eq.trans ?_ (apply_ite (Option.bind · _) _ _ _).symm
      refine if_congr Iff.rfl ?_ (ih _ (k + 1))
      rw [bind_map]
      exact map_eq_bind

theorem dedupStates_eq (turns : Nat) (self : TSQueryCursor τ) (j : Nat) (didMatch : Bool) :
    dedupStates turns self j didMatch =
      dedupStatesUntil disjointCaptures turns self j didMatch := by
  induction turns generalizing self j didMatch with
  | zero => rfl
  | succ turns ih =>
    refine if_congr Iff.rfl (bind_congr fun state _ => ?_) rfl
    refine if_congr Iff.rfl (ih ..) ?_
    rw [dedupAgainst_eq]
    refine bind_congr fun result _ => ?_
    refine if_congr Iff.rfl (ih ..) (bind_congr fun result _ => ?_)
    exact if_congr Iff.rfl (ih ..) (ih ..)

/-! ### What a turn does to the states -/

theorem contents_release (pool : CaptureListPool) (id id' : Nat) :
    ((pool.release id).get id').contents = (pool.get id').contents := by
  unfold CaptureListPool.release
  split
  · rfl
  · simp only [CaptureListPool.get, getElem?_modify]
    split
    · cases pool.list[id']? <;> rfl
    · simp

theorem capturedState_release (pool : CaptureListPool) (id : Nat) :
    capturedState (pool.release id) = capturedState pool :=
  funext fun state => by rw [capturedState, contents_release, capturedState]

variable {self}

theorem captured_discardState {index : Nat} {c : TSQueryCursor τ}
    (h : self.discardState index = some c) : c.captured = self.captured.eraseIdx index := by
  obtain ⟨state, -, rfl⟩ := map_eq_some_iff.mp h
  rw [captured, captured, capturedState_release, eraseIdx_map]

theorem captured_setAlternatives (condition : Prop) [Decidable condition] (index : Nat) :
    (if condition then self.modifyState index ({ · with hasInProgressAlternatives := true })
      else self).captured = self.captured := by
  split
  · rw [captured, modifyState]
    refine ext_getElem? fun i => ?_
    simp only [getElem?_map, getElem?_modify, captured]
    split <;> cases self.states[i]? <;> rfl
  · rfl

variable {state other : QueryState}

/-- **What a comparison leaves** are the states, but for one of the two. -/
theorem captured_compareStates {j k : Nat} {turn : Compared τ}
    (h : self.compareStates j k state other = some turn) :
    (∃ c, turn = .otherDropped c ∧ c.captured = self.captured.eraseIdx k) ∨
    (∃ c, turn = .stateDropped c ∧ c.captured = self.captured.eraseIdx j) ∨
    ∃ c, turn = .bothKept c ∧ c.captured = self.captured := by
  rw [compareStates] at h
  dsimp only at h
  split at h
  · obtain ⟨c, hdiscard, rfl⟩ := map_eq_some_iff.mp h
    exact Or.inl ⟨c, rfl, captured_discardState hdiscard⟩
  · split at h
    · obtain ⟨c, hdiscard, rfl⟩ := map_eq_some_iff.mp h
      refine Or.inr (Or.inl ⟨c, rfl, ?_⟩)
      rw [captured_discardState hdiscard, captured_setAlternatives]
    · cases h
      refine Or.inr (Or.inr ⟨_, rfl, ?_⟩)
      rw [captured_setAlternatives, captured_setAlternatives]

theorem compareStates_of_apart {j k : Nat}
    (h : (capturedState self.captureListPool state).Apart
      (capturedState self.captureListPool other)) :
    self.compareStates j k state other = some (.bothKept self) := by
  have hleft : (compareCaptures (self.capturesOf state) (self.capturesOf other)).1 = false :=
    Bool.eq_false_iff.mpr fun hfound => h.1 (containsCaptures_of_compareCaptures.1 hfound)
  have hright : (compareCaptures (self.capturesOf state) (self.capturesOf other)).2 = false :=
    Bool.eq_false_iff.mpr fun hfound => h.2 (containsCaptures_of_compareCaptures.2 hfound)
  rw [compareStates]
  simp [hleft, hright]

/-! ### Loops that stop where the rest is apart -/

theorem getElem?_captured {i : Nat} {state : QueryState} (h : self.states[i]? = some state) :
    self.captured[i]? = some (capturedState self.captureListPool state) := by
  rw [captured, getElem?_map, h]
  rfl

/-- From a place on, the states of the group are apart from a state. -/
def RestApart (self : TSQueryCursor τ) (state : QueryState) (k : Nat) : Prop :=
  ∀ i other, k ≤ i → self.states[i]? = some other →
    (capturedState self.captureListPool state).SameGroup
      (capturedState self.captureListPool other) →
    (capturedState self.captureListPool state).Apart (capturedState self.captureListPool other)

/-- From a place on, the states of the group that begin where the state's last capture is an empty
node are apart from it. -/
def RestApartAtEmpty (self : TSQueryCursor τ) (state : QueryState) (k : Nat) : Prop :=
  ∀ i other, k ≤ i → self.states[i]? = some other →
    (capturedState self.captureListPool state).SameGroup
      (capturedState self.captureListPool other) →
    (capturedState self.captureListPool state).BeginsAtEmptyLast
      (capturedState self.captureListPool other) →
    (capturedState self.captureListPool state).Apart (capturedState self.captureListPool other)

/-- The loop behind the state at `j` stops at `k`, in the middle of the group. -/
def StopsAt (stop : StopTest) (self : TSQueryCursor τ) (j k : Nat) (state : QueryState) : Prop :=
  self.states[j]? = some state ∧ ∃ other, self.states[k]? = some other ∧
    (capturedState self.captureListPool state).SameGroup
      (capturedState self.captureListPool other) ∧
    stop (self.capturesOf state) (self.capturesOf other) = true

/-- **Where the loop stops, the rest is apart if it is so at empty nodes.** -/
theorem restApart_iff (hcaptured : WellCaptured self.captured)
    (hsorted : SortedStates self.captured) {j k : Nat} {state : QueryState}
    (hstops : StopsAt disjointCaptures self j k state) :
    RestApart self state k ↔ RestApartAtEmpty self state k := by
  refine ⟨fun h i other hi hother hgroup _ => h i other hi hother hgroup,
    fun h i other' hi hother' hgroup' => ?_⟩
  obtain ⟨hstate, other, hother, hgroup, hdisjoint⟩ := hstops
  refine apart_of_disjointCaptures hcaptured (mem_of_getElem? (getElem?_captured hstate))
    (mem_of_getElem? (getElem?_captured hother')) (h i other' hi hother' hgroup') ?_
  rcases hi.eq_or_lt with rfl | hi
  · cases hother.symm.trans hother'
    exact hdisjoint
  · -- The captures of the later state begin later.
    obtain ⟨hk, hotherAt⟩ := List.getElem?_eq_some_iff.mp (getElem?_captured hother)
    obtain ⟨hi', hotherAt'⟩ := List.getElem?_eq_some_iff.mp (getElem?_captured hother')
    have hpair := pairwise_iff_getElem.mp hsorted k i hk hi' hi
    rw [hotherAt, hotherAt'] at hpair
    obtain ⟨last, hlast, first, hfirst, hle⟩ := disjointCaptures_iff.mp hdisjoint
    obtain ⟨first', hfirst', hle'⟩ := head_le_of_sorted hpair
      ⟨hgroup'.1.trans hgroup.1.symm, hgroup'.2.trans hgroup.2.symm⟩ hfirst
    exact disjointCaptures_iff.mpr ⟨last, hlast, first', hfirst', hle.trans hle'⟩

/-! ### Where the pass stops -/

/-- Where the loop behind a state goes on, after two states have been compared. -/
def Compared.next (k : Nat) : Compared τ → Option (TSQueryCursor τ × Nat)
  | .otherDropped self => some (self, k)
  | .stateDropped _ => none
  | .bothKept self => some (self, k + 1)

/-- A turn of the loop behind the state at `j` that does not end it. -/
def AgainstTurn (stop : StopTest) (j : Nat) (here next : TSQueryCursor τ × Nat) : Prop :=
  ∃ state other turn, here.1.states[j]? = some state ∧ here.1.states[here.2]? = some other ∧
    (other.startDepth = state.startDepth ∧ other.patternIndex = state.patternIndex) ∧
    stop (here.1.capturesOf state) (here.1.capturesOf other) = false ∧
    here.1.compareStates j here.2 state other = some turn ∧ turn.next here.2 = some next

/-- A turn of the loop over the states. -/
inductive PassTurn (stop : StopTest) : TSQueryCursor τ × Nat → TSQueryCursor τ × Nat → Prop where
  | dead {c : TSQueryCursor τ} {j : Nat} {state : QueryState} (hstate : c.states[j]? = some state)
      (hdead : state.dead = true) :
      PassTurn stop (c, j) ({ c with states := c.states.eraseIdx j }, j)
  | removed {c c' : TSQueryCursor τ} {j turns : Nat} {state : QueryState}
      (hstate : c.states[j]? = some state) (hlive : state.dead = false)
      (hagainst : dedupAgainstUntil stop turns c j (j + 1) = some (c', true)) :
      PassTurn stop (c, j) (c', j)
  | kept {c c' c'' : TSQueryCursor τ} {j turns : Nat} {state : QueryState} {finished : Bool}
      (hstate : c.states[j]? = some state) (hlive : state.dead = false)
      (hagainst : dedupAgainstUntil stop turns c j (j + 1) = some (c', false))
      (hfinish : c'.finishState j = some (c'', finished)) :
      PassTurn stop (c, j) (c'', if finished then j else j + 1)

/-- The pass from the state at `i` of a cursor on stops behind the state at `j`, at `k`. -/
def StopsIn (stop : StopTest) (first : TSQueryCursor τ) (i : Nat) (self : TSQueryCursor τ)
    (j k : Nat) (state : QueryState) : Prop :=
  ∃ before live, Relation.ReflTransGen (PassTurn stop) (first, i) (before, j) ∧
    before.states[j]? = some live ∧ live.dead = false ∧
    Relation.ReflTransGen (AgainstTurn stop j) (before, j + 1) (self, k) ∧
    StopsAt stop self j k state

/-- **Wherever the pass stops behind a state, that state and those from there on in its group are
apart.** -/
def EarlyExitSound (stop : StopTest) (first : TSQueryCursor τ) (i : Nat) : Prop :=
  ∀ self j k state, StopsIn stop first i self j k state → RestApart self state k

/-- Wherever the pass stops behind a state whose last capture is an empty node, that state and those
from there on in its group whose captures begin there are apart. -/
def ApartAtEmptyNodes (first : TSQueryCursor τ) : Prop :=
  ∀ self j k state, StopsIn disjointCaptures first 0 self j k state →
    RestApartAtEmpty self state k

section Stop

variable {stop stop' : StopTest} {state : QueryState} {j k : Nat}

/-- The loop goes on behind a turn. -/
def continueAgainst (stop : StopTest) (turns j k : Nat) :
    Compared τ → Option (TSQueryCursor τ × Bool)
  | .otherDropped self => dedupAgainstUntil stop turns self j k
  | .stateDropped self => some (self, true)
  | .bothKept self => dedupAgainstUntil stop turns self j (k + 1)

theorem dedupAgainstUntil_succ (stop : StopTest) (turns : Nat)
    (hstate : self.states[j]? = some state) {other : QueryState}
    (hother : self.states[k]? = some other) :
    dedupAgainstUntil stop (turns + 1) self j k =
      if other.startDepth ≠ state.startDepth ∨ other.patternIndex ≠ state.patternIndex ∨
          stop (self.capturesOf state) (self.capturesOf other) then some (self, false)
      else (self.compareStates j k state other).bind (continueAgainst stop turns j k) := by
  rw [dedupAgainstUntil, if_pos (List.getElem?_eq_some_iff.mp hother).1, hstate, hother,
    bind_eq_bind, bind_some, bind_some]
  rfl

theorem dedupAgainstUntil_of_ge (stop : StopTest) (turns : Nat) (hk : self.states.length ≤ k) :
    dedupAgainstUntil stop (turns + 1) self j k = some (self, false) := by
  rw [dedupAgainstUntil, if_neg hk.not_gt]

theorem dedupAgainstUntil_of_restApart (hstate : self.states[j]? = some state) :
    ∀ {turns k : Nat}, RestApart self state k → self.states.length ≤ turns + k →
      dedupAgainstUntil stop (turns + 1) self j k = some (self, false) := by
  intro turns
  induction turns with
  | zero => exact fun _ hlen => dedupAgainstUntil_of_ge stop 0 (by omega)
  | succ turns ih =>
    intro k hapart hlen
    rcases Nat.lt_or_ge k self.states.length with hk | hk
    · have hother := getElem?_eq_getElem hk
      rw [dedupAgainstUntil_succ stop _ hstate hother]
      split
      · rfl
      · rename_i hgo
        simp only [not_or, not_not] at hgo
        rw [compareStates_of_apart (hapart k _ le_rfl hother ⟨hgo.1, hgo.2.1⟩), bind_some]
        exact ih (fun i other hi => hapart i other (by omega)) (by omega)
    · exact dedupAgainstUntil_of_ge stop _ hk

theorem dedupAgainstUntil_mono {turns turns' : Nat} (hle : turns ≤ turns') :
    ∀ {c : TSQueryCursor τ} {k : Nat} {result : TSQueryCursor τ × Bool},
      dedupAgainstUntil stop turns c j k = some result →
        dedupAgainstUntil stop turns' c j k = some result := by
  induction turns generalizing turns' with
  | zero => exact fun h => by cases h
  | succ turns ih =>
    obtain ⟨turns', rfl⟩ : ∃ n, turns' = n + 1 := ⟨turns' - 1, by omega⟩
    replace ih := @ih turns' (by omega)
    intro c k result h
    rw [dedupAgainstUntil] at h ⊢
    split at h
    · rename_i hk
      rw [if_pos hk]
      obtain ⟨state, hstate, h⟩ := bind_eq_some_iff.mp h
      obtain ⟨other, hother, h⟩ := bind_eq_some_iff.mp h
      refine bind_eq_some_iff.mpr ⟨state, hstate, bind_eq_some_iff.mpr ⟨other, hother, ?_⟩⟩
      split at h
      · rename_i hstop
        rw [if_pos hstop, h]
      · rename_i hstop
        rw [if_neg hstop]
        obtain ⟨turn, hturn, h⟩ := bind_eq_some_iff.mp h
        refine bind_eq_some_iff.mpr ⟨turn, hturn, ?_⟩
        cases turn with
        | otherDropped c => exact ih h
        | stateDropped c => exact h
        | bothKept c => exact ih h
    · rename_i hk
      rw [if_neg hk, h]

variable {result : TSQueryCursor τ × Bool} {first : TSQueryCursor τ}

theorem eq_of_restApart (hstate : self.states[j]? = some state) (hapart : RestApart self state k)
    {turns : Nat}
    (h : dedupAgainstUntil stop turns self j k = some result) : result = (self, false) := by
  have hdone : dedupAgainstUntil stop (self.states.length + 1) self j k = some (self, false) :=
    dedupAgainstUntil_of_restApart hstate hapart (by omega)
  have h1 := dedupAgainstUntil_mono (le_max_left turns (self.states.length + 1)) h
  have h2 := dedupAgainstUntil_mono (le_max_right turns (self.states.length + 1)) hdone
  exact some_inj.mp (h1.symm.trans h2)

theorem AgainstTurn.captured {here next : TSQueryCursor τ × Nat}
    (h : AgainstTurn stop j here next) : next.1.captured.Sublist here.1.captured := by
  obtain ⟨state, other, turn, -, -, -, -, hturn, hnext⟩ := h
  rcases captured_compareStates hturn with
    ⟨c', rfl, hcaptured⟩ | ⟨c', rfl, hcaptured⟩ | ⟨c', rfl, hcaptured⟩
  · cases hnext
    exact hcaptured ▸ eraseIdx_sublist ..
  · cases hnext
  · cases hnext
    exact hcaptured ▸ List.Sublist.refl _

theorem captured_dedupAgainstUntil : ∀ {turns : Nat} {c : TSQueryCursor τ} {k : Nat}
    {result : TSQueryCursor τ × Bool}, dedupAgainstUntil stop turns c j k = some result →
      result.1.captured.Sublist c.captured := by
  intro turns
  induction turns with
  | zero => exact fun h => by cases h
  | succ turns ih =>
    intro c k result h
    rw [dedupAgainstUntil] at h
    split at h
    · obtain ⟨state, -, h⟩ := bind_eq_some_iff.mp h
      obtain ⟨other, -, h⟩ := bind_eq_some_iff.mp h
      split at h
      · cases h
        exact List.Sublist.refl _
      · obtain ⟨turn, hturn, h⟩ := bind_eq_some_iff.mp h
        rcases captured_compareStates hturn with
          ⟨c', rfl, hcaptured⟩ | ⟨c', rfl, hcaptured⟩ | ⟨c', rfl, hcaptured⟩
        · exact (ih h).trans (hcaptured ▸ eraseIdx_sublist ..)
        · cases h
          exact hcaptured ▸ eraseIdx_sublist ..
        · exact hcaptured ▸ ih h
    · cases h
      exact List.Sublist.refl _

/-- **Two sound tests make no difference** to the loop behind a state. -/
theorem dedupAgainstUntil_of_sound : ∀ {turns : Nat} {c : TSQueryCursor τ} {k : Nat}
    {result : TSQueryCursor τ × Bool},
    (∀ c' k' state, Relation.ReflTransGen (AgainstTurn stop j) (c, k) (c', k') →
      StopsAt stop c' j k' state → RestApart c' state k') →
    (∀ c' k' state, Relation.ReflTransGen (AgainstTurn stop' j) (c, k) (c', k') →
      StopsAt stop' c' j k' state → RestApart c' state k') →
    j < k → dedupAgainstUntil stop turns c j k = some result →
      ∃ turns', dedupAgainstUntil stop' turns' c j k = some result := by
  intro turns
  induction turns with
  | zero => exact fun _ _ _ h => by cases h
  | succ turns ih =>
    intro c k result hsound hsound' hjk h
    rcases Nat.lt_or_ge k c.states.length with hk | hk
    swap
    · rw [dedupAgainstUntil_of_ge stop turns hk] at h
      cases h
      exact ⟨1, dedupAgainstUntil_of_ge stop' 0 hk⟩
    have hstate := getElem?_eq_getElem (hjk.trans hk)
    have hother := getElem?_eq_getElem hk
    generalize c.states[j] = state at hstate
    generalize c.states[k] = other at hother
    have hrun := h
    rw [dedupAgainstUntil_succ stop turns hstate hother] at h
    by_cases hgroup : other.startDepth = state.startDepth ∧
        other.patternIndex = state.patternIndex
    swap
    · rw [if_pos (by tauto)] at h
      cases h
      refine ⟨1, ?_⟩
      rw [dedupAgainstUntil_succ stop' 0 hstate hother, if_pos (by tauto)]
    by_cases hstop : stop (c.capturesOf state) (c.capturesOf other) = true ∨
        stop' (c.capturesOf state) (c.capturesOf other) = true
    · -- One of the two loops stops here; the other finds nothing more.
      have hapart : RestApart c state k := hstop.elim
        (fun hstop => hsound c k state .refl ⟨hstate, other, hother, hgroup, hstop⟩)
        (fun hstop => hsound' c k state .refl ⟨hstate, other, hother, hgroup, hstop⟩)
      obtain rfl := eq_of_restApart hstate hapart hrun
      exact ⟨c.states.length + 1, dedupAgainstUntil_of_restApart hstate hapart (by omega)⟩
    rw [not_or, Bool.not_eq_true, Bool.not_eq_true] at hstop
    rw [if_neg (by simp [hgroup, hstop.1])] at h
    obtain ⟨turn, hturn, h⟩ := bind_eq_some_iff.mp h
    have hgo : ∀ turns', dedupAgainstUntil stop' (turns' + 1) c j k =
        continueAgainst stop' turns' j k turn := by
      intro turns'
      rw [dedupAgainstUntil_succ stop' turns' hstate hother,
        if_neg (by simp [hgroup, hstop.2]), hturn, bind_some]
    -- What is sound from here on is so behind the turn.
    have hbehind {next : TSQueryCursor τ × Nat} (hnext : turn.next k = some next) :
        AgainstTurn stop j (c, k) next ∧ AgainstTurn stop' j (c, k) next :=
      ⟨⟨state, other, turn, hstate, hother, hgroup, hstop.1, hturn, hnext⟩,
        ⟨state, other, turn, hstate, hother, hgroup, hstop.2, hturn, hnext⟩⟩
    cases turn with
    | stateDropped c' =>
      cases h
      exact ⟨1, hgo 0⟩
    | otherDropped c' =>
      obtain ⟨hnext, hnext'⟩ := hbehind rfl
      obtain ⟨turns', hrun'⟩ := ih (fun c' k' state h => hsound c' k' state (h.head hnext))
        (fun c' k' state h => hsound' c' k' state (h.head hnext')) hjk h
      exact ⟨turns' + 1, (hgo turns').trans hrun'⟩
    | bothKept c' =>
      obtain ⟨hnext, hnext'⟩ := hbehind rfl
      obtain ⟨turns', hrun'⟩ := ih (fun c' k' state h => hsound c' k' state (h.head hnext))
        (fun c' k' state h => hsound' c' k' state (h.head hnext')) (by omega) h
      exact ⟨turns' + 1, (hgo turns').trans hrun'⟩

theorem captured_finishState {index : Nat}
    (h : self.finishState index = some result) : result.1.captured.Sublist self.captured := by
  obtain ⟨state, -, h⟩ := bind_eq_some_iff.mp h
  obtain ⟨nextStep, -, h⟩ := bind_eq_some_iff.mp h
  split at h
  · cases h
    exact (eraseIdx_sublist ..).map _
  · cases h
    exact List.Sublist.refl _

theorem dedupStatesUntil_mono {turns turns' : Nat} (hle : turns ≤ turns') :
    ∀ {c : TSQueryCursor τ} {j : Nat} {didMatch : Bool} {result : TSQueryCursor τ × Bool},
      dedupStatesUntil stop turns c j didMatch = some result →
        dedupStatesUntil stop turns' c j didMatch = some result := by
  induction turns generalizing turns' with
  | zero => exact fun h => by cases h
  | succ turns ih =>
    obtain ⟨turns', rfl⟩ : ∃ n, turns' = n + 1 := ⟨turns' - 1, by omega⟩
    replace ih := @ih turns' (by omega)
    intro c j didMatch result h
    rw [dedupStatesUntil] at h ⊢
    split at h
    · rename_i hj
      rw [if_pos hj]
      obtain ⟨state, hstate, h⟩ := bind_eq_some_iff.mp h
      refine bind_eq_some_iff.mpr ⟨state, hstate, ?_⟩
      split at h
      · rename_i hdead
        rw [if_pos hdead]
        exact ih h
      · rename_i hdead
        rw [if_neg hdead]
        obtain ⟨⟨c₁, removed⟩, hagainst, h⟩ := bind_eq_some_iff.mp h
        refine bind_eq_some_iff.mpr ⟨_, dedupAgainstUntil_mono (by omega) hagainst, ?_⟩
        cases removed with
        | true => exact ih h
        | false =>
          obtain ⟨⟨c₂, finished⟩, hfinish, h⟩ := bind_eq_some_iff.mp h
          refine bind_eq_some_iff.mpr ⟨_, hfinish, ?_⟩
          cases finished with
          | true | false => exact ih h
    · rename_i hj
      rw [if_neg hj, h]

theorem EarlyExitSound.turn {first c : TSQueryCursor τ} {i : Nat}
    (h : EarlyExitSound stop first i) (hturn : PassTurn stop (first, i) (c, j)) :
    EarlyExitSound stop c j :=
  fun self j' k state ⟨before, live, hpass, hrest⟩ =>
    h self j' k state ⟨before, live, hpass.head hturn, hrest⟩

/-- **Two sound tests make no difference** to the pass. -/
theorem dedupStatesUntil_of_sound : ∀ {turns : Nat} {c : TSQueryCursor τ} {j : Nat}
    {didMatch : Bool} {result : TSQueryCursor τ × Bool}, EarlyExitSound stop c j →
    EarlyExitSound stop' c j → dedupStatesUntil stop turns c j didMatch = some result →
      ∃ turns', dedupStatesUntil stop' turns' c j didMatch = some result := by
  intro turns
  induction turns with
  | zero => exact fun _ _ h => by cases h
  | succ turns ih =>
    intro c j didMatch result hsound hsound' h
    rw [dedupStatesUntil] at h
    split at h
    swap
    · rename_i hj
      exact ⟨1, by rw [dedupStatesUntil, if_neg hj, h]⟩
    rename_i hj
    obtain ⟨state, hstate, h⟩ := bind_eq_some_iff.mp h
    split at h
    · rename_i hdead
      obtain ⟨turns', hrun⟩ :=
        ih (hsound.turn (.dead hstate hdead)) (hsound'.turn (.dead hstate hdead)) h
      refine ⟨turns' + 1, ?_⟩
      rw [dedupStatesUntil, if_pos hj, hstate, bind_eq_bind, bind_some, if_pos hdead, hrun]
    · rename_i hdead
      have hlive := Bool.eq_false_iff.mpr hdead
      obtain ⟨⟨c₁, removed⟩, hagainst, h⟩ := bind_eq_some_iff.mp h
      obtain ⟨turns₁, hagainst'⟩ := dedupAgainstUntil_of_sound
        (fun c' k' other hreach hstops =>
          hsound c' j k' other ⟨c, state, .refl, hstate, hlive, hreach, hstops⟩)
        (fun c' k' other hreach hstops =>
          hsound' c' j k' other ⟨c, state, .refl, hstate, hlive, hreach, hstops⟩)
        (Nat.lt_succ_self j) hagainst
      -- The loop behind the state and what follows it each have turns that are enough.
      suffices hrest : ∃ turns₂, ∀ n ≥ turns₂, (if removed then
          dedupStatesUntil stop' n c₁ j didMatch
          else (c₁.finishState j).bind fun (c, finished) =>
            if finished then dedupStatesUntil stop' n c j true
            else dedupStatesUntil stop' n c (j + 1) didMatch) = some result by
        obtain ⟨turns₂, hrest⟩ := hrest
        refine ⟨max turns₁ turns₂ + 1, ?_⟩
        rw [dedupStatesUntil, if_pos hj, hstate, bind_eq_bind, bind_some,
          if_neg hdead, dedupAgainstUntil_mono (le_max_left ..) hagainst', bind_some]
        exact hrest _ (le_max_right ..)
      cases removed with
      | true =>
        obtain ⟨turns₂, hrun⟩ := ih (hsound.turn (.removed hstate hlive hagainst))
          (hsound'.turn (.removed hstate hlive hagainst')) h
        exact ⟨turns₂, fun n hn => dedupStatesUntil_mono hn hrun⟩
      | false =>
        obtain ⟨⟨c₂, finished⟩, hfinish, h⟩ := bind_eq_some_iff.mp h
        have hturn := hsound.turn (.kept hstate hlive hagainst hfinish)
        have hturn' := hsound'.turn (.kept hstate hlive hagainst' hfinish)
        cases finished with
        | true | false =>
          obtain ⟨turns₂, hrun⟩ := ih hturn hturn' h
          refine ⟨turns₂, fun n hn => ?_⟩
          rw [if_neg Bool.false_ne_true, hfinish]
          exact dedupStatesUntil_mono hn hrun

theorem StopsIn.getElem? {i : Nat}
    (h : StopsIn stop first i self j k state) : self.states[j]? = some state := by
  obtain ⟨-, -, -, -, -, -, hstate, -⟩ := h
  exact hstate

theorem StopsIn.captured {i : Nat}
    (h : StopsIn stop first i self j k state) : self.captured.Sublist first.captured := by
  obtain ⟨before, live, hpass, -, -, hagainst, -⟩ := h
  have hpassed (here : TSQueryCursor τ × Nat)
      (h : Relation.ReflTransGen (PassTurn stop) (first, i) here) :
      here.1.captured.Sublist first.captured := by
    induction h with
    | refl => exact List.Sublist.refl _
    | tail _ hturn ih =>
      cases hturn with
      | dead => exact ((eraseIdx_sublist ..).map _).trans ih
      | removed _ _ hagainst => exact (captured_dedupAgainstUntil hagainst).trans ih
      | kept _ _ hagainst hfinish =>
        exact ((captured_finishState hfinish).trans (captured_dedupAgainstUntil hagainst)).trans ih
  have hcompared (here : TSQueryCursor τ × Nat)
      (h : Relation.ReflTransGen (AgainstTurn stop j) (before, j + 1) here) :
      here.1.captured.Sublist before.captured := by
    induction h with
    | refl => exact List.Sublist.refl _
    | tail _ hturn ih => exact hturn.captured.trans ih
  exact (hcompared _ hagainst).trans (hpassed _ hpass)

end Stop

/-- Every pair is compared. -/
def neverStop : StopTest := fun _ _ => false

theorem earlyExitSound_neverStop (first : TSQueryCursor τ) (i : Nat) :
    EarlyExitSound neverStop first i := by
  rintro self j k state ⟨_, _, _, _, _, _, _, _, _, _, hstop⟩
  exact absurd hstop Bool.false_ne_true

/-- **The early exit is sound if states are apart at empty nodes.** -/
theorem earlyExitSound_iff (c : TSQueryCursor τ)
    (hcaptured : WellCaptured c.sortStatesByCapture.captured) :
    EarlyExitSound disjointCaptures c.sortStatesByCapture 0 ↔
      ApartAtEmptyNodes c.sortStatesByCapture := by
  refine forall₄_congr fun self j k state => forall_congr' fun hstops => ?_
  have hsub := hstops.captured
  obtain ⟨-, -, -, -, -, -, hat⟩ := hstops
  exact restApart_iff (hcaptured.sublist hsub)
    ((sortedStates_sortStatesByCapture c).sublist hsub) hat

/-- **The early exit is sound, and the pass drops and defers what comparing every pair would,
exactly if states are apart at empty nodes.** -/
theorem earlyExit_iff (c : TSQueryCursor τ)
    (hcaptured : WellCaptured c.sortStatesByCapture.captured) :
    (EarlyExitSound disjointCaptures c.sortStatesByCapture 0 ∧
      ∀ didMatch result, (∃ turns, dedupStates turns c.sortStatesByCapture 0 didMatch =
          some result) ↔
        ∃ turns, dedupStatesUntil neverStop turns c.sortStatesByCapture 0 didMatch = some result) ↔
    ApartAtEmptyNodes c.sortStatesByCapture := by
  rw [earlyExitSound_iff c hcaptured]
  refine and_iff_left_of_imp fun happart didMatch result => ?_
  have hsound := (earlyExitSound_iff c hcaptured).mpr happart
  have hnever := earlyExitSound_neverStop c.sortStatesByCapture 0
  simp only [dedupStates_eq]
  exact ⟨fun ⟨_, h⟩ => dedupStatesUntil_of_sound hsound hnever h,
    fun ⟨_, h⟩ => dedupStatesUntil_of_sound hnever hsound h⟩

/-! ### Two states at an empty node -/

/-- A cursor with states of one group that are all done, and have these captures. -/
def groupCursor (lists : List (List TSQueryCapture)) : TSQueryCursor Unit :=
  { new captureQuery () with
    states := lists.mapIdx fun i _ =>
      { newState 0 ⟨4, 0, true⟩ doneStep with captureListId := i }
    captureListPool := ⟨lists.map (⟨·, true⟩), captureListNone, 0⟩ }

theorem apartAtEmptyNodes_of_nonempty {c : TSQueryCursor τ}
    (h : ∀ s ∈ c.captured, ∀ a ∈ s.captures, a.node.range.startByte ≠ a.node.range.endByte) :
    ApartAtEmptyNodes c := by
  rintro self j k state hstops i other - hother - ⟨last, hlast, -, -, hempty, -⟩
  have hstate := hstops.captured.subset (mem_of_getElem? (getElem?_captured hstops.getElem?))
  exact absurd hempty (h _ hstate last (mem_of_getLast? hlast))

theorem earlyExit_twoNodes :
    EarlyExitSound disjointCaptures
      (groupCursor [[⟨firstLineNode 1 0 2, 0⟩],
        [⟨firstLineNode 2 2 3, 0⟩]]).sortStatesByCapture 0 := by
  refine ((earlyExit_iff (groupCursor [[⟨firstLineNode 1 0 2, 0⟩],
    [⟨firstLineNode 2 2 3, 0⟩]]) ?_).mpr (apartAtEmptyNodes_of_nonempty ?_)).1
  · constructor
    · unfold InDocumentOrder
      decide
    · decide
    · decide
  · decide

/-- **One state has captured an empty node, the other has captured it and a node behind it.** The
loop stops before it compares them, so that both are found to be matches. -/
theorem not_earlyExitSound_emptyNode :
    let c := (groupCursor [[⟨firstLineNode 1 5 5, 0⟩],
      [⟨firstLineNode 1 5 5, 0⟩, ⟨firstLineNode 2 6 8, 1⟩]]).sortStatesByCapture
    WellCaptured c.captured ∧ ¬ EarlyExitSound disjointCaptures c 0 ∧
      (dedupStates 5 c 0 false).map (·.1.finishedStates.map (·.captureListId)) = some [0, 1] ∧
      (dedupStatesUntil neverStop 5 c 0 false).map (·.1.finishedStates.map (·.captureListId)) =
        some [1] := by
  intro c
  refine ⟨?_, fun hsound => ?_, by decide, by decide +kernel⟩
  · constructor
    · unfold InDocumentOrder
      decide
    · decide
    · decide
  · -- The loop behind the first state stops at the other one.
    have hstate : c.states[0]? =
        some { newState 0 ⟨4, 0, true⟩ doneStep with captureListId := 0 } := by
      decide
    have hother : c.states[1]? =
        some { newState 0 ⟨4, 0, true⟩ doneStep with captureListId := 1 } := by
      decide
    refine (hsound c 0 1 _ ⟨c, _, .refl, hstate, by decide, .refl, hstate, _, hother,
      ⟨rfl, rfl⟩, by decide⟩ 1 _ le_rfl hother ⟨rfl, rfl⟩).2 ?_
    exact ((nil_sublist _).cons_cons _).subperm

end TSQueryCursor

end Loop

end TreeSitter.Lib
