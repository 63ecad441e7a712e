import TreeSitter.Lib.Query.Ownership

/-!
# TreeSitter.Lib.Query.AdvanceOwned

`ts_query_cursor__advance` is a `Move`: function by function, from the update of one state to the
whole loop. The calls of the API are in `TreeSitter.Lib.Query.CallsOwned`.
-/

namespace TreeSitter.Lib

open Option List

namespace TSQueryCursor

open CaptureListPool (Owned)

variable {τ : Type} {limit : Nat} {c c' : TSQueryCursor τ}

/-! ### The update of a state -/

variable {facts : NodeFacts} {step : QueryStep} {index turns : Nat} {state : QueryState}

theorem splitForCapture_move {count : Nat}
    (hsplit : c.splitForCapture turns facts index state step = some (c', count))
    (h : ListsOwned limit c) :
    ListsOwned limit c' ∧ Adds c c' ∧
      ∀ s, c.states[index]? = some s → ∃ s', c'.states[index]? = some s' ∧ SameOwner s s' := by
  obtain ⟨split, -, hsplit⟩ := bind_eq_some_iff.1 hsplit
  cases split with
  | false =>
    cases hsplit
    exact ⟨h, .refl c, fun s hs => ⟨s, hs, rfl, rfl, rfl⟩⟩
  | true =>
    obtain ⟨⟨c₁, copied⟩, hcopy, hsplit⟩ := map_eq_some_iff.1 hsplit
    cases hsplit
    exact copyState_move hcopy h

theorem Spare.modify_needsParent {states : List QueryState} (hspare : Spare states) (index : Nat) :
    Spare (states.modify index ({ · with needsParent := false })) := by
  intro state hstate hreason
  obtain ⟨i, hi⟩ := mem_iff_getElem?.1 hstate
  rw [getElem?_modify] at hi
  obtain ⟨state', hstate', rfl⟩ := map_eq_some_iff.1 hi
  have hmem := mem_of_getElem? hstate'
  by_cases hindex : index = i
  · simp only [hindex, if_true, Bool.false_eq_true, or_false] at hreason ⊢
    exact hspare state' hmem (.inl hreason)
  · simp only [hindex, if_false] at hreason ⊢
    exact hspare state' hmem hreason

theorem captureParent_move {s : QueryState}
    (hcapture : c.captureParent turns facts index state = some c')
    (hget : c.states[index]? = some s) (hsame : SameOwner state s) (h : ListsOwned limit c) :
    ListsOwned limit c' ∧ Adds c c' ∧ Placed c' index := by
  unfold captureParent at hcapture
  by_cases hparent : state.needsParent = true
  · have hlist : s.captureListId = captureListNone :=
      h.spare s (mem_of_getElem? hget) (.inr (hsame.2.2.trans hparent))
    rw [if_pos hparent] at hcapture
    cases hnode : facts.parent with
    | none =>
      rw [hnode] at hcapture
      cases hcapture
      obtain ⟨h', hadds⟩ := move_kill c hget hlist h
      exact ⟨h', hadds, { s with dead := true }, by rw [getElem?_modifyState, hget]; rfl, .inl rfl⟩
    | some parent =>
      rw [hnode] at hcapture
      obtain ⟨skipped, -, hcapture⟩ := bind_eq_some_iff.1 hcapture
      have hids := map_captureListId_modify (f := ({ · with needsParent := false })) (fun _ => rfl)
        c.states index
      have hmove : Move limit c (c.modifyState index ({ · with needsParent := false })) :=
        move_of_states rfl rfl rfl rfl rfl rfl (.of_eq hids) fun hspare => hspare.modify_needsParent index
      obtain ⟨h₁, hadds₁⟩ := hmove h
      have hplaced : Placed (c.modifyState index ({ · with needsParent := false })) index :=
        ⟨{ s with needsParent := false }, by rw [getElem?_modifyState, hget]; rfl, .inr rfl⟩
      simp only at hcapture
      split at hcapture
      · obtain ⟨h', hadds, hplaced'⟩ := capture_move hcapture hplaced h₁
        exact ⟨h', hadds₁.trans hadds, hplaced'⟩
      · cases hcapture
        exact ⟨h₁, hadds₁, hplaced⟩
  · rw [if_neg hparent] at hcapture
    cases hcapture
    exact ⟨h, .refl c, s, hget, .inr (by rw [hsame.2.2]; simpa using hparent)⟩

theorem captureNode_move (hcapture : c.captureNode turns facts index step = some c')
    (hplaced : Placed c index) (h : ListsOwned limit c) : ListsOwned limit c' ∧ Adds c c' := by
  unfold captureNode at hcapture
  split at hcapture
  · obtain ⟨h', hadds, -⟩ := capture_move hcapture hplaced h
    exact ⟨h', hadds⟩
  · cases hcapture
    exact ⟨h, .refl c⟩

theorem advanceStep_move {nextStep : QueryStep}
    (hstep : c.advanceStep index step = some (c', nextStep)) : Move limit c c' := by
  obtain ⟨state, -, hstep⟩ := bind_eq_some_iff.1 hstep
  obtain ⟨next, -, hstep⟩ := bind_eq_some_iff.1 hstep
  cases hstep
  exact move_modifyState c index fun _ => ⟨rfl, rfl, rfl⟩

variable {copy' copy : QueryState}

theorem skipQuantified_sameOwner {stepIndex : Nat}
    (h : c.skipQuantified stepIndex step copy = some copy') : SameOwner copy copy' := by
  unfold skipQuantified at h
  split at h
  · obtain ⟨target, -, rfl⟩ := map_eq_some_iff.1 h
    exact ⟨rfl, rfl, rfl⟩
  · split at h
    · cases h
    · obtain ⟨previous, -, rfl⟩ := map_eq_some_iff.1 h
      split <;> exact ⟨rfl, rfl, rfl⟩

theorem branchCopy_sameOwner {stepIndex : Nat} (h : c.branchCopy stepIndex step copy = some copy') :
    SameOwner copy copy' := by
  unfold branchCopy at h
  simp only at h
  split at h
  · have hsame := skipQuantified_sameOwner h
    exact hsame
  · cases h
    exact ⟨rfl, rfl, rfl⟩

theorem forall₂_set (hsame : SameOwner copy copy') :
    ∀ {states : List QueryState} {index : Nat}, states[index]? = some copy →
    List.Forall₂ SameOwner states (states.set index copy') := by
  intro states
  induction states with
  | nil =>
    intro index h
    cases h
  | cons state states ih =>
    intro index h
    cases index with
    | zero =>
      cases h
      exact .cons hsame (forall₂_sameOwner_refl states)
    | succ index => exact .cons ⟨rfl, rfl, rfl⟩ (ih h)

theorem move_setState (hget : c.states[index]? = some copy) (hsame : SameOwner copy copy') :
    Move limit c { c with states := c.states.set index copy' } :=
  move_of_states rfl rfl rfl rfl rfl rfl (.of_eq (map_captureListId_of_forall₂ (forall₂_set hsame hget)))
    (Spare.of_forall₂ (forall₂_set hsame hget))

theorem splitForBranch_move {copied : Bool}
    (hsplit : c.splitForBranch turns index step = some (c', copied)) : Move limit c c' := by
  intro h
  obtain ⟨⟨c₁, copied₁⟩, hcopy, hsplit⟩ := bind_eq_some_iff.1 hsplit
  obtain ⟨h₁, hadds₁, -⟩ := copyState_move hcopy h
  cases copied₁ with
  | false =>
    cases hsplit
    exact ⟨h₁, hadds₁⟩
  | true =>
    simp only [if_true] at hsplit
    obtain ⟨childState, -, hsplit⟩ := bind_eq_some_iff.1 hsplit
    obtain ⟨copy, hget, hsplit⟩ := bind_eq_some_iff.1 hsplit
    obtain ⟨copy', hbranch, hsplit⟩ := bind_eq_some_iff.1 hsplit
    cases hsplit
    obtain ⟨h', hadds⟩ := move_setState hget (branchCopy_sameOwner hbranch) h₁
    exact ⟨h', hadds₁.trans hadds⟩

theorem splitLoop_move : ∀ {turns : Nat} {c c' : TSQueryCursor τ}
    {k endIndex copyCount count : Nat},
    splitLoop facts turns c k endIndex copyCount = some (c', count) → Move limit c c' := by
  intro turns
  induction turns with
  | zero =>
    intro c c' k endIndex copyCount count h
    cases h
  | succ turns ih =>
    intro c c' k endIndex copyCount count h
    rw [splitLoop] at h
    split at h
    · obtain ⟨childState, -, h⟩ := bind_eq_some_iff.1 h
      obtain ⟨childStep, -, h⟩ := bind_eq_some_iff.1 h
      split at h
      · exact ih h
      · split at h
        · have hjump : Move limit c
              (c.modifyState k ({ · with stepIndex := childStep.alternativeIndex })) :=
            move_modifyState c k fun _ => ⟨rfl, rfl, rfl⟩
          exact hjump.trans (ih h)
        · -- the pass-through step is passed before the copy is made
          have hpass : Move limit c (if childStep.isPassThrough then
              c.modifyState k ({ · with stepIndex := (childState.stepIndex + 1) % 2 ^ 16 }) else c) := by
            split
            · exact move_modifyState c k fun _ => ⟨rfl, rfl, rfl⟩
            · exact .refl c
          simp only at h
          split at h
          · exact hpass.trans (ih h)
          · obtain ⟨⟨c₁, copied⟩, hsplit, h⟩ := bind_eq_some_iff.1 h
            have hmove := hpass.trans (splitForBranch_move hsplit)
            simp only at h
            split at h
            · exact hmove.trans (ih h)
            · exact hmove.trans (ih h)
    · cases h
      exact .refl c

variable {stop definite : Bool} {next : Nat}

theorem finishUpdate_move {copyCount : Nat}
    (hfinish : c.finishUpdate turns stop facts index step copyCount = some (c', next, definite)) :
    Move limit c c' := by
  obtain ⟨state, hget, hfinish⟩ := bind_eq_some_iff.1 hfinish
  split at hfinish
  · cases hfinish
    exact eraseDead_move hget (by assumption)
  · obtain ⟨⟨c₁, nextStep⟩, hstep, hfinish⟩ := bind_eq_some_iff.1 hfinish
    obtain ⟨⟨c₂, count⟩, hsplit, hfinish⟩ := bind_eq_some_iff.1 hfinish
    cases hfinish
    exact (advanceStep_move hstep).trans (splitLoop_move hsplit)

theorem updateMatching_move {s : QueryState}
    (hupdate : c.updateMatching turns stop facts index state step = some (c', next, definite))
    (hget : c.states[index]? = some s) (hsame : SameOwner state s) : Move limit c c' := by
  intro h
  obtain ⟨⟨c₁, count⟩, hsplit, hupdate⟩ := bind_eq_some_iff.1 hupdate
  obtain ⟨c₂, hparent, hupdate⟩ := bind_eq_some_iff.1 hupdate
  obtain ⟨c₃, hnode, hfinish⟩ := bind_eq_some_iff.1 hupdate
  obtain ⟨h₁, hadds₁, hkept⟩ := splitForCapture_move hsplit h
  obtain ⟨s₁, hget₁, hsame₁⟩ := hkept s hget
  have hsame' : SameOwner state s₁ := ⟨hsame₁.1.trans hsame.1, hsame₁.2.1.trans hsame.2.1,
    hsame₁.2.2.trans hsame.2.2⟩
  obtain ⟨h₂, hadds₂, hplaced⟩ := captureParent_move hparent hget₁ hsame' h₁
  obtain ⟨h₃, hadds₃⟩ := captureNode_move hnode hplaced h₂
  obtain ⟨h', hadds⟩ := finishUpdate_move hfinish h₃
  exact ⟨h', ((hadds₁.trans hadds₂).trans hadds₃).trans hadds⟩

theorem updateState_move
    (hupdate : c.updateState turns stop facts index = some (c', next, definite)) :
    Move limit c c' := by
  obtain ⟨state, hget, hupdate⟩ := bind_eq_some_iff.1 hupdate
  obtain ⟨step, -, hupdate⟩ := bind_eq_some_iff.1 hupdate
  have hreset : Move limit c (c.modifyState index ({ · with hasInProgressAlternatives := false })) :=
    move_modifyState c index fun _ => ⟨rfl, rfl, rfl⟩
  simp only at hupdate
  split at hupdate
  · cases hupdate
    exact hreset
  · split at hupdate
    · have hget' : (c.modifyState index ({ · with hasInProgressAlternatives := false })).states[index]? =
          some { state with hasInProgressAlternatives := false } := by
        rw [getElem?_modifyState, hget]
        rfl
      exact hreset.trans (updateMatching_move hupdate hget' ⟨rfl, rfl, rfl⟩)
    · split at hupdate
      · cases hupdate
        exact hreset
      · obtain ⟨c₁, hdiscard, hupdate⟩ := map_eq_some_iff.1 hupdate
        cases hupdate
        exact hreset.trans (discardState_move hdiscard)

theorem updateStates_move : ∀ {turns : Nat} {c c' : TSQueryCursor τ}
    {index : Nat} {didMatch found : Bool},
    updateStates stop facts turns c index didMatch = some (c', found) → Move limit c c' := by
  intro turns
  induction turns with
  | zero =>
    intro c c' index didMatch found h
    cases h
  | succ turns ih =>
    intro c c' index didMatch found h
    rw [updateStates] at h
    split at h
    · obtain ⟨⟨c₁, next, definite⟩, hupdate, h⟩ := bind_eq_some_iff.1 h
      exact (updateState_move hupdate).trans (ih h)
    · cases h
      exact .refl c

/-! ### New states, and longest matches -/

theorem addStateIndex_le {startDepth : Nat} {entry : PatternEntry} :
    ∀ {states : List QueryState}, addStateIndex startDepth entry states = some index →
    index ≤ states.length := by
  intro states
  induction states with
  | nil =>
    intro h
    cases h
    exact le_rfl
  | cons previous rest ih =>
    intro h
    rw [addStateIndex] at h
    split at h
    · cases h
      exact le_rfl
    · split at h
      · split at h
        · cases h
        · split at h
          · cases h
            exact le_rfl
          · exact (ih h).trans (Nat.le_succ _)
      · exact (ih h).trans (Nat.le_succ _)

theorem addState_move {entry : PatternEntry} (hadd : c.addState entry = some c') : Move limit c c' := by
  intro h
  obtain ⟨step, -, hadd⟩ := map_eq_some_iff.1 hadd
  simp only at hadd
  split at hadd
  · subst hadd
    exact ⟨h, .refl c⟩
  · rename_i index hindex
    subst hadd
    have hle := addStateIndex_le hindex
    rw [length_reverse] at hle
    refine ⟨⟨?_, h.spare.insertIdx index fun _ => rfl⟩, adds_none rfl rfl rfl rfl rfl fun _ _ => rfl⟩
    exact h.owned.cons_none.of_perm (listIds_insertIdx_perm (newState _ entry step) hle c.captureListPool).symm

theorem addStates_move {node : NodeContext} (hadd : c.addStates node = some c') : Move limit c c' := by
  obtain ⟨entries, -, hadd⟩ := bind_eq_some_iff.1 hadd
  have hloop : ∀ {entries : List PatternEntry} {c : TSQueryCursor τ},
      entries.foldlM (fun self entry => self.addState entry) c = some c' → Move limit c c' := by
    intro entries
    induction entries with
    | nil =>
      intro c h
      cases h
      exact .refl _
    | cons entry entries ih =>
      intro c h
      rw [foldlM_cons] at h
      obtain ⟨c₁, hentry, h⟩ := bind_eq_some_iff.1 h
      exact (addState_move hentry).trans (ih h)
  exact hloop hadd

theorem insertSorted_perm (states : List QueryState) (state : QueryState) :
    (c.insertSorted states state).Perm (state :: states) := by
  rw [insertSorted]
  refine perm_middle.trans (List.Perm.cons _ (List.Perm.of_eq ?_))
  rw [List.rdropWhile, List.rtakeWhile, ← reverse_append, takeWhile_append_dropWhile,
    reverse_reverse]

theorem foldl_insertSorted_perm : ∀ (states sorted : List QueryState),
    (states.foldl c.insertSorted sorted).Perm (sorted ++ states) := by
  intro states
  induction states with
  | nil =>
    intro sorted
    simp
  | cons state states ih =>
    intro sorted
    rw [foldl_cons]
    refine (ih _).trans (((insertSorted_perm sorted state).append_right states).trans ?_)
    exact perm_middle.symm

theorem sortStatesByCapture_move (c : TSQueryCursor τ) : Move limit c c.sortStatesByCapture := by
  have hperm : c.sortStatesByCapture.states.Perm c.states := foldl_insertSorted_perm c.states []
  exact move_of_states rfl rfl rfl rfl rfl rfl (hperm.map _)
    fun hspare state hstate => hspare state (hperm.subset hstate)

theorem move_setAlternatives (c : TSQueryCursor τ) (index : Nat) (condition : Prop) [Decidable condition] :
    Move limit c (if condition then
      c.modifyState index ({ · with hasInProgressAlternatives := true }) else c) := by
  split
  · exact move_modifyState c index fun _ => ⟨rfl, rfl, rfl⟩
  · exact .refl c

theorem dedupAgainst_move : ∀ {turns : Nat} {c c' : TSQueryCursor τ} {j k : Nat} {removed : Bool},
    dedupAgainst turns c j k = some (c', removed) → Move limit c c' := by
  intro turns
  induction turns with
  | zero =>
    intro c c' j k removed h
    cases h
  | succ turns ih =>
    intro c c' j k removed h
    rw [dedupAgainst] at h
    split at h
    · obtain ⟨state, -, h⟩ := bind_eq_some_iff.1 h
      obtain ⟨other, -, h⟩ := bind_eq_some_iff.1 h
      simp only at h
      split at h
      · cases h
        exact .refl c
      · split at h
        · obtain ⟨c₁, hdiscard, h⟩ := bind_eq_some_iff.1 h
          exact (discardState_move hdiscard).trans (ih h)
        · split at h
          · obtain ⟨c₁, hdiscard, h⟩ := map_eq_some_iff.1 h
            cases h
            exact (move_setAlternatives c k _).trans (discardState_move hdiscard)
          · exact ((move_setAlternatives c k _).trans (move_setAlternatives _ j _)).trans (ih h)
    · cases h
      exact .refl c

theorem finishState_move {finished : Bool} (hfinish : c.finishState index = some (c', finished)) :
    Move limit c c' := by
  obtain ⟨state, hget, hfinish⟩ := bind_eq_some_iff.1 hfinish
  obtain ⟨nextStep, -, hfinish⟩ := bind_eq_some_iff.1 hfinish
  split at hfinish
  · cases hfinish
    exact pushFinishedState_move hget
  · cases hfinish
    exact .refl c

theorem dedupStates_move : ∀ {turns : Nat} {c c' : TSQueryCursor τ} {j : Nat} {didMatch found : Bool},
    dedupStates turns c j didMatch = some (c', found) → Move limit c c' := by
  intro turns
  induction turns with
  | zero =>
    intro c c' j didMatch found h
    cases h
  | succ turns ih =>
    intro c c' j didMatch found h
    rw [dedupStates] at h
    split at h
    · obtain ⟨state, hget, h⟩ := bind_eq_some_iff.1 h
      split at h
      · exact (eraseDead_move hget (by assumption)).trans (ih h)
      · obtain ⟨⟨c₁, removed⟩, hdedup, h⟩ := bind_eq_some_iff.1 h
        have hmove : Move limit c c₁ := dedupAgainst_move hdedup
        simp only at h
        split at h
        · exact hmove.trans (ih h)
        · obtain ⟨⟨c₂, finished⟩, hfinish, h⟩ := bind_eq_some_iff.1 h
          have hmove' := hmove.trans (finishState_move hfinish)
          simp only at h
          split at h
          · exact hmove'.trans (ih h)
          · exact hmove'.trans (ih h)
    · cases h
      exact .refl c

/-! ### The walk over the tree -/

/-- The loop on leaving a node: a state goes on, or is finished, or gives its list back. The lists
of other states do not matter. -/
theorem leaveStates_owned : ∀ {states : List QueryState} {c c' : TSQueryCursor τ}
    {kept : List QueryState} {didMatch : Bool} {others : List Nat},
    leaveStates states c = some (c', kept, didMatch) →
    Owned limit c.captureListPool
      (states.map QueryState.captureListId ++
        (c.finishedStates.map QueryState.captureListId ++ others)) →
    Owned limit c'.captureListPool
      (kept.map QueryState.captureListId ++
        (c'.finishedStates.map QueryState.captureListId ++ others)) ∧
      kept.Sublist states ∧ Adds c c' := by
  intro states
  induction states with
  | nil =>
    intro c c' kept didMatch others hleave howned
    cases hleave
    exact ⟨howned, .refl _, .refl c⟩
  | cons state states ih =>
    intro c c' kept didMatch others hleave howned
    rw [leaveStates] at hleave
    obtain ⟨step, -, hleave⟩ := bind_eq_some_iff.1 hleave
    split at hleave
    · -- the state is finished, and takes its list along
      obtain ⟨⟨c₁, kept₁, found⟩, hrest, hleave⟩ := map_eq_some_iff.1 hleave
      cases hleave
      have hfinish := adds_pushFinishedState c state c.states
      obtain ⟨howned', hsub, hadds⟩ := ih hrest (by
        refine howned.of_perm ?_
        simp only [pushFinishedState, map_cons, map_append, map_nil,
          cons_append, append_assoc, nil_append]
        rw [← append_assoc, ← append_assoc]
        exact perm_middle.symm)
      exact ⟨howned', hsub.cons _, hfinish.trans hadds⟩
    · split at hleave
      · -- the state has failed, and gives its list back
        rw [map_cons, cons_append] at howned
        obtain ⟨howned', hsub, hadds⟩ := ih hleave howned.release
        have hrelease : Adds c
            { c with captureListPool := c.captureListPool.release state.captureListId } := by
          refine adds_none rfl rfl rfl rfl rfl ?_
          intro s hs
          exact howned.get_release (by simpa using .inr (.inl ⟨s, hs, rfl⟩))
        exact ⟨howned', hsub.cons _, hrelease.trans hadds⟩
      · obtain ⟨⟨c₁, kept₁, found⟩, hrest, hleave⟩ := map_eq_some_iff.1 hleave
        cases hleave
        have hperm : ∀ (ids fin : List Nat),
            (state.captureListId :: ids ++ (fin ++ others)).Perm
              (ids ++ (fin ++ state.captureListId :: others)) := by
          intro ids fin
          rw [cons_append, ← append_assoc, ← append_assoc]
          exact perm_middle.symm
        obtain ⟨howned', hsub, hadds⟩ := ih hrest (howned.of_perm (hperm _ _))
        exact ⟨howned'.of_perm (hperm _ _).symm, hsub.cons_cons _, hadds⟩

variable {didMatch : Bool}

theorem leaveNode_move (hleave : c.leaveNode = some (c', didMatch)) :
    Move limit c c' := by
  intro h
  unfold leaveNode at hleave
  split at hleave
  · obtain ⟨⟨c₁, kept, found⟩, hstates, hleave⟩ := map_eq_some_iff.1 hleave
    cases hleave
    have howned := h.owned
    rw [listIds, map_append] at howned
    obtain ⟨howned', hsub, hadds⟩ := leaveStates_owned hstates
      (show Owned limit _ (_ ++ (_ ++ [])) by simpa using howned)
    refine ⟨⟨?_, fun state hstate => h.spare state (hsub.subset hstate)⟩, hadds.finished, hadds.heapSize,
      hadds.lists, hadds.range⟩
    rw [listIds, map_append]
    simpa using howned'
  · cases hleave
    exact ⟨h, .refl c⟩

theorem leave_move (walk : TreeWalk τ) (c : TSQueryCursor τ) : Move limit c (c.leave walk) := by
  unfold leave
  split
  · split <;> exact move_of_same rfl rfl rfl rfl rfl rfl rfl
  · split <;> exact move_of_same rfl rfl rfl rfl rfl rfl rfl
  · split <;> exact move_of_same rfl rfl rfl rfl rfl rfl rfl

variable {walk : TreeWalk τ}

theorem descend_move (hdescend : c.descend walk facts = some c') :
    Move limit c c' := by
  unfold descend at hdescend
  split at hdescend
  · obtain ⟨should, -, hdescend⟩ := map_eq_some_iff.1 hdescend
    subst hdescend
    split
    · split <;> exact move_of_same rfl rfl rfl rfl rfl rfl rfl
    · exact move_of_same rfl rfl rfl rfl rfl rfl rfl
  · cases hdescend
    exact move_of_same rfl rfl rfl rfl rfl rfl rfl

theorem foldr_release_owned {ids : List Nat} : ∀ {states : List QueryState} {pool : CaptureListPool},
    Owned limit pool (states.map QueryState.captureListId ++ ids) →
    Owned limit (states.foldr (fun state pool => pool.release state.captureListId) pool) ids ∧
      ∀ id ∈ ids, (states.foldr (fun state pool => pool.release state.captureListId) pool).get id =
        pool.get id := by
  intro states
  induction states generalizing ids with
  | nil =>
    intro pool h
    exact ⟨h, fun _ _ => rfl⟩
  | cons state states ih =>
    intro pool h
    rw [map_cons, cons_append] at h
    obtain ⟨howned, hget⟩ := ih (h.of_perm perm_middle.symm)
    rw [foldr_cons]
    refine ⟨howned.release, fun id hid => ?_⟩
    rw [howned.get_release hid, hget id (by simp [hid])]

theorem releaseStates_move (c : TSQueryCursor τ) : Move limit c c.releaseStates := by
  intro h
  have howned := h.owned
  rw [listIds, map_append] at howned
  obtain ⟨howned', hget⟩ := foldr_release_owned howned
  exact ⟨⟨howned', fun _ hstate => absurd hstate not_mem_nil⟩,
    adds_none rfl rfl rfl rfl rfl fun state hstate => hget _ (mem_map_of_mem hstate)⟩

theorem enterNode_move (henter : c.enterNode turns stop facts = some (c', didMatch)) :
    Move limit c c' := by
  unfold enterNode at henter
  split at henter
  · obtain ⟨c₁, hadd, henter⟩ := bind_eq_some_iff.1 henter
    obtain ⟨⟨c₂, found⟩, hupdate, hdedup⟩ := bind_eq_some_iff.1 henter
    exact (((addStates_move hadd).trans (updateStates_move hupdate)).trans
      (sortStatesByCapture_move c₂)).trans (dedupStates_move hdedup)
  · cases henter
    exact .refl c

theorem advanceTurn_move (hturn : c.advanceTurn walk turns stop = some (c', didMatch)) :
    Move limit c c' := by
  unfold advanceTurn at hturn
  split at hturn
  · obtain ⟨⟨c₁, found⟩, hleave, hturn⟩ := map_eq_some_iff.1 hturn
    cases hturn
    exact (leaveNode_move hleave).trans (leave_move walk c₁)
  · obtain ⟨⟨c₁, found⟩, henter, hturn⟩ := bind_eq_some_iff.1 hturn
    obtain ⟨c₂, hdescend, hturn⟩ := map_eq_some_iff.1 hturn
    cases hturn
    exact (enterNode_move henter).trans (descend_move hdescend)

theorem beginTurn_move (limit : Nat) (c : TSQueryCursor τ) : Move limit c c.beginTurn := by
  have hrelease : Move limit c (if c.halted then c.releaseStates else c) := by
    split
    · exact releaseStates_move c
    · exact .refl c
  exact hrelease.trans (move_of_same rfl rfl rfl rfl rfl rfl rfl)

theorem askCallback_move (limit : Nat) (c : TSQueryCursor τ) : Move limit c c.askCallback.1 := by
  unfold askCallback
  split
  · split
    · exact move_of_same rfl rfl rfl rfl rfl rfl rfl
    · exact .refl c
  · exact .refl c

theorem advance_move : ∀ {turns : Nat} {c c' : TSQueryCursor τ}
    {didMatch found : Bool},
    advance walk stop turns c didMatch = some (c', found) → Move limit c c' := by
  intro turns
  induction turns with
  | zero =>
    intro c c' didMatch found h
    cases h
  | succ turns ih =>
    intro c c' didMatch found h
    rw [advance] at h
    have hbegin := beginTurn_move limit c
    have hask := askCallback_move limit c.beginTurn
    simp only at h
    split at h
    · cases h
      exact hbegin
    · split at h
      · cases h
        exact hbegin.trans hask
      · obtain ⟨⟨c₁, matched⟩, hturn, h⟩ := bind_eq_some_iff.1 h
        exact ((hbegin.trans hask).trans (advanceTurn_move hturn)).trans (ih h)

end TSQueryCursor

end TreeSitter.Lib
