import TreeSitter.Tags.TagsIter

/-!
# TreeSitter.Tags.StayingEntries

**What is left in the tag queue when the matches run out**, told by the entries that the matches
give: their names and their patterns. An entry stays if it is not passed at any time, no match
behind it has a lower pattern for its name, and it took the place of those before it that had not
been passed either (`Stays`).
-/

namespace TreeSitter.Tags

open List Library

variable {config : TagsConfiguration} {source : List UInt8}

/-! ### What the matches give -/

/-- The entry that a match gives to the queue. -/
def entryOf (config : TagsConfiguration) (source : List UInt8) (it : TagsIter)
    (mat : QueryMatch) : Option (Tag × Nat) :=
  if mat.patternIndex < config.tagsPatternIndex then none
  else (matchTag config source it mat).map fun result => (result.1, mat.patternIndex)

/-- The entries that matches give, in their order. A match also leaves scopes and a line for those
behind it. -/
def entriesOf (config : TagsConfiguration) (source : List UInt8) :
    TagsIter → List QueryMatch → List (Tag × Nat)
  | _, [] => []
  | it, mat :: queryMatches =>
    (entryOf config source it mat).toList ++
      entriesOf config source (takeMatch config source it mat) queryMatches

theorem takeMatch_tagQueue (it : TagsIter) (mat : QueryMatch) :
    (takeMatch config source it mat).tagQueue =
      (entryOf config source it mat).elim it.tagQueue (queueTag · it.tagQueue) := by
  rw [takeMatch, entryOf]
  split
  · rfl
  · cases matchTag config source it mat <;> rfl

theorem patternIndex_of_entryOf {it : TagsIter} {mat : QueryMatch} {entry : Tag × Nat}
    (h : entryOf config source it mat = some entry) : entry.2 = mat.patternIndex := by
  rw [entryOf] at h
  split at h
  · cases h
  · obtain ⟨result, -, rfl⟩ := Option.map_eq_some_iff.mp h
    rfl

/-- Two states have the same scopes, and the same is remembered in them. -/
def SameLine (it it' : TagsIter) : Prop :=
  it.scopes = it'.scopes ∧ it.prevLineInfo = it'.prevLineInfo

variable {it it' : TagsIter} {mat : QueryMatch}

theorem SameLine.matchTag (h : SameLine it it') :
    matchTag config source it mat = matchTag config source it' mat := by
  rw [matchTag.eq_def, matchTag.eq_def, h.1, h.2]

theorem SameLine.takeMatch (h : SameLine it it') :
    SameLine (takeMatch config source it mat) (takeMatch config source it' mat) := by
  rw [Tags.takeMatch, Tags.takeMatch, h.matchTag, h.1]
  split
  · exact ⟨rfl, h.2⟩
  · split
    · exact ⟨rfl, rfl⟩
    · exact h

theorem SameLine.entriesOf (h : SameLine it it') (queryMatches : List QueryMatch) :
    entriesOf config source it queryMatches = entriesOf config source it' queryMatches := by
  induction queryMatches generalizing it it' with
  | nil => rfl
  | cons mat queryMatches ih =>
    rw [Tags.entriesOf, Tags.entriesOf, entryOf, entryOf, h.matchTag, ih h.takeMatch]

/-- Only a match without a tag gives a placeholder: a tag starts in a text of less than
`usize::MAX` bytes. -/
theorem isIgnored_matchTag {result : Tag × Option LineInfo}
    (h : matchTag config source it mat = some result) :
    result.1.isIgnored = (matchParts config mat).tagNode.isNone := by
  rw [matchTag] at h
  split at h
  next nameNode tagNode _ htag =>
    rw [htag]
    split at h
    · cases h
    · split at h
      · cases h
      · cases h
        have hlt : min tagNode.startByte nameNode.startByte < usizeMax :=
          (min_le_right _ _).trans_lt (nameNode.startByte_lt.trans (by decide))
        exact beq_eq_false_iff_ne.mpr hlt.ne
  next htag =>
    rw [htag]
    split at h
    · cases h
      rfl
    · cases h
  next => cases h

/-! ### What stays -/

/-- The last name so far starts behind the name of the entry, and so the entry leaves the queue. -/
def Passed (given : List (Tag × Nat)) (entry : Tag × Nat) : Prop :=
  ∃ last ∈ given, (∀ other ∈ given, queueKey other ≤ queueKey last) ∧
    queueKey entry < queueKey last ∧ entry.1.nameRange.stop < last.1.nameRange.start

/-- The entry is not passed when it is given, nor when one of the entries behind it is. -/
def NeverPassed (before : List (Tag × Nat)) (entry : Tag × Nat) (after : List (Tag × Nat)) :
    Prop :=
  ∀ some, some <+: after → ¬ Passed (before ++ entry :: some) entry

/-- **The entry stays in the queue**: it is never passed, those behind it with its name have no lower
pattern, and those before it with its name have a higher one, unless they had been passed. -/
def Stays (given : List (Tag × Nat)) (entry : Tag × Nat) : Prop :=
  ∃ before after, given = before ++ entry :: after ∧ NeverPassed before entry after ∧
    (∀ other ∈ after, queueKey other = queueKey entry → entry.2 ≤ other.2) ∧
    ∀ front other back, before = front ++ other :: back → queueKey other = queueKey entry →
      NeverPassed front other back → entry.2 < other.2

variable {given : List (Tag × Nat)} {entry other x : Tag × Nat}

theorem stop_eq_of_queueKey_eq (h : queueKey entry = queueKey other) :
    entry.1.nameRange.stop = other.1.nameRange.stop :=
  congrArg (fun key => (ofLex key).1) h

theorem passed_congr (h : queueKey entry = queueKey other) :
    Passed given entry ↔ Passed given other := by
  rw [Passed, Passed, h, stop_eq_of_queueKey_eq h]

theorem Stays.not_passed (h : Stays given entry) : ¬ Passed given entry := by
  obtain ⟨before, after, rfl, hpassed, -⟩ := h
  exact hpassed after (prefix_refl _)

/-- An entry that has not been passed gives way only to one with its name that stays. -/
def Replaced (given : List (Tag × Nat)) : Prop :=
  ∀ front entry back, given = front ++ entry :: back → NeverPassed front entry back →
    ∃ other, Stays given other ∧ queueKey other = queueKey entry ∧ other.2 ≤ entry.2

theorem Replaced.stays_iff (h : Replaced given) :
    Stays (given ++ [entry]) x ↔ ¬ Passed (given ++ [entry]) x ∧
      ((x = entry ∧ ∀ w, Stays given w → queueKey w = queueKey entry → entry.2 < w.2) ∨
        (Stays given x ∧ (queueKey x = queueKey entry → x.2 ≤ entry.2))) := by
  refine ⟨fun hstays => ⟨hstays.not_passed, ?_⟩, ?_⟩
  · obtain ⟨before, after, hgiven, hpassed, hafter, hbefore⟩ := hstays
    rcases eq_nil_or_concat' after with rfl | ⟨after, last, rfl⟩
    · obtain ⟨rfl, hlast⟩ := append_inj' hgiven rfl
      cases hlast
      refine .inl ⟨rfl, fun w hw hkey => ?_⟩
      obtain ⟨front, back, hfront, hback, -⟩ := hw
      exact hbefore front w back hfront hkey hback
    · rw [← cons_append, ← append_assoc] at hgiven
      obtain ⟨rfl, hlast⟩ := append_inj' hgiven rfl
      cases hlast
      refine .inr ⟨⟨before, after, rfl, ?_, ?_, hbefore⟩, fun hkey => ?_⟩
      · exact fun some hsome => hpassed some (hsome.trans (prefix_append _ _))
      · exact fun other hother => hafter other (mem_append_left _ hother)
      · exact hafter entry (mem_append_right _ mem_cons_self) hkey.symm
  · rintro ⟨hpassed, ⟨rfl, hall⟩ | ⟨⟨before, after, rfl, hnever, hafter, hbefore⟩, hkey⟩⟩
    · refine ⟨given, [], rfl, fun some hsome => ?_, by simp, fun front other back hfront hkey
        hnever => ?_⟩
      · rw [prefix_nil.mp hsome]
        exact hpassed
      · obtain ⟨w, hw, hwkey, hle⟩ := h front other back hfront hnever
        exact (hall w hw (hwkey.trans hkey)).trans_le hle
    · refine ⟨before, after ++ [entry], by simp, fun some hsome => ?_, fun other hother => ?_,
        hbefore⟩
      · rcases prefix_concat_iff.mp hsome with rfl | hsome
        · simpa using hpassed
        · exact hnever some hsome
      · rcases mem_append.mp hother with hother | hother
        · exact hafter other hother
        · rw [mem_singleton.mp hother]
          exact fun heq => hkey heq.symm

theorem Replaced.exists_stays (h : Replaced given)
    (hpassed : ¬ Passed (given ++ [entry]) entry) :
    ∃ other, Stays (given ++ [entry]) other ∧ queueKey other = queueKey entry ∧
      other.2 ≤ entry.2 := by
  by_cases hother : ∃ other, Stays given other ∧ queueKey other = queueKey entry ∧
      other.2 ≤ entry.2
  · obtain ⟨other, hstays, hkey, hle⟩ := hother
    exact ⟨other, h.stays_iff.mpr ⟨(passed_congr hkey).not.mpr hpassed, .inr ⟨hstays, fun _ => hle⟩⟩,
      hkey, hle⟩
  · push Not at hother
    exact ⟨entry, h.stays_iff.mpr ⟨hpassed, .inl ⟨rfl, hother⟩⟩, rfl, le_rfl⟩

theorem replaced (given : List (Tag × Nat)) : Replaced given := by
  induction given using List.reverseRecOn with
  | nil =>
    intro front entry back hgiven
    simp at hgiven
  | append_singleton given last ih =>
    intro front entry back hgiven hnever
    have hpassed := hnever back (prefix_refl _)
    rw [← hgiven] at hpassed
    rcases eq_nil_or_concat' back with rfl | ⟨back, behind, rfl⟩
    · obtain ⟨rfl, hlast⟩ := append_inj' hgiven rfl
      cases hlast
      exact ih.exists_stays hpassed
    · rw [← cons_append, ← append_assoc] at hgiven
      obtain ⟨rfl, hlast⟩ := append_inj' hgiven rfl
      cases hlast
      obtain ⟨w, hw, hkey, hle⟩ := ih front entry back rfl fun some hsome =>
        hnever some (hsome.trans (prefix_append _ _))
      by_cases hlower : queueKey w = queueKey last ∧ last.2 < w.2
      · obtain ⟨other, hother, hsame, hless⟩ := ih.exists_stays
          ((passed_congr (hlower.1.symm.trans hkey)).not.mpr hpassed)
        exact ⟨other, hother, hsame.trans (hlower.1.symm.trans hkey),
          hless.trans (hlower.2.le.trans hle)⟩
      · push Not at hlower
        exact ⟨w, ih.stays_iff.mpr ⟨(passed_congr hkey).not.mpr hpassed, .inr ⟨hw, hlower⟩⟩, hkey,
          hle⟩

end TreeSitter.Tags
