import TreeSitter.Tags.StayingEntries

/-!
# TreeSitter.Tags.TagQueue

**What the tag extractor yields.** The queue is sorted at every time, with one entry for each name,
and an entry gives way only to a match for the same name with a lower pattern index. An entry that
leaves the queue is yielded if it is a tag. While there are matches, placeholders are dropped; but
when the queue is drained nothing is dropped any more, so a placeholder that stays until then is
yielded as a tag (`tagsCorrect_iff`).
-/

namespace TreeSitter.Tags

open List Library Lib

variable {config : TagsConfiguration} {source : List UInt8}

/-! ### Runs -/

/-- A **run** without cancellation: the entries that leave the queue in it, and the tags that it
yields. -/
inductive Runs (config : TagsConfiguration) (source : List UInt8) :
    TagsIter → List (Tag × Nat) → List Tag → TagsIter → Prop
  | refl (it : TagsIter) : Runs config source it [] [] it
  | matched {flag : Option Nat} {mat : QueryMatch} {it it' it'' : TagsIter}
      {left : List (Tag × Nat)} {yielded : List Tag} :
      turn config source flag it = .matched mat it' → Runs config source it' left yielded it'' →
        Runs config source it left yielded it''
  | skipped {flag : Option Nat} {entry : Tag × Nat} {it it' it'' : TagsIter}
      {left : List (Tag × Nat)} {yielded : List Tag} :
      turn config source flag it = .skipped entry it' →
        Runs config source it' left yielded it'' →
          Runs config source it (entry :: left) yielded it''
  | yielded {flag : Option Nat} {entry : Tag × Nat} {it it' it'' : TagsIter}
      {left : List (Tag × Nat)} {yielded : List Tag} :
      turn config source flag it = .yielded entry it' →
        Runs config source it' left yielded it'' →
          Runs config source it (entry :: left) (entry.1 :: yielded) it''

/-- The iterator gets to a state. -/
def Reaches (config : TagsConfiguration) (source : List UInt8) (queryMatches : List QueryMatch)
    (it : TagsIter) : Prop :=
  ∃ left yielded, Runs config source (.new source queryMatches) left yielded it

/-- An entry leaves the queue at its front. -/
def Turn.Leaves (result : Turn) (entry : Tag × Nat) (it : TagsIter) : Prop :=
  result = .skipped entry it ∨ result = .yielded entry it

/-- **The extraction is correct**: the queue is sorted by the ends and the starts of the names, an
entry is replaced only by a match for its name with a lower pattern index, entries leave at the
front, the iteration comes to its end, and what is yielded are the tags among the entries that
left. -/
structure TagsCorrect (config : TagsConfiguration) (source : List UInt8)
    (queryMatches : List QueryMatch) : Prop where
  sorted : ∀ it, Reaches config source queryMatches it → SortedByKey queueKey it.tagQueue
  replaced : ∀ it flag mat it', Reaches config source queryMatches it →
    turn config source flag it = .matched mat it' → ∀ entry ∈ it.tagQueue,
      entry ∉ it'.tagQueue → ∃ tag, (tag, mat.patternIndex) ∈ it'.tagQueue ∧
        tag.nameRange = entry.1.nameRange ∧ mat.patternIndex < entry.2
  left : ∀ it flag entry it', Reaches config source queryMatches it →
    (turn config source flag it).Leaves entry it' → it.tagQueue = entry :: it'.tagQueue
  finishes : ∃ left yielded it it',
    Runs config source (.new source queryMatches) left yielded it ∧
      turn config source none it = .finished it'
  yielded : ∀ left yielded it flag it',
    Runs config source (.new source queryMatches) left yielded it →
      turn config source flag it = .finished it' → it'.tagQueue = [] ∧
        yielded.Perm ((left.map Prod.fst).filter fun tag => !tag.isIgnored)

/-- The queue is about to be drained: there is no match left, and no name ends before the last one
starts. -/
def Drains (it : TagsIter) : Prop := it.queryMatches = [] ∧ ¬ hasEarlierTag it.tagQueue

/-- The queue that is drained has no placeholder in it. -/
def DrainsTags (config : TagsConfiguration) (source : List UInt8)
    (queryMatches : List QueryMatch) : Prop :=
  ∀ it, Reaches config source queryMatches it → Drains it → ∀ entry ∈ it.tagQueue,
    ¬ entry.1.isIgnored

/-! ### Turns -/

theorem takeMatch_queryMatches (it : TagsIter) (mat : QueryMatch) :
    (takeMatch config source it mat).queryMatches = it.queryMatches := by
  rw [takeMatch]
  split
  · rfl
  · split
    · rfl
    · rfl

/-- What is left to do: a match may put an entry into the queue, which leaves it in its turn. -/
def TagsIter.size (it : TagsIter) : Nat := 2 * it.queryMatches.length + it.tagQueue.length

/-- What a turn can do. -/
inductive TurnSpec (config : TagsConfiguration) (source : List UInt8) (it : TagsIter) : Turn → Prop
  | cancelled (it' : TagsIter) : TurnSpec config source it (.cancelled it')
  | skipped {entry : Tag × Nat} {queue : List (Tag × Nat)} (count : Nat)
      (hearlier : hasEarlierTag it.tagQueue) (hqueue : it.tagQueue = entry :: queue)
      (hignored : entry.1.isIgnored) : TurnSpec config source it
        (.skipped entry { it with iterCount := count, tagQueue := queue })
  | yielded {entry : Tag × Nat} {queue : List (Tag × Nat)} (count : Nat)
      (hqueue : it.tagQueue = entry :: queue)
      (htag : hasEarlierTag it.tagQueue ∧ ¬ entry.1.isIgnored ∨ Drains it) :
      TurnSpec config source it
        (.yielded entry { it with iterCount := count, tagQueue := queue })
  | matched {mat : QueryMatch} {queryMatches : List QueryMatch} (count : Nat)
      (hearlier : ¬ hasEarlierTag it.tagQueue) (hmatches : it.queryMatches = mat :: queryMatches) :
      TurnSpec config source it (.matched mat
        (takeMatch config source { it with iterCount := count, queryMatches := queryMatches } mat))
  | finished (count : Nat) (hdrains : Drains it) (hqueue : it.tagQueue = []) :
      TurnSpec config source it (.finished { it with iterCount := count })

theorem turnTags_spec (it : TagsIter) (count : Nat) :
    TurnSpec config source it (turnTags config source { it with iterCount := count }) := by
  rw [turnTags]
  split
  next hearlier =>
    split
    next entry queue hqueue =>
      split
      next hignored => exact .skipped count hearlier hqueue hignored
      next hignored => exact .yielded count hqueue (.inl ⟨hearlier, hignored⟩)
    next hqueue =>
      rw [hqueue] at hearlier
      cases hearlier
  next hearlier =>
    split
    next mat queryMatches hmatches => exact .matched count hearlier hmatches
    next hmatches =>
      split
      next entry queue hqueue => exact .yielded count hqueue (.inr ⟨hmatches, hearlier⟩)
      next hqueue => exact .finished count ⟨hmatches, hearlier⟩ hqueue

/-- **One turn.** The check for cancellation changes nothing but a count. -/
theorem turn_spec (config : TagsConfiguration) (source : List UInt8) (flag : Option Nat)
    (it : TagsIter) : TurnSpec config source it (turn config source flag it) := by
  cases flag with
  | none => exact turnTags_spec it it.iterCount
  | some value =>
    rw [turn.eq_def]
    dsimp only
    split
    · split
      · exact .cancelled _
      · exact turnTags_spec it 0
    · exact turnTags_spec it _

variable {it it' it'' : TagsIter} {flag : Option Nat} {entry : Tag × Nat} {mat : QueryMatch}
  {queryMatches : List QueryMatch} {left left' : List (Tag × Nat)} {yielded yielded' : List Tag}

theorem turn_skipped (h : turn config source flag it = .skipped entry it') :
    it.tagQueue = entry :: it'.tagQueue ∧ entry.1.isIgnored := by
  have hspec := turn_spec config source flag it
  rw [h] at hspec
  cases hspec with
  | skipped _ _ hqueue hignored => exact ⟨hqueue, hignored⟩

theorem turn_yielded (h : turn config source flag it = .yielded entry it') :
    it.tagQueue = entry :: it'.tagQueue ∧ (¬ entry.1.isIgnored ∨ Drains it) := by
  have hspec := turn_spec config source flag it
  rw [h] at hspec
  cases hspec with
  | yielded _ hqueue htag => exact ⟨hqueue, htag.imp_left And.right⟩

/-- An entry leaves the front of the queue and nothing else changes. It is passed, or the queue is
drained. -/
theorem turn_leaves (h : (turn config source flag it).Leaves entry it') :
    it.tagQueue = entry :: it'.tagQueue ∧ (hasEarlierTag it.tagQueue ∨ Drains it) ∧
      it'.queryMatches = it.queryMatches ∧ SameLine it' it := by
  have hspec := turn_spec config source flag it
  rcases h with h | h
  · rw [h] at hspec
    cases hspec with
    | skipped _ hearlier hqueue _ => exact ⟨hqueue, .inl hearlier, rfl, rfl, rfl⟩
  · rw [h] at hspec
    cases hspec with
    | yielded _ hqueue htag => exact ⟨hqueue, htag.imp_left And.left, rfl, rfl, rfl⟩

theorem turn_matched (h : turn config source flag it = .matched mat it') :
    ¬ hasEarlierTag it.tagQueue ∧ it.queryMatches = mat :: it'.queryMatches ∧
      it'.tagQueue = (entryOf config source it mat).elim it.tagQueue (queueTag · it.tagQueue) ∧
      SameLine it' (takeMatch config source it mat) := by
  have hspec := turn_spec config source flag it
  rw [h] at hspec
  cases hspec with
  | @matched _ queryMatches count hearlier hmatches =>
    have hsame : SameLine { it with iterCount := count, queryMatches := queryMatches } it :=
      ⟨rfl, rfl⟩
    refine ⟨hearlier, by rw [hmatches, takeMatch_queryMatches], ?_, hsame.takeMatch⟩
    rw [takeMatch_tagQueue, entryOf, entryOf, hsame.matchTag]

theorem turn_finished (h : turn config source flag it = .finished it') :
    it.queryMatches = [] ∧ it'.tagQueue = [] := by
  have hspec := turn_spec config source flag it
  rw [h] at hspec
  cases hspec with
  | finished _ hdrains hqueue => exact ⟨hdrains.1, hqueue⟩

theorem size_lt_of_leaves (h : (turn config source flag it).Leaves entry it') :
    it'.size < it.size := by
  obtain ⟨hqueue, -, hmatches, -⟩ := turn_leaves h
  rw [TagsIter.size, TagsIter.size, hqueue, hmatches, length_cons]
  exact Nat.lt_succ_self _

theorem size_lt_of_matched (h : turn config source flag it = .matched mat it') :
    it'.size < it.size := by
  obtain ⟨-, hmatches, hqueue, -⟩ := turn_matched h
  have hle : it'.tagQueue.length ≤ it.tagQueue.length + 1 := by
    rw [hqueue]
    cases entryOf config source it mat with
    | none => exact Nat.le_succ _
    | some entry => exact length_upsert_le _
  rw [TagsIter.size, TagsIter.size, hmatches, length_cons]
  omega

/-! ### The queue in a run -/

theorem Runs.append (h : Runs config source it left yielded it')
    (h' : Runs config source it' left' yielded' it'') :
    Runs config source it (left ++ left') (yielded ++ yielded') it'' := by
  induction h with
  | refl => exact h'
  | matched hturn _ ih => exact .matched hturn (ih h')
  | skipped hturn _ ih => exact .skipped hturn (ih h')
  | yielded hturn _ ih => exact .yielded hturn (ih h')

theorem Reaches.append (h : Reaches config source queryMatches it)
    (h' : Runs config source it left yielded it') : Reaches config source queryMatches it' := by
  obtain ⟨left, yielded, hruns⟩ := h
  exact ⟨_, _, hruns.append h'⟩

theorem sorted_of_leaves (h : SortedByKey queueKey it.tagQueue)
    (hturn : (turn config source flag it).Leaves entry it') :
    SortedByKey queueKey it'.tagQueue := by
  rw [(turn_leaves hturn).1] at h
  exact (pairwise_cons.mp h).2

theorem sorted_of_matched (h : SortedByKey queueKey it.tagQueue)
    (hturn : turn config source flag it = .matched mat it') :
    SortedByKey queueKey it'.tagQueue := by
  obtain ⟨-, -, hqueue, -⟩ := turn_matched hturn
  rw [hqueue]
  cases entryOf config source it mat with
  | none => exact h
  | some entry => exact h.upsert

/-- **The queue stays sorted in a run.** -/
theorem Runs.sorted (h : Runs config source it left yielded it')
    (hsorted : SortedByKey queueKey it.tagQueue) : SortedByKey queueKey it'.tagQueue := by
  induction h with
  | refl => exact hsorted
  | matched hturn _ ih =>
    exact ih (sorted_of_matched hsorted hturn)
  | skipped hturn _ ih => exact ih (sorted_of_leaves hsorted (.inl hturn))
  | yielded hturn _ ih => exact ih (sorted_of_leaves hsorted (.inr hturn))

theorem Reaches.sorted (h : Reaches config source queryMatches it) :
    SortedByKey queueKey it.tagQueue := by
  obtain ⟨left, yielded, hruns⟩ := h
  exact hruns.sorted List.Pairwise.nil

theorem nameRange_eq_of_queueKey_eq {entry entry' : Tag × Nat}
    (h : queueKey entry = queueKey entry') : entry.1.nameRange = entry'.1.nameRange := by
  rw [queueKey, queueKey, toLex_inj, Prod.mk.injEq] at h
  generalize entry.1.nameRange = range at h
  generalize entry'.1.nameRange = range' at h
  obtain ⟨start, stop⟩ := range
  obtain ⟨start', stop'⟩ := range'
  rw [ByteRange.mk.injEq]
  exact h.symm

/-- **A match replaces an entry** only if it is for the same name and has a lower pattern index. -/
theorem replaced_of_matched (h : turn config source flag it = .matched mat it')
    (hmem : entry ∈ it.tagQueue) (hgone : entry ∉ it'.tagQueue) :
    ∃ tag, (tag, mat.patternIndex) ∈ it'.tagQueue ∧ tag.nameRange = entry.1.nameRange ∧
      mat.patternIndex < entry.2 := by
  obtain ⟨-, -, hqueue, -⟩ := turn_matched h
  rw [hqueue] at hgone ⊢
  cases hentry : entryOf config source it mat with
  | none =>
    rw [hentry] at hgone
    exact absurd hmem hgone
  | some new =>
    rw [hentry] at hgone
    obtain ⟨hnew, hkey, hbetter⟩ := of_not_mem_upsert hmem hgone
    have hpattern := patternIndex_of_entryOf hentry
    exact ⟨new.1, hpattern ▸ hnew, (nameRange_eq_of_queueKey_eq hkey).symm,
      hpattern ▸ of_decide_eq_true hbetter⟩

theorem turn_none_ne_cancelled (it it' : TagsIter) :
    turn config source none it ≠ .cancelled it' := by
  show turnTags config source it ≠ _
  rw [turnTags]
  split
  · split
    · split <;> exact nofun
    · exact nofun
  · split
    · exact nofun
    · split <;> exact nofun

/-! ### What is in the queue -/

theorem hasEarlierTag_cons {queue : List (Tag × Nat)} :
    hasEarlierTag (entry :: queue) ↔
      ∃ last ∈ queue.getLast?, entry.1.nameRange.stop < last.1.nameRange.start := by
  cases queue with
  | nil => simp [hasEarlierTag]
  | cons next queue =>
    obtain ⟨last, hlast⟩ := Option.isSome_iff_exists.mp
      (getLast?_isSome.mpr (cons_ne_nil next queue))
    simp [hasEarlierTag, getLast?_cons_cons, hlast]

theorem le_getLast_of_sorted {queue : List (Tag × Nat)} {last : Tag × Nat}
    (h : SortedByKey queueKey queue) (hlast : queue.getLast? = some last) (hmem : entry ∈ queue) :
    queueKey entry ≤ queueKey last := by
  obtain ⟨front, rfl⟩ := getLast?_eq_some_iff.mp hlast
  rcases mem_append.mp hmem with hmem | hmem
  · exact ((pairwise_append.mp h).2.2 entry hmem last mem_cons_self).le
  · rw [mem_singleton.mp hmem]

/-- **What the queue holds** of the entries that have been given: those that stay, beside some that
have been passed and have not left yet. -/
structure QueueHolds (given queue : List (Tag × Nat)) : Prop where
  mem_given : ∀ entry ∈ queue, entry ∈ given
  greatest : ∀ other ∈ given, ∃ last ∈ queue.getLast?, queueKey other ≤ queueKey last
  mem_iff : ∀ entry, ¬ Passed given entry → (entry ∈ queue ↔ Stays given entry)

variable {given queue : List (Tag × Nat)}

/-- While the first name ends before the last one starts, its entry has been passed. -/
theorem QueueHolds.passed (h : QueueHolds given (entry :: queue))
    (hsorted : SortedByKey queueKey (entry :: queue)) (hearlier : hasEarlierTag (entry :: queue)) :
    Passed given entry := by
  obtain ⟨last, hlast, hlt⟩ := hasEarlierTag_cons.mp hearlier
  have hmem : last ∈ queue := mem_of_getLast? hlast
  refine ⟨last, h.mem_given last (mem_cons_of_mem _ hmem), fun other hother => ?_,
    (pairwise_cons.mp hsorted).1 last hmem, hlt⟩
  obtain ⟨last', hlast', hle⟩ := h.greatest other hother
  rw [getLast?_cons, Option.mem_def.mp hlast] at hlast'
  cases hlast'
  exact hle

theorem QueueHolds.not_passed (h : QueueHolds given queue) (hsorted : SortedByKey queueKey queue)
    (hearlier : ¬ hasEarlierTag queue) (hmem : entry ∈ queue) : ¬ Passed given entry := by
  rintro ⟨greatest, hgreatest, hall, hkey, hlt⟩
  obtain ⟨last, hlast, hle⟩ := h.greatest greatest hgreatest
  have hsame : queueKey greatest = queueKey last :=
    le_antisymm hle (hall last (h.mem_given last (mem_of_getLast? hlast)))
  have hstart : greatest.1.nameRange.start = last.1.nameRange.start :=
    congrArg (fun key => (ofLex key).2) hsame
  cases queue with
  | nil => cases hmem
  | cons first queue =>
    have hne : queue ≠ [] := by
      rintro rfl
      cases hlast
      rw [mem_singleton.mp hmem, hsame] at hkey
      exact lt_irrefl _ hkey
    have hlast' : last ∈ queue.getLast? := by
      obtain ⟨last', hlast'⟩ := Option.isSome_iff_exists.mp (getLast?_isSome.mpr hne)
      rw [getLast?_cons, hlast'] at hlast
      exact hlast'.trans hlast
    refine hearlier (hasEarlierTag_cons.mpr ⟨last, hlast', ?_⟩)
    rw [← hstart]
    refine lt_of_le_of_lt ?_ hlt
    rcases mem_cons.mp hmem with rfl | hmem
    · exact le_rfl
    · have hfirst := (pairwise_cons.mp hsorted).1 entry hmem
      rw [queueKey, queueKey, Prod.Lex.toLex_lt_toLex] at hfirst
      exact hfirst.elim le_of_lt fun heq => heq.1.le

theorem QueueHolds.tail (h : QueueHolds given (entry :: queue))
    (hsorted : SortedByKey queueKey (entry :: queue)) (hearlier : hasEarlierTag (entry :: queue)) :
    QueueHolds given queue := by
  have hpassed := h.passed hsorted hearlier
  obtain ⟨last, hlast, -⟩ := hasEarlierTag_cons.mp hearlier
  refine ⟨fun other hmem => h.mem_given other (mem_cons_of_mem _ hmem), fun other hother => ?_,
    fun other hother => ?_⟩
  · obtain ⟨last', hlast', hle⟩ := h.greatest other hother
    rw [getLast?_cons, Option.mem_def.mp hlast] at hlast'
    cases hlast'
    exact ⟨last, hlast, hle⟩
  · rw [← h.mem_iff other hother, mem_cons, or_iff_right]
    rintro rfl
    exact hother hpassed

theorem QueueHolds.queueTag (h : QueueHolds given queue) (hsorted : SortedByKey queueKey queue)
    (hearlier : ¬ hasEarlierTag queue) (entry : Tag × Nat) :
    QueueHolds (given ++ [entry]) (queueTag entry queue) := by
  have hmem {x : Tag × Nat} := @mem_upsert_iff _ _ _ _ isBetter entry queue x hsorted
  have hstays (w : Tag × Nat) : w ∈ queue ↔ Stays given w :=
    ⟨fun hw => (h.mem_iff w (h.not_passed hsorted hearlier hw)).mp hw,
      fun hw => (h.mem_iff w hw.not_passed).mpr hw⟩
  -- Every key is still in the queue.
  have hkeys {x : Tag × Nat} (hx : x ∈ queue ∨ x = entry) :
      ∃ y ∈ Tags.queueTag entry queue, queueKey y = queueKey x := by
    by_cases hall : ∀ w ∈ queue, queueKey w = queueKey entry → isBetter entry w
    · rcases hx with hx | rfl
      · by_cases hkey : queueKey x = queueKey entry
        · exact ⟨entry, hmem.mpr (.inl ⟨rfl, hall⟩), hkey.symm⟩
        · exact ⟨x, hmem.mpr (.inr ⟨hx, fun hsame => absurd hsame hkey⟩), rfl⟩
      · exact ⟨x, hmem.mpr (.inl ⟨rfl, hall⟩), rfl⟩
    · push Not at hall
      obtain ⟨w, hw, hkey, hworse⟩ := hall
      have hkept : w ∈ Tags.queueTag entry queue :=
        hmem.mpr (.inr ⟨hw, fun _ => by simpa using hworse⟩)
      rcases hx with hx | rfl
      · by_cases hsame : queueKey x = queueKey entry
        · exact ⟨w, hkept, hkey.trans hsame.symm⟩
        · exact ⟨x, hmem.mpr (.inr ⟨hx, fun heq => absurd heq hsame⟩), rfl⟩
      · exact ⟨w, hkept, hkey⟩
  refine ⟨fun x hx => ?_, fun other hother => ?_, fun x hpassed => ?_⟩
  · rcases hmem.mp hx with ⟨rfl, -⟩ | ⟨hx, -⟩
    · exact mem_append_right _ mem_cons_self
    · exact mem_append_left _ (h.mem_given x hx)
  · have hle : ∃ y ∈ Tags.queueTag entry queue, queueKey other ≤ queueKey y := by
      rcases mem_append.mp hother with hother | hother
      · obtain ⟨last, hlast, hle⟩ := h.greatest other hother
        obtain ⟨y, hy, hkey⟩ := hkeys (.inl (mem_of_getLast? hlast))
        exact ⟨y, hy, hkey ▸ hle⟩
      · obtain ⟨y, hy, hkey⟩ := hkeys (.inr (mem_singleton.mp hother))
        exact ⟨y, hy, hkey.ge⟩
    obtain ⟨y, hy, hle⟩ := hle
    obtain ⟨last, hlast⟩ := Option.isSome_iff_exists.mp (getLast?_isSome.mpr (ne_nil_of_mem hy))
    exact ⟨last, hlast, hle.trans (le_getLast_of_sorted hsorted.upsert hlast hy)⟩
  · rw [(replaced given).stays_iff, and_iff_right hpassed]
    refine hmem.trans ?_
    simp only [hstays, isBetter, decide_eq_true_eq, not_lt, gt_iff_lt]

/-- What has been given, of all that the matches give, and what the queue holds of it. -/
def RunHolds (config : TagsConfiguration) (source : List UInt8) (all : List (Tag × Nat))
    (it : TagsIter) : Prop :=
  ∃ given, all = given ++ entriesOf config source it it.queryMatches ∧
    QueueHolds given it.tagQueue

variable {all : List (Tag × Nat)}

theorem RunHolds.matched (h : RunHolds config source all it)
    (hsorted : SortedByKey queueKey it.tagQueue)
    (hturn : turn config source flag it = .matched mat it') : RunHolds config source all it' := by
  obtain ⟨given, rfl, hholds⟩ := h
  obtain ⟨hearlier, hmatches, hqueue, hsame⟩ := turn_matched hturn
  rw [hmatches, entriesOf, ← hsame.entriesOf]
  cases hentry : entryOf config source it mat with
  | none =>
    rw [hentry] at hqueue
    exact ⟨given, rfl, hqueue ▸ hholds⟩
  | some entry =>
    rw [hentry] at hqueue
    refine ⟨given ++ [entry], by simp, ?_⟩
    rw [hqueue]
    exact hholds.queueTag hsorted hearlier entry

theorem RunHolds.leaves (h : RunHolds config source all it)
    (hsorted : SortedByKey queueKey it.tagQueue) (hearlier : hasEarlierTag it.tagQueue)
    (hturn : (turn config source flag it).Leaves entry it') : RunHolds config source all it' := by
  obtain ⟨given, rfl, hholds⟩ := h
  obtain ⟨hqueue, -, hmatches, hsame⟩ := turn_leaves hturn
  rw [hqueue] at hholds hsorted hearlier
  exact ⟨given, by rw [hmatches, hsame.entriesOf], hholds.tail hsorted hearlier⟩

/-- When the queue is about to be drained for the first time, it holds what stays. -/
theorem RunHolds.mem_iff (h : RunHolds config source all it)
    (hsorted : SortedByKey queueKey it.tagQueue) (hdrains : Drains it) :
    entry ∈ it.tagQueue ↔ Stays all entry := by
  obtain ⟨given, hall, hholds⟩ := h
  rw [hdrains.1, entriesOf, append_nil] at hall
  subst hall
  exact ⟨fun hmem => (hholds.mem_iff entry (hholds.not_passed hsorted hdrains.2 hmem)).mp hmem,
    fun hstays => (hholds.mem_iff entry hstays.not_passed).mpr hstays⟩

theorem RunHolds.exists_drains (h : RunHolds config source all it)
    (hsorted : SortedByKey queueKey it.tagQueue) : ∃ left yielded it',
      Runs config source it left yielded it' ∧ Drains it' ∧
        ∀ entry, entry ∈ it'.tagQueue ↔ Stays all entry := by
  induction hsize : it.size using Nat.strong_induction_on generalizing it with
  | _ size ih =>
    subst hsize
    by_cases hdrains : Drains it
    · exact ⟨[], [], it, .refl _, hdrains, fun entry => h.mem_iff hsorted hdrains⟩
    have hleaves {entry : Tag × Nat} {it₁ : TagsIter}
        (hleaves : (turn config source none it).Leaves entry it₁) :=
      ih _ (size_lt_of_leaves hleaves)
        (h.leaves hsorted ((turn_leaves hleaves).2.1.resolve_right hdrains) hleaves)
        (sorted_of_leaves hsorted hleaves) rfl
    cases hturn : turn config source none it with
    | cancelled it' => exact absurd hturn (turn_none_ne_cancelled it it')
    | finished it' =>
      have hspec := turn_spec config source none it
      rw [hturn] at hspec
      cases hspec with
      | finished _ hdrained => exact absurd hdrained hdrains
    | matched mat it₁ =>
      obtain ⟨left, yielded, it', hruns, hend⟩ := ih _ (size_lt_of_matched hturn)
        (h.matched hsorted hturn) (sorted_of_matched hsorted hturn) rfl
      exact ⟨left, yielded, it', .matched hturn hruns, hend⟩
    | skipped entry it₁ =>
      obtain ⟨left, yielded, it', hruns, hend⟩ := hleaves (.inl hturn)
      exact ⟨entry :: left, yielded, it', .skipped hturn hruns, hend⟩
    | yielded entry it₁ =>
      obtain ⟨left, yielded, it', hruns, hend⟩ := hleaves (.inr hturn)
      exact ⟨entry :: left, entry.1 :: yielded, it', .yielded hturn hruns, hend⟩

/-- The queue holds what has been given, or it is being drained of what stays. -/
def HoldsOrDrains (config : TagsConfiguration) (source : List UInt8) (all : List (Tag × Nat))
    (it : TagsIter) : Prop :=
  RunHolds config source all it ∨
    (it.queryMatches = [] ∧ ∀ entry ∈ it.tagQueue, Stays all entry)

theorem HoldsOrDrains.leaves (h : HoldsOrDrains config source all it)
    (hsorted : SortedByKey queueKey it.tagQueue)
    (hturn : (turn config source flag it).Leaves entry it') :
    HoldsOrDrains config source all it' := by
  obtain ⟨hqueue, hwhen, hmatches, -⟩ := turn_leaves hturn
  have hsub {other : Tag × Nat} (hmem : other ∈ it'.tagQueue) : other ∈ it.tagQueue :=
    hqueue ▸ mem_cons_of_mem _ hmem
  rcases h with hholds | ⟨hnone, hstays⟩
  · by_cases hearlier : hasEarlierTag it.tagQueue
    · exact .inl (hholds.leaves hsorted hearlier hturn)
    · have hdrains := hwhen.resolve_left hearlier
      exact .inr ⟨hmatches.trans hdrains.1,
        fun other hmem => (hholds.mem_iff hsorted hdrains).mp (hsub hmem)⟩
  · exact .inr ⟨hmatches.trans hnone, fun other hmem => hstays other (hsub hmem)⟩

theorem Runs.holdsOrDrains (h : Runs config source it left yielded it')
    (hsorted : SortedByKey queueKey it.tagQueue) (hholds : HoldsOrDrains config source all it) :
    HoldsOrDrains config source all it' := by
  induction h with
  | refl => exact hholds
  | matched hturn _ ih =>
    refine ih (sorted_of_matched hsorted hturn) ?_
    rcases hholds with hholds | ⟨hnone, -⟩
    · exact .inl (hholds.matched hsorted hturn)
    · rw [(turn_matched hturn).2.1] at hnone
      cases hnone
  | skipped hturn _ ih =>
    exact ih (sorted_of_leaves hsorted (.inl hturn)) (hholds.leaves hsorted (.inl hturn))
  | yielded hturn _ ih =>
    exact ih (sorted_of_leaves hsorted (.inr hturn)) (hholds.leaves hsorted (.inr hturn))

theorem runHolds_new (source : List UInt8) (queryMatches : List QueryMatch) :
    RunHolds config source
      (entriesOf config source (.new source queryMatches) queryMatches)
      (.new source queryMatches) := by
  refine ⟨[], rfl, by simp [TagsIter.new], by simp, fun entry _ => ?_⟩
  refine iff_of_false not_mem_nil ?_
  rintro ⟨before, after, hnil, -⟩
  simp at hnil

/-- **The placeholders that stay are what is drained.** -/
theorem drainsTags_iff : DrainsTags config source queryMatches ↔
    ∀ entry, Stays (entriesOf config source (.new source queryMatches) queryMatches) entry →
      ¬ entry.1.isIgnored := by
  have hnew := @runHolds_new config source queryMatches
  constructor
  · intro h entry hstays
    obtain ⟨left, yielded, it, hruns, hdrains, hmem⟩ := hnew.exists_drains .nil
    exact h it ⟨left, yielded, hruns⟩ hdrains entry ((hmem entry).mpr hstays)
  · rintro h it ⟨left, yielded, hruns⟩ hdrains entry hmem
    refine h entry ?_
    rcases hruns.holdsOrDrains .nil (.inl hnew) with hholds | ⟨-, hstays⟩
    · exact (hholds.mem_iff (hruns.sorted .nil) hdrains).mp hmem
    · exact hstays entry hmem

/-! ### What is yielded -/

/-- Once the queue is drained, all of it is: the names behind the first one end behind it. -/
theorem not_hasEarlierTag_tail {queue : List (Tag × Nat)}
    (hsorted : SortedByKey queueKey (entry :: queue))
    (h : ¬ hasEarlierTag (entry :: queue)) : ¬ hasEarlierTag queue := by
  cases queue with
  | nil => simp [hasEarlierTag]
  | cons next queue =>
    have hkey := (pairwise_cons.mp hsorted).1 next mem_cons_self
    rw [queueKey, queueKey, Prod.Lex.toLex_lt_toLex] at hkey
    have hle : entry.1.nameRange.stop ≤ next.1.nameRange.stop := by
      rcases hkey with hkey | hkey
      · exact le_of_lt hkey
      · exact le_of_eq hkey.1
    simp only [hasEarlierTag, getLast?_cons_cons] at h ⊢
    cases hlast : (next :: queue).getLast? with
    | none => simp
    | some last =>
      rw [hlast] at h
      simp only [length_cons, Bool.and_eq_true, decide_eq_true_eq, not_and,
        not_lt] at h ⊢
      intro hlength
      exact (h (by omega)).trans hle

/-- **Draining** yields the whole queue. -/
theorem runs_drain (queue : List (Tag × Nat)) : ∀ it : TagsIter, it.tagQueue = queue →
    SortedByKey queueKey it.tagQueue → Drains it →
      Runs config source it queue (queue.map Prod.fst) { it with tagQueue := [] } := by
  induction queue with
  | nil =>
    intro it hqueue _ _
    obtain ⟨queryMatches, prevLineInfo, iterCount, tagQueue, scopes⟩ := it
    cases hqueue
    exact .refl _
  | cons entry queue ih =>
    intro it hqueue hsorted hdrains
    rw [hqueue] at hsorted
    have hturn : turn config source none it =
        .yielded entry { it with tagQueue := queue } := by
      show turnTags config source it = _
      rw [turnTags, if_neg hdrains.2, hdrains.1, hqueue]
    have htail : Drains { it with tagQueue := queue } :=
      ⟨hdrains.1, not_hasEarlierTag_tail hsorted (hqueue ▸ hdrains.2)⟩
    exact .yielded hturn (ih _ rfl (pairwise_cons.mp hsorted).2 htail)

theorem turn_drained (hdrains : Drains it) :
    turn config source none { it with tagQueue := [] } = .finished { it with tagQueue := [] } := by
  show turnTags config source { it with tagQueue := [] } = _
  rw [turnTags, if_neg (by simp [hasEarlierTag])]
  simp only [hdrains.1]

/-- **The iteration comes to its end**, behind the last entry of the queue that is drained. -/
theorem exists_finished (source : List UInt8) (queryMatches : List QueryMatch) :
    ∃ left yielded it it', Runs config source (.new source queryMatches) left yielded it ∧
      turn config source none it = .finished it' := by
  have hnew := @runHolds_new config source queryMatches
  obtain ⟨left, yielded, it, hruns, hdrains, -⟩ := hnew.exists_drains .nil
  exact ⟨_, _, _, _, hruns.append (runs_drain it.tagQueue it rfl (hruns.sorted .nil) hdrains),
    turn_drained hdrains⟩

/-- **What is yielded** if only tags are drained: the tags among the entries that left. -/
theorem Runs.yielded_eq (hdrains : DrainsTags config source queryMatches)
    (h : Runs config source it left yielded it')
    (hreaches : Reaches config source queryMatches it) :
    yielded = (left.map Prod.fst).filter fun tag => !tag.isIgnored := by
  induction h with
  | refl => rfl
  | matched hturn hruns ih => exact ih (hreaches.append (.matched hturn (.refl _)))
  | skipped hturn hruns ih =>
    rw [ih (hreaches.append (.skipped hturn (.refl _))), map_cons,
      filter_cons_of_neg (by simp [(turn_skipped hturn).2])]
  | yielded hturn hruns ih =>
    obtain ⟨hqueue, htag⟩ := turn_yielded hturn
    have hignored := htag.elim id fun hdrain =>
      hdrains _ hreaches hdrain _ (hqueue ▸ mem_cons_self)
    rw [ih (hreaches.append (.yielded hturn (.refl _))), map_cons,
      filter_cons_of_pos (by simpa using hignored)]

/-- **When the extraction is correct.** Sorting and replacing always are. What is yielded is right
if and only if no placeholder among what the matches give stays in the queue to the end. -/
theorem tagsCorrect_iff (config : TagsConfiguration) (source : List UInt8)
    (queryMatches : List QueryMatch) :
    TagsCorrect config source queryMatches ↔
      ∀ entry, Stays (entriesOf config source (.new source queryMatches) queryMatches) entry →
        ¬ entry.1.isIgnored := by
  rw [← drainsTags_iff]
  constructor
  · intro h it hreaches hdrains entry hmem hignored
    obtain ⟨left, yielded, hruns⟩ := hreaches
    have hdrained := @runs_drain config source it.tagQueue it rfl
      (h.sorted it ⟨left, yielded, hruns⟩) hdrains
    obtain ⟨-, hperm⟩ := h.yielded _ _ _ _ _ (hruns.append hdrained) (turn_drained hdrains)
    have hyielded : entry.1 ∈ yielded ++ it.tagQueue.map Prod.fst :=
      mem_append_right _ (mem_map_of_mem hmem)
    have hkept := (mem_filter.mp (hperm.mem_iff.mp hyielded)).2
    rw [hignored] at hkept
    cases hkept
  · intro h
    constructor
    · exact fun it hreaches => hreaches.sorted
    · exact fun it flag mat it' _ hturn entry hmem hgone => replaced_of_matched hturn hmem hgone
    · exact fun it flag entry it' _ hleaves => (turn_leaves hleaves).1
    · exact exists_finished source queryMatches
    · intro left yielded it flag it' hruns hturn
      refine ⟨(turn_finished hturn).2, ?_⟩
      rw [hruns.yielded_eq h ⟨[], [], .refl _⟩]

/-! ### A placeholder that is yielded -/

/-- A query whose one pattern captures an ignored name. -/
def ignoreConfig : TagsConfiguration where
  captureMap := fun _ => none
  docCaptureIndex := none
  nameCaptureIndex := none
  ignoreCaptureIndex := some 0
  localScopeCaptureIndex := none
  localDefinitionCaptureIndex := none
  tagsPatternIndex := 0
  patternInfo := [{}]

/-- Its match on a source of one byte. -/
def ignoreMatch : QueryMatch where
  patternIndex := 0
  captures := [{
    node := ⟨0, 1, ⟨0, 0⟩, ⟨0, 1⟩, false, by decide⟩
    index := 0 }]

/-- The placeholder is the only entry of the queue, so it is drained, and it is yielded. -/
theorem exists_not_tagsCorrect :
    ∃ config source queryMatches, ¬ TagsCorrect config source queryMatches := by
  refine ⟨ignoreConfig, [0x61], [ignoreMatch], fun h => ?_⟩
  have hruns : Runs ignoreConfig [0x61] (.new [0x61] [ignoreMatch])
      [(Tag.ignored ⟨0, 1⟩, 0)] [Tag.ignored ⟨0, 1⟩] (.new [0x61] []) :=
    .matched (show turn _ _ none _ = _ from rfl)
      (.yielded (show turn _ _ none _ = _ from rfl) (.refl _))
  obtain ⟨-, hperm⟩ := h.yielded _ _ _ none _ hruns rfl
  exact absurd hperm.length_eq (by decide)

end TreeSitter.Tags
