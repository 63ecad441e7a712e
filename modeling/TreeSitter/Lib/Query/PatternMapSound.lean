import TreeSitter.Lib.Query.PatternMap

/-!
# TreeSitter.Lib.Query.PatternMapSound

When the pattern map of a query is **in order**: the wildcard entries first, as many as the count
says, and the others sorted by symbol and pattern (`PatternMapOk`). Building a query keeps that
as long as the indices fit their 16 bits (`addRoot_mapOf`), and so does disabling a pattern none
of whose roots is a wildcard (`disablePattern_mapOf`). Disabling any other pattern does not: the
count stays as it was.
-/

namespace TreeSitter.Lib

open List

theorem insertIdx_append_length {α : Type*} (xs ys : List α) (x : α) :
    (xs ++ ys).insertIdx xs.length x = xs ++ x :: ys := by
  induction xs with
  | nil => simp
  | cons a xs ih => simp [ih]

namespace TSQuery

def entryKey (self : TSQuery) (entry : PatternEntry) : Nat := (self.entrySymbol entry).getD 0

/-- The entries after those that the count says are wildcards. -/
def symbolEntries (self : TSQuery) : List PatternEntry :=
  self.patternMap.drop self.wildcardRootPatternCount

/-- The order of the entries: by symbol, then by pattern. -/
def EntryLE (self : TSQuery) (entry entry' : PatternEntry) : Prop :=
  self.entryKey entry < self.entryKey entry' ∨
    (self.entryKey entry = self.entryKey entry' ∧ entry.patternIndex ≤ entry'.patternIndex)

/-- The pattern map is in order. -/
structure PatternMapOk (query : TSQuery) : Prop where
  count_le : query.wildcardRootPatternCount ≤ query.patternMap.length
  wildcards : ∀ entry ∈ query.patternMap.take query.wildcardRootPatternCount,
    query.entrySymbol entry = some wildcardSymbol
  others : ∀ entry ∈ query.symbolEntries,
    ∃ symbol, query.entrySymbol entry = some symbol ∧ symbol ≠ wildcardSymbol
  sorted : query.symbolEntries.Pairwise query.EntryLE

variable {self : TSQuery}

variable {entry : PatternEntry}

theorem entrySymbol_of_ok (h : PatternMapOk self) (hentry : entry ∈ self.symbolEntries) :
    self.entrySymbol entry = some (self.entryKey entry) ∧ self.entryKey entry ≠ wildcardSymbol := by
  obtain ⟨symbol, hsymbol, hne⟩ := h.others entry hentry
  exact ⟨by simp [entryKey, hsymbol], by simpa [entryKey, hsymbol] using hne⟩

/-! ### The search -/

theorem symbolAt_of_ok (h : PatternMapOk self) (i : Nat) :
    self.symbolAt (self.wildcardRootPatternCount + i) = self.symbolEntries[i]?.map self.entryKey := by
  rw [symbolAt, ← getElem?_drop]
  show self.symbolEntries[i]?.bind _ = _
  cases hget : self.symbolEntries[i]? with
  | none => rfl
  | some entry => exact (entrySymbol_of_ok h (mem_of_getElem? hget)).1

theorem entryKey_mono (h : PatternMapOk self) {i j : Nat} {entry' : PatternEntry} (hij : i ≤ j)
    (hi : self.symbolEntries[i]? = some entry) (hj : self.symbolEntries[j]? = some entry') :
    self.entryKey entry ≤ self.entryKey entry' := by
  rcases Nat.lt_or_eq_of_le hij with hlt | rfl
  · obtain ⟨hi', rfl⟩ := List.getElem?_eq_some_iff.1 hi
    obtain ⟨hj', rfl⟩ := List.getElem?_eq_some_iff.1 hj
    rcases pairwise_iff_getElem.1 h.sorted i j hi' hj' hlt with hkey | hkey
    · exact hkey.le
    · exact hkey.1.le
  · rw [hi] at hj
    cases hj
    exact le_rfl

/-- What holds of the window of the loop, relative to the end of the wildcards: before it all is
smaller than the needle, after it nothing is. -/
structure Window (query : TSQuery) (needle low size : Nat) : Prop where
  size_pos : 0 < size
  fits : low + size ≤ query.symbolEntries.length
  before : ∀ entry, query.symbolEntries[low]? = some entry → low = 0 ∨ query.entryKey entry < needle
  after : ∀ i entry, low + size ≤ i → query.symbolEntries[i]? = some entry →
    needle ≤ query.entryKey entry

variable {needle : Nat}

theorem searchLoop_window (h : PatternMapOk self) : ∀ {turns low size : Nat},
    size ≤ turns → Window self needle low size →
    ∃ low', self.searchLoop needle turns size (self.wildcardRootPatternCount + low) =
      some (self.wildcardRootPatternCount + low') ∧ Window self needle low' 1 := by
  intro turns
  induction turns with
  | zero =>
    intro low size hsize hw
    have := hw.size_pos
    omega
  | succ turns ih =>
    intro low size hsize hw
    have hfits := hw.fits
    rw [searchLoop]
    by_cases hbig : size > 1
    · obtain ⟨mid, hmid⟩ : ∃ mid, self.symbolEntries[low + size / 2]? = some mid :=
        ⟨_, getElem?_eq_getElem (by omega)⟩
      simp only [hbig, if_true]
      rw [Nat.add_assoc, symbolAt_of_ok h, hmid, Option.map_some, Option.bind_some]
      by_cases hneedle : needle > self.entryKey mid
      · rw [if_pos hneedle]
        refine ih (by omega) ⟨by omega, by omega, ?_, fun i entry hle => hw.after i entry (by omega)⟩
        intro entry hentry
        rw [hmid] at hentry
        cases hentry
        exact .inr hneedle
      · rw [if_neg hneedle]
        refine ih (by omega) ⟨by omega, by omega, hw.before, ?_⟩
        intro i entry hle hentry
        -- the window gives up its upper part, where all is at least the middle entry
        exact (not_lt.1 hneedle).trans (entryKey_mono h (by omega) hmid hentry)
    · have hone : size = 1 := by have := hw.size_pos; omega
      simp only [hbig, if_false]
      exact ⟨low, rfl, hone ▸ hw⟩

/-- Where the search ends: the entries before the index are smaller than the needle, the others
are not. -/
def SplitAt (query : TSQuery) (needle index : Nat) : Prop :=
  index ≤ query.symbolEntries.length ∧
    (∀ entry ∈ query.symbolEntries.take index, query.entryKey entry < needle) ∧
    ∀ entry ∈ query.symbolEntries.drop index, needle ≤ query.entryKey entry

/-- A split is where the entries change from smaller to not smaller. -/
theorem splitAt_of_getElem {index : Nat} (hle : index ≤ self.symbolEntries.length) (hbefore : ∀ i
      entry, i < index → self.symbolEntries[i]? = some entry → self.entryKey entry < needle)
    (hafter : ∀ i entry, index ≤ i → self.symbolEntries[i]? = some entry → needle ≤ self.entryKey
      entry) : SplitAt self needle index := by
  refine ⟨hle, ?_, ?_⟩
  · intro entry hentry
    obtain ⟨i, hi⟩ := mem_iff_getElem?.1 hentry
    rw [getElem?_take] at hi
    split at hi
    case isTrue hlt => exact hbefore i entry hlt hi
    case isFalse => cases hi
  · intro entry hentry
    obtain ⟨i, hi⟩ := mem_iff_getElem?.1 hentry
    rw [getElem?_drop] at hi
    exact hafter _ entry (by omega) hi

theorem splitAt_of_window (h : PatternMapOk self) {low : Nat} (hw : Window self needle low 1)
    (hentry : self.symbolEntries[low]? = some entry) :
    SplitAt self needle (if needle > self.entryKey entry then low + 1 else low) := by
  have hfits := hw.fits
  by_cases hneedle : needle > self.entryKey entry
  · rw [if_pos hneedle]
    refine splitAt_of_getElem hfits ?_ hw.after
    intro i e hi he
    exact (entryKey_mono h (by omega) he hentry).trans_lt hneedle
  · rw [if_neg hneedle]
    refine splitAt_of_getElem (by omega) ?_ ?_
    · intro i e hi he
      rcases hw.before entry hentry with hzero | hlt
      · omega
      · exact (entryKey_mono h hi.le he hentry).trans_lt hlt
    · intro i e hi he
      exact (not_lt.1 hneedle).trans (entryKey_mono h hi hentry he)

theorem found_iff (h : PatternMapOk self) {index : Nat} (hsplit : SplitAt self needle index) :
    (self.symbolEntries[index]?.map self.entryKey = some needle) ↔
      ∃ entry ∈ self.symbolEntries, self.entryKey entry = needle := by
  constructor
  · intro hhead
    obtain ⟨entry, hentry, hkey⟩ := Option.map_eq_some_iff.1 hhead
    exact ⟨entry, mem_of_getElem? hentry, hkey⟩
  · rintro ⟨entry, hentry, rfl⟩
    obtain ⟨i, hi⟩ := mem_iff_getElem?.1 hentry
    have hle : index ≤ i := by
      by_contra hlt
      have hmem : entry ∈ self.symbolEntries.take index :=
        mem_iff_getElem?.2 ⟨i, by rw [getElem?_take, if_pos (by omega), hi]⟩
      exact lt_irrefl _ (hsplit.2.1 entry hmem)
    have hlen : i < self.symbolEntries.length := (List.getElem?_eq_some_iff.1 hi).1
    have hhead : self.symbolEntries[index]? = some (self.symbolEntries.get ⟨index, by omega⟩) :=
      getElem?_eq_getElem (by omega)
    rw [hhead, Option.map_some]
    refine congrArg some (le_antisymm (entryKey_mono h hle hhead hi) (hsplit.2.2 _ ?_))
    exact mem_iff_getElem?.2 ⟨0, by rw [getElem?_drop]; exact hhead⟩

theorem beq_eq_decide_of_iff {a b : Nat} {p : Prop} [Decidable p] (h : b = a ↔ p) :
    (a == b) = decide p := by
  rw [Bool.eq_iff_iff, beq_iff_eq, decide_eq_true_iff, eq_comm, h]

/-- `ts_query__pattern_map_search` on a map in order: the first position after the wildcards whose
symbol is not smaller, and whether the symbol is there. -/
theorem patternMapSearch_of_ok (h : PatternMapOk self) (needle : Nat) :
    ∃ index, SplitAt self needle index ∧
      self.patternMapSearch needle = some (self.wildcardRootPatternCount + index,
        decide (∃ entry ∈ self.symbolEntries, self.entryKey entry = needle)) := by
  have hlength : self.symbolEntries.length =
      self.patternMap.length - self.wildcardRootPatternCount := length_drop
  rw [patternMapSearch, subU32_of_le h.count_le, ← hlength]
  by_cases hempty : self.symbolEntries.length = 0
  · have hnil := length_eq_zero_iff.1 hempty
    refine ⟨0, by simp [SplitAt, hnil], ?_⟩
    simp [hnil]
  · simp only [hempty, if_false]
    obtain ⟨low, hloop, hw⟩ := searchLoop_window h le_rfl
      (⟨by omega, by omega, by simp, fun i entry hle hentry => by
        have := (List.getElem?_eq_some_iff.1 hentry).1
        omega⟩ : Window self needle 0 self.symbolEntries.length)
    have hfits := hw.fits
    obtain ⟨entry, hentry⟩ : ∃ entry, self.symbolEntries[low]? = some entry :=
      ⟨_, getElem?_eq_getElem (by omega)⟩
    have hsplit := splitAt_of_window h hw hentry
    have hfound := found_iff h hsplit
    refine ⟨_, hsplit, ?_⟩
    rw [Nat.add_zero] at hloop
    simp only [hloop, Option.bind_eq_bind, Option.bind_some, symbolAt_of_ok h, hentry,
      Option.map_some]
    by_cases hneedle : needle > self.entryKey entry
    · simp only [hneedle, if_true] at hfound ⊢
      by_cases hlast : self.wildcardRootPatternCount + low + 1 < self.patternMap.length
      · obtain ⟨next, hnext⟩ : ∃ next, self.symbolEntries[low + 1]? = some next :=
          ⟨_, getElem?_eq_getElem (by omega)⟩
        rw [hnext, Option.map_some, Option.some_inj] at hfound
        rw [if_pos hlast, Nat.add_assoc, symbolAt_of_ok h, hnext, Option.map_some, Option.bind_some,
          beq_eq_decide_of_iff hfound]
        rfl
      · have hnext : self.symbolEntries[low + 1]? = none := getElem?_eq_none (by omega)
        simp only [hlast, if_false]
        rw [hnext] at hfound
        simp [← hfound, hneedle.ne', Nat.add_assoc]
    · simp only [hneedle, if_false] at hfound ⊢
      rw [hentry, Option.map_some, Option.some_inj] at hfound
      rw [beq_eq_decide_of_iff hfound]
      rfl

/-! ### The insertion -/

theorem EntryLE.trans {a b c : PatternEntry} (hab : self.EntryLE a b) (hbc : self.EntryLE b c) :
    self.EntryLE a c := by
  unfold EntryLE at *
  omega

theorem skipEarlier_of_ok (symbol patternIndex : Nat) : ∀ {entries : List PatternEntry} (index : Nat),
    (∀ entry ∈ entries, self.entrySymbol entry = some (self.entryKey entry)) →
    self.skipEarlier symbol patternIndex entries index = some (index +
      (entries.takeWhile fun entry =>
        decide (self.entryKey entry = symbol ∧ entry.patternIndex < patternIndex)).length) := by
  intro entries
  induction entries with
  | nil =>
    intro index _
    rfl
  | cons entry entries ih =>
    intro index h
    rw [skipEarlier, h entry (by simp), Option.bind_some]
    by_cases hskip : self.entryKey entry = symbol ∧ entry.patternIndex < patternIndex
    · rw [if_pos hskip, ih _ fun e he => h e (by simp [he]), takeWhile_cons_of_pos (by simpa using hskip),
        length_cons]
      congr 1
      omega
    · rw [if_neg hskip, takeWhile_cons_of_neg (by simpa using hskip)]
      rfl

/-- What is left after the skipped entries is not before the new one. -/
theorem entryLE_of_mem_dropWhile (h : PatternMapOk self) {high : List PatternEntry}
    (hsub : high.Sublist self.symbolEntries) (newEntry : PatternEntry)
    (hhigh : ∀ entry ∈ high, self.entryKey newEntry ≤ self.entryKey entry) :
    ∀ entry ∈ high.dropWhile fun entry => decide
      (self.entryKey entry = self.entryKey newEntry ∧ entry.patternIndex < newEntry.patternIndex),
    self.EntryLE newEntry entry := by
  intro entry hentry
  cases hrest : high.dropWhile fun entry => decide
      (self.entryKey entry = self.entryKey newEntry ∧ entry.patternIndex < newEntry.patternIndex) with
  | nil =>
    rw [hrest] at hentry
    cases hentry
  | cons first rest =>
    have hsuffix : (first :: rest).Sublist high := hrest ▸ dropWhile_sublist _
    have hfirst : self.EntryLE newEntry first := by
      have hstop := head?_dropWhile_not (fun entry => decide
        (self.entryKey entry = self.entryKey newEntry ∧
          entry.patternIndex < newEntry.patternIndex)) high
      rw [hrest] at hstop
      have hkey := hhigh first (hsuffix.subset (by simp))
      simp only [head?_cons, decide_eq_false_iff_not] at hstop
      unfold EntryLE
      omega
    rw [hrest] at hentry
    rcases mem_cons.1 hentry with rfl | hmem
    · exact hfirst
    · exact hfirst.trans (rel_of_pairwise_cons ((h.sorted.sublist hsub).sublist hsuffix) hmem)

/-- `ts_query__pattern_map_insert` on a map in order: the new entry stands after the wildcards,
between the entries that are before it and those that are not. -/
theorem patternMapInsert_of_ok (h : PatternMapOk self) {newEntry : PatternEntry} {symbol : Nat}
    (hsymbol : self.entrySymbol newEntry = some symbol) :
    ∃ low high, self.symbolEntries = low ++ high ∧
      (∀ entry ∈ low, self.EntryLE entry newEntry) ∧ (∀ entry ∈ high, self.EntryLE newEntry entry) ∧
      (symbol = wildcardSymbol → low = []) ∧
      self.patternMapInsert symbol newEntry = some { self with
        patternMap := self.patternMap.take self.wildcardRootPatternCount ++ (low ++ newEntry :: high) } := by
  have hkey : self.entryKey newEntry = symbol := by simp [entryKey, hsymbol]
  obtain ⟨index, ⟨hle, hbefore, hafter⟩, hsearch⟩ := patternMapSearch_of_ok h symbol
  set skipped : PatternEntry → Bool := fun entry => decide
    (self.entryKey entry = symbol ∧ entry.patternIndex < newEntry.patternIndex) with hskipped
  have hskip : ∀ entry ∈ (self.symbolEntries.drop index).takeWhile skipped, skipped entry = true :=
    fun entry hentry => mem_takeWhile_imp hentry
  have hmem : ∀ entry ∈ (self.symbolEntries.drop index).takeWhile skipped,
      entry ∈ self.symbolEntries := fun entry hentry =>
    (drop_sublist _ _).subset ((takeWhile_sublist _).subset hentry)
  refine ⟨self.symbolEntries.take index ++ (self.symbolEntries.drop index).takeWhile skipped,
    (self.symbolEntries.drop index).dropWhile skipped, ?_, ?_, ?_, ?_, ?_⟩
  · rw [append_assoc, takeWhile_append_dropWhile, take_append_drop]
  · intro entry hentry
    rcases mem_append.1 hentry with hentry | hentry
    · exact .inl (hkey ▸ hbefore entry hentry)
    · have := hskip entry hentry
      simp only [hskipped, decide_eq_true_iff] at this
      exact .inr ⟨by omega, by omega⟩
  · have := entryLE_of_mem_dropWhile h (drop_sublist index _) newEntry
      (by rw [hkey]; exact hafter)
    rwa [hkey] at this
  · intro hwild
    subst hwild
    -- nothing is smaller than the wildcard, and no entry from the wildcards on is one
    have htake : self.symbolEntries.take index = [] := by
      rw [eq_nil_iff_forall_not_mem]
      intro entry hentry
      exact Nat.not_lt_zero _ (hbefore entry hentry)
    have hwhile : (self.symbolEntries.drop index).takeWhile skipped = [] := by
      rw [eq_nil_iff_forall_not_mem]
      intro entry hentry
      have := hskip entry hentry
      simp only [hskipped, decide_eq_true_iff] at this
      exact (entrySymbol_of_ok h (hmem entry hentry)).2 this.1
    rw [htake, hwhile, append_nil]
  · have hdrop : self.patternMap.drop (self.wildcardRootPatternCount + index) =
        self.symbolEntries.drop index := (drop_drop).symm
    have hfront : self.wildcardRootPatternCount + index +
        ((self.symbolEntries.drop index).takeWhile skipped).length =
        (self.patternMap.take self.wildcardRootPatternCount ++ (self.symbolEntries.take index ++
          (self.symbolEntries.drop index).takeWhile skipped)).length := by
      simp only [List.length_append, length_take]
      have := h.count_le
      omega
    have hmap : self.patternMap = self.patternMap.take self.wildcardRootPatternCount ++
        (self.symbolEntries.take index ++ (self.symbolEntries.drop index).takeWhile skipped) ++
        (self.symbolEntries.drop index).dropWhile skipped := by
      rw [append_assoc, append_assoc, takeWhile_append_dropWhile, take_append_drop]
      exact (take_append_drop _ _).symm
    rw [patternMapInsert, hsearch]
    simp only [Option.bind_eq_bind, Option.bind_some]
    rw [hdrop, skipEarlier_of_ok _ _ _ fun entry hentry =>
      (entrySymbol_of_ok h ((drop_sublist _ _).subset hentry)).1, Option.bind_some, hfront]
    have hinsert := insertIdx_append_length (self.patternMap.take self.wildcardRootPatternCount ++
      (self.symbolEntries.take index ++ (self.symbolEntries.drop index).takeWhile skipped))
      ((self.symbolEntries.drop index).dropWhile skipped) newEntry
    rw [← hmap] at hinsert
    rw [hinsert]
    simp only [append_assoc]
    rfl

/-! ### The roots in the map -/

def isWildcardRoot (root : PatternRoot) : Bool := root.symbol = wildcardSymbol

/-- The indices of a root fit their fields. -/
def RootFits (root : PatternRoot) : Prop := root.stepIndex < 2 ^ 16 ∧ root.patternIndex < 2 ^ 16

/-- The map is in order, and it has an entry for each of these roots, and no other. -/
structure MapOf (query : TSQuery) (roots : List PatternRoot) : Prop where
  ok : PatternMapOk query
  perm : query.patternMap.Perm (roots.map PatternRoot.entry)
  fits : ∀ root ∈ roots, RootFits root
  symbol : ∀ root ∈ roots, query.entrySymbol root.entry = some root.symbol

variable {root : PatternRoot}

theorem entry_stepIndex (h : RootFits root) :
    root.entry.stepIndex = root.stepIndex := Nat.mod_eq_of_lt h.1

theorem entry_patternIndex (h : RootFits root) :
    root.entry.patternIndex = root.patternIndex := Nat.mod_eq_of_lt h.2

variable {roots : List PatternRoot}

theorem wildcardRootPatternCount_eq (h : MapOf self roots) :
    self.wildcardRootPatternCount = roots.countP isWildcardRoot := by
  let wild : PatternEntry → Bool := fun entry => self.entrySymbol entry = some wildcardSymbol
  have hroots : roots.countP isWildcardRoot = (roots.map PatternRoot.entry).countP wild := by
    rw [countP_map]
    refine countP_congr fun root hroot => ?_
    simp [wild, isWildcardRoot, h.symbol root hroot]
  have htake : (self.patternMap.take self.wildcardRootPatternCount).countP wild =
      self.wildcardRootPatternCount := by
    rw [countP_eq_length.2 fun entry hentry => by simp [wild, h.ok.wildcards entry hentry],
      length_take, Nat.min_eq_left h.ok.count_le]
  have hdrop : self.symbolEntries.countP wild = 0 := by
    refine countP_eq_zero.2 fun entry hentry => ?_
    have := entrySymbol_of_ok h.ok hentry
    simp [wild, this.1, this.2]
  rw [hroots, ← h.perm.countP_eq, ← take_append_drop self.wildcardRootPatternCount self.patternMap,
    countP_append, htake]
  show _ = _ + self.symbolEntries.countP wild
  rw [hdrop, Nat.add_zero]

theorem patternMapOk_of_append {query : TSQuery} (front back : List PatternEntry)
    (hmap : query.patternMap = front ++ back) (hcount : query.wildcardRootPatternCount = front.length)
    (hfront : ∀ entry ∈ front, query.entrySymbol entry = some wildcardSymbol)
    (hback : ∀ entry ∈ back, ∃ symbol, query.entrySymbol entry = some symbol ∧ symbol ≠ wildcardSymbol)
    (hsorted : back.Pairwise query.EntryLE) : PatternMapOk query := by
  have hdrop : query.symbolEntries = back := by rw [symbolEntries, hmap, hcount, drop_left]
  refine ⟨by simp [hmap, hcount], ?_, by rwa [hdrop], by rwa [hdrop]⟩
  rwa [hmap, hcount, take_left]

theorem addRoot_mapOf (h : MapOf self roots) (hfits : RootFits root)
    (hsymbol : self.entrySymbol root.entry = some root.symbol)
    (hcount : roots.countP isWildcardRoot < 2 ^ 16 - 1 ∨ root.symbol ≠ wildcardSymbol) :
    ∃ query, self.addRoot root = some query ∧ query.steps = self.steps ∧
      query.patternCount = self.patternCount ∧ MapOf query (root :: roots) := by
  obtain ⟨low, high, hsplit, hlow, hhigh, hwild, hinsert⟩ := patternMapInsert_of_ok h.ok hsymbol
  have hcount' := wildcardRootPatternCount_eq h
  have hfront : (self.patternMap.take self.wildcardRootPatternCount).length =
      self.wildcardRootPatternCount := length_take_of_le h.ok.count_le
  have hparts : self.patternMap = self.patternMap.take self.wildcardRootPatternCount ++ (low ++ high) := by
    rw [← hsplit]
    exact (take_append_drop _ _).symm
  have hothers : ∀ entry ∈ low ++ high, ∃ symbol,
      self.entrySymbol entry = some symbol ∧ symbol ≠ wildcardSymbol := by
    rw [← hsplit]
    exact h.ok.others
  have hsorted : (low ++ high).Pairwise self.EntryLE := hsplit ▸ h.ok.sorted
  have hperm : (self.patternMap.take self.wildcardRootPatternCount ++
      (low ++ root.entry :: high)).Perm ((root :: roots).map PatternRoot.entry) := by
    rw [map_cons, ← append_assoc]
    refine perm_middle.trans (List.Perm.cons _ ?_)
    rw [append_assoc, ← hparts]
    exact h.perm
  have hfits' : ∀ r ∈ root :: roots, RootFits r := forall_mem_cons.2 ⟨hfits, h.fits⟩
  have hsymbol' : ∀ r ∈ root :: roots, self.entrySymbol r.entry = some r.symbol :=
    forall_mem_cons.2 ⟨hsymbol, h.symbol⟩
  rw [addRoot, hinsert, Option.map_some]
  by_cases hroot : root.symbol = wildcardSymbol
  · have hlow' := hwild hroot
    subst hlow'
    rw [if_pos hroot]
    refine ⟨_, rfl, rfl, rfl, ?_, hperm, hfits', hsymbol'⟩
    refine patternMapOk_of_append
      (self.patternMap.take self.wildcardRootPatternCount ++ [root.entry]) high
      (by simp) ?_ ?_ hothers hsorted
    · rw [List.length_append, hfront]
      show (self.wildcardRootPatternCount + 1) % 2 ^ 16 = _
      exact Nat.mod_eq_of_lt (by have := hcount.resolve_right (not_not.2 hroot); omega)
    · intro entry hentry
      rcases mem_append.1 hentry with hentry | hentry
      · exact h.ok.wildcards entry hentry
      · rw [mem_singleton.1 hentry]
        exact hroot ▸ hsymbol
  · rw [if_neg hroot]
    refine ⟨_, rfl, rfl, rfl, ?_, hperm, hfits', hsymbol'⟩
    refine patternMapOk_of_append _ _ rfl hfront.symm h.ok.wildcards ?_ ?_
    · intro entry hentry
      rcases mem_append.1 hentry with hentry | hentry
      · exact hothers entry (mem_append_left _ hentry)
      · rcases mem_cons.1 hentry with rfl | hentry
        · exact ⟨root.symbol, hsymbol, hroot⟩
        · exact hothers entry (mem_append_right _ hentry)
    · obtain ⟨hsl, hsh, hslh⟩ := pairwise_append.1 hsorted
      refine pairwise_append.2 ⟨hsl, pairwise_cons.2 ⟨hhigh, hsh⟩, ?_⟩
      intro entry hentry entry' hentry'
      rcases mem_cons.1 hentry' with rfl | hentry'
      · exact hlow entry hentry
      · exact hslh entry hentry entry' hentry'

theorem disablePattern_mapOf (h : MapOf self roots) (patternIndex : Nat)
    (hwild : ∀ root ∈ roots, root.patternIndex = patternIndex → root.symbol ≠ wildcardSymbol) :
    MapOf (self.disablePattern patternIndex)
      (roots.filter fun root => root.patternIndex ≠ patternIndex) := by
  have hperm : (self.patternMap.filter fun entry => entry.patternIndex ≠ patternIndex).Perm
      ((roots.filter fun root => root.patternIndex ≠ patternIndex).map PatternRoot.entry) := by
    refine (h.perm.filter _).trans (List.Perm.of_eq ?_)
    rw [filter_map]
    refine congrArg _ (filter_congr fun root hroot => ?_)
    simp [entry_patternIndex (h.fits root hroot)]
  -- the wildcards all stay, so that the count is still right
  have hfront : (self.patternMap.take self.wildcardRootPatternCount).filter
      (fun entry => entry.patternIndex ≠ patternIndex) =
      self.patternMap.take self.wildcardRootPatternCount := by
    refine filter_eq_self.2 fun entry hentry => ?_
    have hmem := h.perm.subset ((take_sublist _ _).subset hentry)
    obtain ⟨root, hroot, rfl⟩ := mem_map.1 hmem
    have hsymbol := h.ok.wildcards _ hentry
    rw [h.symbol root hroot, Option.some_inj] at hsymbol
    rw [decide_eq_true_iff, entry_patternIndex (h.fits root hroot)]
    exact fun hindex => hwild root hroot hindex hsymbol
  refine ⟨?_, hperm, fun root hroot => h.fits root (mem_of_mem_filter hroot),
    fun root hroot => h.symbol root (mem_of_mem_filter hroot)⟩
  refine patternMapOk_of_append (self.patternMap.take self.wildcardRootPatternCount)
    (self.symbolEntries.filter fun entry => entry.patternIndex ≠ patternIndex) ?_ ?_ ?_ ?_ ?_
  · rw [← hfront, symbolEntries, ← filter_append, take_append_drop]
    rfl
  · exact (length_take_of_le h.ok.count_le).symm
  · exact h.ok.wildcards
  · exact fun entry hentry => h.ok.others entry (mem_of_mem_filter hentry)
  · exact h.ok.sorted.sublist filter_sublist

end TSQuery

/-! ### The roots of a query -/

/-- The roots of a pattern, as the loop of `ts_query_new` finds them. -/
def rootsFrom (steps : List QueryStep) (patternIndex : Nat) : Nat → Nat → Nat → Option (List PatternRoot)
  | 0, _, _ => none
  | turns + 1, startStepIndex, wildcardRootAlternativeIndex => do
    let (root, next) ← rootAt steps patternIndex startStepIndex wildcardRootAlternativeIndex
    match next with
    | none => pure [root]
    | some (start, alternative) =>
      (rootsFrom steps patternIndex turns start alternative).map (root :: ·)

def rootsOf (turns : Nat) : Nat → List QueryStep → List (List QueryStep) → Option (List PatternRoot)
  | _, _, [] => some []
  | patternIndex, steps, patternSteps :: patterns => do
    let steps' := steps ++ patternSteps ++ [QueryStep.new 0 queryNone false]
    let roots ← rootsFrom steps' patternIndex turns steps.length queryNone
    let steps' ← (List.range' steps.length patternSteps.length).foldlM
      (fixUpLoopBack (steps.length + patternSteps.length)) steps'
    (rootsOf turns (patternIndex + 1) steps' patterns).map (roots ++ ·)

def queryRoots (turns : Nat) (patterns : List (List QueryStep)) : Option (List PatternRoot) :=
  rootsOf turns 0 [] patterns

/-- Steps that keep the symbols of these ones, and may go on after them. -/
def KeepsSymbols (steps steps' : List QueryStep) : Prop :=
  ∀ (i symbol : Nat), steps[i]?.map QueryStep.symbol = some symbol →
    steps'[i]?.map QueryStep.symbol = some symbol

theorem keepsSymbols_append (steps steps' : List QueryStep) : KeepsSymbols steps (steps ++ steps') := by
  intro i symbol h
  obtain ⟨step, hstep, -⟩ := Option.map_eq_some_iff.1 h
  rw [List.getElem?_append_left (List.getElem?_eq_some_iff.1 hstep).1, h]

theorem fixUpLoopBack_keepsSymbols {patternEnd i : Nat} {steps steps' : List QueryStep}
    (h : fixUpLoopBack patternEnd steps i = some steps') : KeepsSymbols steps steps' := by
  unfold fixUpLoopBack at h
  obtain ⟨step, hstep, h⟩ := Option.bind_eq_some_iff.1 h
  split at h
  · cases h
    exact fun _ _ h => h
  · obtain ⟨target, htarget, h⟩ := Option.bind_eq_some_iff.1 h
    split at h
    · cases h
      exact fun _ _ h => h
    · cases h
      intro j symbol hsymbol
      rw [getElem?_set]
      split
      · subst_vars
        rw [hstep] at hsymbol
        have hlen := (List.getElem?_eq_some_iff.1 hstep).1
        rw [if_pos (by rw [List.length_append]; omega)]
        exact hsymbol
      · exact keepsSymbols_append _ _ j symbol hsymbol

theorem foldlM_fixUpLoopBack_keepsSymbols {patternEnd : Nat} : ∀ {indices : List Nat}
    {steps steps' : List QueryStep}, indices.foldlM (fixUpLoopBack patternEnd) steps = some steps' →
    KeepsSymbols steps steps' := by
  intro indices
  induction indices with
  | nil =>
    intro steps steps' h
    cases h
    exact fun _ _ h => h
  | cons i indices ih =>
    intro steps steps' h
    rw [foldlM_cons] at h
    obtain ⟨mid, hmid, h⟩ := Option.bind_eq_some_iff.1 h
    exact fun j symbol hsymbol => ih h j symbol (fixUpLoopBack_keepsSymbols hmid j symbol hsymbol)

theorem rootAt_root {steps : List QueryStep} {patternIndex start alternative : Nat}
    {root : PatternRoot} {next : Option (Nat × Nat)}
    (h : rootAt steps patternIndex start alternative = some (root, next)) :
    steps[root.stepIndex]?.map QueryStep.symbol = some root.symbol := by
  unfold rootAt at h
  obtain ⟨step, hstep, h⟩ := Option.bind_eq_some_iff.1 h
  obtain ⟨⟨start', step', alternative'⟩, hchoice, h⟩ := Option.bind_eq_some_iff.1 h
  cases h
  have hstep' : steps[start']? = some step' := by
    unfold skipWildcardRoot at hchoice
    split at hchoice
    · obtain ⟨second, hsecond, hchoice⟩ := Option.map_eq_some_iff.1 hchoice
      split at hchoice
      · cases hchoice
        exact hsecond
      · cases hchoice
        exact hstep
    · cases hchoice
      exact hstep
  rw [hstep', Option.map_some]

namespace TSQuery

variable {self : TSQuery}

variable {roots : List PatternRoot}

theorem MapOf.of_perm {roots' : List PatternRoot} (h : MapOf self roots)
    (hperm : roots.Perm roots') : MapOf self roots' where
  ok := h.ok
  perm := h.perm.trans (hperm.map _)
  fits root hroot := h.fits root (hperm.symm.subset hroot)
  symbol root hroot := h.symbol root (hperm.symm.subset hroot)

theorem MapOf.keepsSymbols (h : MapOf self roots) {steps : List QueryStep}
    (hsteps : KeepsSymbols self.steps steps) (patternCount : Nat) :
    MapOf { self with steps, patternCount } roots := by
  have hkeep : ∀ {entry symbol}, self.entrySymbol entry = some symbol →
      entrySymbol { self with steps, patternCount } entry = some symbol :=
    fun hentry => hsteps _ _ hentry
  refine ⟨⟨h.ok.count_le, fun entry hentry => hkeep (h.ok.wildcards entry hentry), ?_, ?_⟩, h.perm,
    h.fits, fun root hroot => hkeep (h.symbol root hroot)⟩
  · intro entry hentry
    obtain ⟨symbol, hsymbol, hne⟩ := h.ok.others entry hentry
    exact ⟨symbol, hkeep hsymbol, hne⟩
  · refine h.ok.sorted.imp_of_mem ?_
    intro entry entry' hentry hentry' hle
    have hkey : ∀ {e}, e ∈ self.symbolEntries →
        entryKey { self with steps, patternCount } e = self.entryKey e := fun he => by
      rw [entryKey, hkeep (entrySymbol_of_ok h.ok he).1]
      rfl
    rw [EntryLE, hkey hentry, hkey hentry']
    exact hle

theorem addRoots_mapOf {patternIndex : Nat} : ∀ {turns : Nat} {self : TSQuery}
    {roots added : List PatternRoot} {start alternative : Nat},
    MapOf self roots → rootsFrom self.steps patternIndex turns start alternative = some added →
    (∀ root ∈ added, RootFits root) → (roots ++ added).countP isWildcardRoot < 2 ^ 16 →
    ∃ query, addRoots patternIndex turns self start alternative = some query ∧
      query.steps = self.steps ∧ query.patternCount = self.patternCount ∧
      MapOf query (roots ++ added) := by
  intro turns
  induction turns with
  | zero =>
    intro self roots added start alternative _ hadded
    cases hadded
  | succ turns ih =>
    intro self roots added start alternative h hadded hfits hcount
    obtain ⟨⟨root, next⟩, hroot, hadded⟩ := Option.bind_eq_some_iff.1 hadded
    obtain ⟨rest, rfl, hrest⟩ : ∃ rest, added = root :: rest ∧
        (match next with
          | none => some []
          | some (start, alternative) =>
            rootsFrom self.steps patternIndex turns start alternative) = some rest := by
      cases next with
      | none =>
        cases hadded
        exact ⟨[], rfl, rfl⟩
      | some next =>
        obtain ⟨rest, hrest, rfl⟩ := Option.map_eq_some_iff.1 hadded
        exact ⟨rest, rfl, hrest⟩
    have hroot' : RootFits root := hfits root (by simp)
    have hsymbol : self.entrySymbol root.entry = some root.symbol := by
      rw [entrySymbol, entry_stepIndex hroot']
      exact rootAt_root hroot
    have hwild : roots.countP isWildcardRoot < 2 ^ 16 - 1 ∨ root.symbol ≠ wildcardSymbol := by
      by_cases hsym : root.symbol = wildcardSymbol
      · have : isWildcardRoot root = true := by simpa [isWildcardRoot] using hsym
        rw [countP_append, countP_cons_of_pos this] at hcount
        omega
      · exact .inr hsym
    obtain ⟨query, hadd, hsteps, hpatterns, hmap⟩ := addRoot_mapOf h hroot' hsymbol hwild
    have hmap' : MapOf query (roots ++ [root]) := hmap.of_perm (perm_append_singleton _ _).symm
    rw [addRoots, hroot]
    simp only [Option.bind_eq_bind, Option.bind_some, hadd]
    cases next with
    | none =>
      cases hrest
      exact ⟨query, rfl, hsteps, hpatterns, hmap'⟩
    | some next =>
      obtain ⟨query', hquery, hsteps', hpatterns', hmap''⟩ := ih hmap' (by rw [hsteps]; exact hrest)
        (fun r hr => hfits r (by simp [hr])) (by simpa using hcount)
      exact ⟨query', hquery, hsteps'.trans hsteps, hpatterns'.trans hpatterns, by simpa using hmap''⟩

theorem foldlM_addPattern_mapOf {turns : Nat} : ∀ {patterns : List (List QueryStep)} {self : TSQuery}
    {roots added : List PatternRoot}, MapOf self roots →
    rootsOf turns self.patternCount self.steps patterns = some added →
    (∀ root ∈ added, RootFits root) → (roots ++ added).countP isWildcardRoot < 2 ^ 16 →
    ∃ query, patterns.foldlM (addPattern turns) self = some query ∧ MapOf query (roots ++ added) := by
  intro patterns
  induction patterns with
  | nil =>
    intro self roots added h hadded _ _
    cases hadded
    exact ⟨self, rfl, by simpa using h⟩
  | cons patternSteps patterns ih =>
    intro self roots added h hadded hfits hcount
    obtain ⟨first, hfirst, hadded⟩ := Option.bind_eq_some_iff.1 hadded
    obtain ⟨steps, hfix, hadded⟩ := Option.bind_eq_some_iff.1 hadded
    obtain ⟨rest, hrest, rfl⟩ := Option.map_eq_some_iff.1 hadded
    have hfit : ∀ root ∈ first, RootFits root := fun root hroot => hfits root (by simp [hroot])
    rw [← append_assoc, countP_append] at hcount
    obtain ⟨query, hquery, hsteps, hpatterns, hmap⟩ := addRoots_mapOf
      (h.keepsSymbols (append_assoc self.steps _ _ ▸ keepsSymbols_append _ _)
        (self.patternCount + 1)) hfirst hfit (by omega)
    have hkeeps : KeepsSymbols query.steps steps := by
      rw [hsteps]
      exact foldlM_fixUpLoopBack_keepsSymbols hfix
    have hmap' := hmap.keepsSymbols hkeeps query.patternCount
    obtain ⟨query', hquery', hmap''⟩ := ih hmap' (by rw [hpatterns]; exact hrest)
      (fun root hroot => hfits root (by simp [hroot])) (by rw [countP_append]; omega)
    refine ⟨query', ?_, by rwa [← append_assoc]⟩
    rw [foldlM_cons, addPattern, hquery]
    simp only [Option.bind_eq_bind, Option.bind_some, hsteps, hfix]
    exact hquery'

theorem mapOf_empty : MapOf ⟨[], [], 0, 0⟩ [] where
  ok := ⟨le_rfl, by simp, by simp [symbolEntries], by simp [symbolEntries]⟩
  perm := .nil
  fits := by simp
  symbol := by simp

theorem newQuery_mapOf {turns : Nat} {patterns : List (List QueryStep)}
    (hroots : queryRoots turns patterns = some roots) (hfits : ∀ root ∈ roots, RootFits root)
    (hcount : roots.countP isWildcardRoot < 2 ^ 16) :
    ∃ query, newQuery turns patterns = some query ∧ MapOf query roots :=
  foldlM_addPattern_mapOf mapOf_empty hroots hfits (by simpa using hcount)

theorem foldl_disablePattern_mapOf : ∀ {disabled : List Nat} {self : TSQuery}
    {roots : List PatternRoot}, MapOf self roots →
    (∀ root ∈ roots, root.patternIndex ∈ disabled → root.symbol ≠ wildcardSymbol) →
    MapOf (disabled.foldl disablePattern self)
      (roots.filter fun root => root.patternIndex ∉ disabled) := by
  intro disabled
  induction disabled with
  | nil =>
    intro self roots h _
    simpa using h
  | cons patternIndex disabled ih =>
    intro self roots h hwild
    have hstep := disablePattern_mapOf h patternIndex
      fun root hroot hindex => hwild root hroot (by simp [hindex])
    have hrest := ih hstep fun root hroot hindex =>
      hwild root (mem_of_mem_filter hroot) (by simp [hindex])
    rw [filter_filter] at hrest
    refine hrest.of_perm (List.Perm.of_eq (filter_congr fun root _ => ?_))
    simp [not_or, Bool.and_comm]

/-! ### The start of a match -/

def admitsDepth (self : TSQuery) (node : NodeContext) (entry : PatternEntry) : Bool :=
  self.steps[entry.stepIndex]?.any fun step => subU32 node.depth step.depth ≤ node.maxStartDepth

def rootCanMatch (self : TSQuery) (node : NodeContext) (entry : PatternEntry) : Bool :=
  self.admitsDepth node entry &&
  self.steps[entry.stepIndex]?.any fun step => node.inRange entry step &&
    if step.symbol = wildcardSymbol then
      node.symbol ≠ builtinSymError && (step.supertypeSymbol = 0 || 0 < node.supertypeCount)
    else step.symbol = node.symbol

/-- The limit on the start depth admits all entries with the node's symbol, or none. -/
def SameStartDepth (self : TSQuery) (node : NodeContext) : Prop :=
  ∀ entry ∈ self.symbolEntries, ∀ entry' ∈ self.symbolEntries,
    self.entryKey entry = node.symbol → self.entryKey entry' = node.symbol →
      self.admitsDepth node entry = self.admitsDepth node entry'

theorem step_of_entrySymbol {entry : PatternEntry} {symbol : Nat}
    (h : self.entrySymbol entry = some symbol) :
    ∃ step, self.steps[entry.stepIndex]? = some step ∧ step.symbol = symbol :=
  Option.map_eq_some_iff.1 h

theorem startWildcards_eq (node : NodeContext) (hnode : node.symbol ≠ builtinSymError) :
    ∀ {indices : List Nat} {entries : List PatternEntry},
    indices.map (self.patternMap[·]?) = entries.map some →
    (∀ entry ∈ entries, self.entrySymbol entry = some wildcardSymbol) →
    self.startWildcards node indices = some (entries.filter (self.rootCanMatch node)) := by
  intro indices
  induction indices with
  | nil =>
    intro entries hget _
    have : entries = [] := by simpa using hget.symm
    subst this
    rfl
  | cons i indices ih =>
    intro entries hget hwild
    cases entries with
    | nil => simp at hget
    | cons entry entries =>
      simp only [map_cons, List.cons.injEq] at hget
      obtain ⟨step, hstep, hsymbol⟩ := step_of_entrySymbol (hwild entry (by simp))
      have hcan : self.rootCanMatch node entry = node.startsWildcard entry step := by
        simp only [rootCanMatch, admitsDepth, hstep, Option.any_some, hsymbol, if_true, hnode,
          NodeContext.startsWildcard, ne_eq, not_false_iff, decide_true, Bool.true_and]
        rw [Bool.and_comm]
      rw [startWildcards, hget.1]
      simp only [Option.bind_eq_bind, Option.bind_some, hstep, ih hget.2 fun e he => hwild e (by simp [he]),
        filter_cons, hcan]
      split <;> rfl

theorem startSymbol_eq (node : NodeContext) (startDepth : Nat) (hnode : node.symbol ≠ wildcardSymbol) :
    ∀ {entries : List PatternEntry}, entries.Pairwise self.EntryLE →
    (∀ entry ∈ entries, self.entrySymbol entry = some (self.entryKey entry) ∧
      node.symbol ≤ self.entryKey entry) →
    (∀ entry ∈ entries, self.entryKey entry = node.symbol →
      self.admitsDepth node entry = decide (startDepth ≤ node.maxStartDepth)) →
    self.startSymbol node startDepth entries = some (entries.filter (self.rootCanMatch node)) := by
  intro entries
  induction entries with
  | nil =>
    intro _ _ _
    rfl
  | cons entry entries ih =>
    intro hsorted hkey hdepth
    obtain ⟨step, hstep, hsymbol⟩ := step_of_entrySymbol (hkey entry (by simp)).1
    rw [startSymbol, hstep]
    simp only [Option.bind_eq_bind, Option.bind_some, hsymbol]
    by_cases heq : self.entryKey entry = node.symbol
    · have hcan : self.rootCanMatch node entry =
          (node.inRange entry step && decide (startDepth ≤ node.maxStartDepth)) := by
        simp only [rootCanMatch, hdepth entry (by simp) heq, hstep, Option.any_some, hsymbol, heq, hnode,
          if_false, decide_true, Bool.and_true]
        rw [Bool.and_comm]
      rw [if_pos heq, ih hsorted.of_cons (fun e he => hkey e (by simp [he]))
        (fun e he => hdepth e (by simp [he])), Option.bind_some, filter_cons, hcan]
      split <;> rfl
    · rw [if_neg heq]
      -- the entries from here on all have a larger symbol
      refine congrArg some (filter_eq_nil_iff.2 fun e he => ?_).symm
      have hlarge : node.symbol < self.entryKey e := by
        have hfirst := (hkey entry (by simp)).2
        rcases mem_cons.1 he with rfl | he
        · omega
        · have := rel_of_pairwise_cons hsorted he
          unfold EntryLE at this
          omega
      obtain ⟨step', hstep', hsymbol'⟩ := step_of_entrySymbol (hkey e he).1
      have hne : self.entryKey e ≠ wildcardSymbol := Nat.ne_of_gt (Nat.zero_lt_of_lt hlarge)
      simp [rootCanMatch, hstep', hsymbol', hne, hlarge.ne']

theorem rootCanMatch_symbol (h : PatternMapOk self) {node : NodeContext} {entry : PatternEntry}
    (hentry : entry ∈ self.symbolEntries) (hcan : self.rootCanMatch node entry = true) :
    self.entryKey entry = node.symbol := by
  obtain ⟨hsymbol, hne⟩ := entrySymbol_of_ok h hentry
  obtain ⟨step, hstep, hkey⟩ := step_of_entrySymbol hsymbol
  simp only [rootCanMatch, hstep, Option.any_some, hkey, hne, if_false, Bool.and_eq_true,
    decide_eq_true_iff] at hcan
  exact hcan.2.2

theorem startWildcardRoots_of_ok (h : PatternMapOk self) (node : NodeContext) :
    self.startWildcardRoots node =
      some ((self.patternMap.take self.wildcardRootPatternCount).filter (self.rootCanMatch node)) := by
  rw [startWildcardRoots]
  by_cases herror : node.symbol = builtinSymError
  · rw [if_pos herror]
    refine congrArg some (filter_eq_nil_iff.2 fun entry hentry => ?_).symm
    obtain ⟨step, hstep, hsymbol⟩ := step_of_entrySymbol (h.wildcards entry hentry)
    simp [rootCanMatch, hstep, hsymbol, herror]
  · rw [if_neg herror]
    refine startWildcards_eq node herror (ext_getElem? fun i => ?_) h.wildcards
    simp only [getElem?_map, getElem?_take]
    by_cases hi : i < self.wildcardRootPatternCount
    · obtain ⟨entry, hentry⟩ : ∃ entry, self.patternMap[i]? = some entry :=
        ⟨_, getElem?_eq_getElem (hi.trans_le h.count_le)⟩
      simp [hi, hentry]
    · simp [hi]

/-- On a map in order, the patterns that are started are those whose root can match. -/
theorem startPatterns_of_ok (h : PatternMapOk self) {node : NodeContext}
    (hdepth : self.SameStartDepth node) :
    self.startPatterns node = some (self.patternMap.filter (self.rootCanMatch node)) := by
  obtain ⟨index, hsplit, hsearch⟩ := patternMapSearch_of_ok h node.symbol
  have hfound := found_iff h hsplit
  have hparts : self.patternMap.filter (self.rootCanMatch node) =
      (self.patternMap.take self.wildcardRootPatternCount).filter (self.rootCanMatch node) ++
        self.symbolEntries.filter (self.rootCanMatch node) := by
    rw [symbolEntries, ← filter_append, take_append_drop]
  have hstart := startWildcardRoots_of_ok h node
  rw [startPatterns, hparts]
  simp only [hstart, hsearch, Option.bind_eq_bind, Option.bind_some, decide_eq_true_iff]
  by_cases hmem : ∃ entry ∈ self.symbolEntries, self.entryKey entry = node.symbol
  · obtain ⟨entry, hentry, hkey⟩ := Option.map_eq_some_iff.1 (hfound.2 hmem)
    have hentry' : entry ∈ self.symbolEntries := mem_of_getElem? hentry
    obtain ⟨hsymbol, hne⟩ := entrySymbol_of_ok h hentry'
    obtain ⟨step, hstep, -⟩ := step_of_entrySymbol hsymbol
    have hget : self.patternMap[self.wildcardRootPatternCount + index]? = some entry := by
      rw [← getElem?_drop]
      exact hentry
    have hdrop : self.patternMap.drop (self.wildcardRootPatternCount + index) =
        self.symbolEntries.drop index := drop_drop.symm
    have hfirst : self.admitsDepth node entry =
        decide (subU32 node.depth step.depth ≤ node.maxStartDepth) := by
      rw [admitsDepth, hstep, Option.any_some]
    have hsub := drop_sublist index self.symbolEntries
    have hrun : self.startSymbol node (subU32 node.depth step.depth) (self.symbolEntries.drop index) =
        some ((self.symbolEntries.drop index).filter (self.rootCanMatch node)) :=
      startSymbol_eq node (subU32 node.depth step.depth) (hkey ▸ hne)
      (h.sorted.sublist hsub)
      (fun e he => ⟨(entrySymbol_of_ok h (hsub.subset he)).1, hsplit.2.2 e he⟩)
      (fun e he hek => (hdepth e (hsub.subset he) entry hentry' hek hkey).trans hfirst)
    have hlow : (self.symbolEntries.take index).filter (self.rootCanMatch node) = [] := by
      refine filter_eq_nil_iff.2 fun e he hcan => ?_
      have := rootCanMatch_symbol h ((take_sublist _ _).subset he) hcan
      exact (hsplit.2.1 e he).ne this
    rw [if_pos hmem, hget, Option.bind_some, hstep, Option.bind_some, hdrop, hrun, Option.bind_some]
    rw [← take_append_drop index self.symbolEntries, filter_append, hlow, nil_append,
      take_append_drop]
    rfl
  · have hnone : self.symbolEntries.filter (self.rootCanMatch node) = [] := by
      refine filter_eq_nil_iff.2 fun e he hcan => ?_
      exact hmem ⟨e, he, rootCanMatch_symbol h he hcan⟩
    rw [if_neg hmem, hnone, append_nil]
    rfl

/-! ### A query in use -/

/-- What the search promises for a symbol: the first position whose symbol is not smaller, and
whether an entry with that symbol exists. -/
def SearchExact (query : TSQuery) (needle : Nat) : Prop :=
  ∃ index, query.patternMapSearch needle =
      some (index, decide (∃ entry ∈ query.patternMap, query.entrySymbol entry = some needle)) ∧
    index ≤ query.patternMap.length ∧
    (∀ entry ∈ query.patternMap.take index, query.entryKey entry < needle) ∧
    ∀ entry ∈ query.patternMap.drop index, needle ≤ query.entryKey entry

theorem searchExact_of_ok (h : PatternMapOk self) {needle : Nat} (hneedle : needle ≠ wildcardSymbol) :
    SearchExact self needle := by
  obtain ⟨index, ⟨hle, hbefore, hafter⟩, hsearch⟩ := patternMapSearch_of_ok h needle
  have hlength : self.symbolEntries.length =
      self.patternMap.length - self.wildcardRootPatternCount := length_drop
  have hcount := h.count_le
  refine ⟨self.wildcardRootPatternCount + index, ?_, by omega, ?_, ?_⟩
  · rw [hsearch]
    congr 2
    rw [decide_eq_decide]
    constructor
    · intro ⟨entry, hentry, hkey⟩
      exact ⟨entry, (drop_sublist _ _).subset hentry, hkey ▸ (entrySymbol_of_ok h hentry).1⟩
    · intro ⟨entry, hentry, hsymbol⟩
      rw [← take_append_drop self.wildcardRootPatternCount self.patternMap] at hentry
      rcases mem_append.1 hentry with hentry | hentry
      · rw [h.wildcards entry hentry, Option.some_inj] at hsymbol
        exact absurd hsymbol.symm hneedle
      · exact ⟨entry, hentry, by simp [entryKey, hsymbol]⟩
  · intro entry hentry
    rw [take_add] at hentry
    rcases mem_append.1 hentry with hentry | hentry
    · have : self.entryKey entry = wildcardSymbol := by simp [entryKey, h.wildcards entry hentry]
      rw [this]
      exact Nat.pos_of_ne_zero hneedle
    · exact hbefore entry hentry
  · intro entry hentry
    rw [← drop_drop] at hentry
    exact hafter entry hentry

theorem patternMapSearch_wildcard (h : PatternMapOk self) :
    self.patternMapSearch wildcardSymbol = some (self.wildcardRootPatternCount, false) := by
  obtain ⟨index, ⟨hle, hbefore, -⟩, hsearch⟩ := patternMapSearch_of_ok h wildcardSymbol
  have hindex : index = 0 := by
    by_contra hne
    have hmem := getElem_mem (l := self.symbolEntries.take index) (n := 0)
      (by rw [length_take]; omega)
    exact Nat.not_lt_zero _ (hbefore _ hmem)
  subst hindex
  rw [hsearch]
  congr 2
  rw [decide_eq_false_iff_not]
  intro ⟨entry, hentry, hkey⟩
  exact (entrySymbol_of_ok h hentry).2 hkey

/-- A query whose indices fit their 16 bits, of which only patterns without a wildcard at their
roots are disabled, has a map in order after any number of such calls: it has the roots of the
enabled patterns, the search is exact, and the patterns that are started at a node are the
enabled ones whose root can match, if the limit on the start depth does not tell apart the
entries with the node's symbol. -/
theorem newQuery_disablePattern_patternMapOk {turns : Nat} {patterns : List (List QueryStep)}
    {roots : List PatternRoot} (hroots : queryRoots turns patterns = some roots)
    (hfits : ∀ root ∈ roots, RootFits root) (hcount : roots.countP isWildcardRoot < 2 ^ 16)
    {disabled : List Nat}
    (hdisabled : ∀ root ∈ roots, root.patternIndex ∈ disabled → root.symbol ≠ wildcardSymbol) :
    ∃ query, newQuery turns patterns = some query ∧
      let query' := disabled.foldl disablePattern query
      PatternMapOk query' ∧
      query'.patternMap.Perm
        ((roots.filter fun root => root.patternIndex ∉ disabled).map PatternRoot.entry) ∧
      (∀ needle, needle ≠ wildcardSymbol → SearchExact query' needle) ∧
      query'.patternMapSearch wildcardSymbol = some (query'.wildcardRootPatternCount, false) ∧
      ∀ node, query'.SameStartDepth node →
        query'.startPatterns node = some (query'.patternMap.filter (query'.rootCanMatch node)) := by
  obtain ⟨query, hquery, hmap⟩ := newQuery_mapOf hroots hfits hcount
  have hmap' := foldl_disablePattern_mapOf hmap hdisabled
  exact ⟨query, hquery, hmap'.ok, hmap'.perm, fun needle => searchExact_of_ok hmap'.ok,
    patternMapSearch_wildcard hmap'.ok, fun node => startPatterns_of_ok hmap'.ok⟩

/-- The steps of the patterns `(_)` and `(a)`, for a node `a` with the symbol 1. -/
def wildcardAndNamed : List (List QueryStep) := [[QueryStep.new 0 0 false], [QueryStep.new 1 0 false]]

theorem newQuery_disablePattern_patternMapOk_named :
    ∃ query, newQuery 1 wildcardAndNamed = some query ∧ PatternMapOk (query.disablePattern 1) := by
  obtain ⟨query, hquery, hok, -⟩ := newQuery_disablePattern_patternMapOk
    (show queryRoots 1 wildcardAndNamed = some [⟨0, 0, 0, true⟩, ⟨2, 1, 1, true⟩] by decide)
    (by simp [RootFits]) (by decide)
    (show ∀ root ∈ [(⟨0, 0, 0, true⟩ : PatternRoot), ⟨2, 1, 1, true⟩],
      root.patternIndex ∈ [1] → root.symbol ≠ wildcardSymbol by decide)
  exact ⟨query, hquery, hok⟩

/-- The query of these patterns after the first of them was disabled. -/
def namedOnly : TSQuery where
  steps := [QueryStep.new 0 0 false, QueryStep.new 0 queryNone false, QueryStep.new 1 0 false,
    QueryStep.new 0 queryNone false]
  patternMap := [⟨2, 1, true⟩]
  patternCount := 2
  wildcardRootPatternCount := 1

/-- Disabling the pattern `(_)` leaves the count at 1, but the one entry left is no wildcard: the
map is not in order, the search does not find the symbol, and the pattern is started at nodes of
other symbols. -/
theorem disablePattern_wildcard_not_ok :
    (newQuery 1 wildcardAndNamed).map (disablePattern · 0) = some namedOnly ∧
      ¬ PatternMapOk namedOnly ∧ ¬ SearchExact namedOnly 1 ∧
      namedOnly.startPatterns ⟨7, false, true, true, 0, 0, 0, 0⟩ = some [⟨2, 1, true⟩] := by
  refine ⟨by decide, ?_, ?_, by decide⟩
  · intro h
    have hwild := h.wildcards ⟨2, 1, true⟩ (by decide)
    revert hwild
    decide
  · intro ⟨index, hsearch, _⟩
    have hmissed : namedOnly.patternMapSearch 1 = some (1, false) := by decide
    rw [hmissed, Option.some_inj, Prod.mk.injEq] at hsearch
    exact (decide_eq_false_iff_not.1 hsearch.2.symm) ⟨⟨2, 1, true⟩, by decide, by decide⟩

end TSQuery

end TreeSitter.Lib
