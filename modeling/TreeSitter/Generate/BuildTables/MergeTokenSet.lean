import TreeSitter.Library.Words
import TreeSitter.Generate.Tables

/-!
# TreeSitter.Generate.BuildTables.MergeTokenSet

When two **sets of tokens are lexed together**. `merge_token_set` tests the terminals of one set
that are not in the other one by rows of bits, which are made of the conflicts of tokens and of the
parse states they are in together. It finds what the test of each pair does (`mergeTokenSet_spec`).
-/

namespace TreeSitter.Generate

open List Library

/-! ### The rows -/

/-- `TokenConflictStatus`. -/
structure TokenConflictStatus where
  matchesPrefix : Bool
  doesMatchContinuation : Bool
  doesMatchValidCont : Bool
  doesMatchSeparators : Bool
  matchesSameString : Bool
  matchesDifferentString : Bool

/-- `TokenConflictMap`, of what the rows are made of. -/
structure TokenConflictMap where
  n : Nat
  statusMatrix : Nat → Nat → TokenConflictStatus

namespace TokenConflictMap

variable (conflictMap : TokenConflictMap) (i j : Nat)

/-- `does_conflict`. -/
def doesConflict : Bool :=
  let entry := conflictMap.statusMatrix i j
  entry.doesMatchValidCont || entry.doesMatchSeparators || entry.matchesSameString

/-- `does_match_prefix`. -/
def doesMatchPrefix : Bool := (conflictMap.statusMatrix i j).matchesPrefix

/-- `does_overlap`. -/
def doesOverlap : Bool :=
  let entry := conflictMap.statusMatrix i j
  entry.doesMatchSeparators || entry.matchesPrefix || entry.matchesSameString ||
    entry.doesMatchContinuation

/-- A row of `conflict_or_prefix_bits`. -/
def conflictOrPrefixRow : List (BitVec 64) :=
  setBits conflictMap.n <| (List.range conflictMap.n).filter fun j =>
    conflictMap.doesConflict i j || conflictMap.doesMatchPrefix i j

/-- A row of `overlap_either_bits`. -/
def overlapEitherRow : List (BitVec 64) :=
  setBits conflictMap.n <| (List.range conflictMap.n).filter fun j =>
    conflictMap.doesOverlap i j || conflictMap.doesOverlap j i

end TokenConflictMap

def ParseState.terminalIndices (state : ParseState) : List Nat :=
  (state.terminalEntries.keys.filter Symbol.isTerminal).map Symbol.index

/-- Each element with itself and the ones behind it. -/
def pairsFrom : List Nat → List (Nat × Nat)
  | [] => []
  | a :: indices => (a :: indices).map (a, ·) ++ pairsFrom indices

/-- Two tokens are put down as coincident. -/
def setPair (rows : List (List (BitVec 64))) (pair : Nat × Nat) : List (List (BitVec 64)) :=
  (rows.modify pair.1 (setBit · pair.2)).modify pair.2 (setBit · pair.1)

/-- `row_bits` of `CoincidentTokenIndex`. -/
def coincidentRows (n : Nat) (table : ParseTable) : List (List (BitVec 64)) :=
  (table.states.flatMap fun state => pairsFrom state.terminalIndices).foldl setPair
    (List.replicate n (List.replicate ((n + 63) / 64) 0#64))

/-- Two tokens are in a parse state together. -/
def ParseTable.Coincident (table : ParseTable) (i j : Nat) : Prop :=
  ∃ state ∈ table.states, i ∈ state.terminalIndices ∧ j ∈ state.terminalIndices

theorem mem_pairsFrom (indices : List Nat) (i j : Nat) :
    (i, j) ∈ pairsFrom indices ∨ (j, i) ∈ pairsFrom indices ↔ i ∈ indices ∧ j ∈ indices := by
  induction indices with
  | nil => simp [pairsFrom]
  | cons a indices ih =>
    simp only [pairsFrom, mem_append, mem_map, mem_cons, Prod.mk.injEq]
    grind

theorem modify_setBit {rows : List (List (BitVec 64))} {i k b m : Nat} (hi : i < rows.length)
    (hrow : (rows.getD i []).length = m) (hb : b / 64 < m) :
    ((rows.modify k (setBit · b)).getD i []).length = m ∧ ∀ j,
      hasBit ((rows.modify k (setBit · b)).getD i []) j = true ↔
        hasBit (rows.getD i []) j = true ∨ i = k ∧ j = b := by
  have hget : (rows.modify k (setBit · b)).getD i [] =
      if k = i then setBit (rows.getD i []) b else rows.getD i [] := by
    rw [getD_eq_getElem?_getD, getD_eq_getElem?_getD, getElem?_modify,
      getElem?_eq_getElem hi]
    split <;> rfl
  rw [hget]
  split
  next heq =>
    refine ⟨length_setBit.trans hrow, fun j => ?_⟩
    rw [hasBit_setBit (hrow ▸ hb), Bool.or_eq_true, decide_eq_true_eq, and_iff_right heq.symm]
  next hne => exact ⟨hrow, fun j => (or_iff_left fun h => hne h.1.symm).symm⟩

theorem foldl_setPair {n : Nat} (pairs : List (Nat × Nat)) (h : ∀ pair ∈ pairs, pair.1 < n ∧ pair.2 < n) :
    let rows := pairs.foldl setPair (List.replicate n (List.replicate ((n + 63) / 64) 0#64))
    rows.length = n ∧ ∀ i < n, (rows.getD i []).length = (n + 63) / 64 ∧
      ∀ j, hasBit (rows.getD i []) j = true ↔ (i, j) ∈ pairs ∨ (j, i) ∈ pairs := by
  induction pairs using List.reverseRecOn with
  | nil =>
    refine ⟨length_replicate, fun i hi => ?_⟩
    simp [getD_eq_getElem?_getD, hi, hasBit, wordAt_replicate]
  | append_singleton pairs pair ih =>
    obtain ⟨hlen, hrows⟩ := ih fun pair hpair => h pair (mem_append_left _ hpair)
    obtain ⟨ha, hb⟩ := h pair (by simp)
    rw [foldl_append, foldl_cons, foldl_nil]
    generalize pairs.foldl setPair _ = rows at *
    dsimp only
    have hlen' : (rows.modify pair.1 (setBit · pair.2)).length = n := by
      rw [length_modify, hlen]
    refine ⟨by rw [setPair, length_modify, hlen'], fun i hi => ?_⟩
    obtain ⟨hwords, hbits⟩ := hrows i hi
    obtain ⟨hwords, hbits'⟩ := modify_setBit (k := pair.1) (b := pair.2) (hi.trans_eq hlen.symm)
      hwords (by omega)
    obtain ⟨hwords, hbits''⟩ := modify_setBit (k := pair.2) (b := pair.1) (hi.trans_eq hlen'.symm)
      hwords (by omega)
    refine ⟨hwords, fun j => ?_⟩
    rw [setPair, hbits'', hbits', hbits]
    obtain ⟨a, b⟩ := pair
    simp only [mem_append, mem_singleton, Prod.mk.injEq]
    tauto

theorem hasBit_coincidentRows {n : Nat} {table : ParseTable}
    (h : ∀ state ∈ table.states, ∀ i ∈ state.terminalIndices, i < n) {i : Nat} (hi : i < n) :
    ((coincidentRows n table).getD i []).length = (n + 63) / 64 ∧
      ∀ j, hasBit ((coincidentRows n table).getD i []) j = true ↔ table.Coincident i j := by
  have hpairs : ∀ pair ∈ table.states.flatMap fun state => pairsFrom state.terminalIndices,
      pair.1 < n ∧ pair.2 < n := by
    rintro ⟨a, b⟩ hpair
    obtain ⟨state, hstate, hpair⟩ := mem_flatMap.mp hpair
    obtain ⟨ha, hb⟩ := (mem_pairsFrom _ a b).mp (.inl hpair)
    exact ⟨h state hstate a ha, h state hstate b hb⟩
  obtain ⟨hlen, hbits⟩ := (foldl_setPair _ hpairs).2 i hi
  refine ⟨hlen, fun j => (hbits j).trans ?_⟩
  simp only [mem_flatMap, ← exists_or, ← and_or_left, mem_pairsFrom]
  rfl

/-! ### The sets -/

/-- `TokenSet`, with the words of its terminals. -/
structure PackedTokens where
  tokens : TokenSet
  terminalBits : List (BitVec 64)
  hasBit_iff : ∀ i, hasBit terminalBits i = true ↔ .terminal i ∈ tokens

namespace PackedTokens

/-- `terminals`, by their indices. -/
def terminals (set : PackedTokens) : List Nat :=
  (List.range (64 * set.terminalBits.length)).filter (hasBit set.terminalBits)

/-- `insert_all`. -/
def insertAll (set other : PackedTokens) : PackedTokens where
  tokens := set.tokens ∪ other.tokens
  terminalBits := (List.range (max set.terminalBits.length other.terminalBits.length)).map fun k =>
    wordAt set.terminalBits k ||| wordAt other.terminalBits k
  hasBit_iff i := by
    have hword : ∀ k, wordAt ((List.range (max set.terminalBits.length
        other.terminalBits.length)).map fun k =>
          wordAt set.terminalBits k ||| wordAt other.terminalBits k) k =
        wordAt set.terminalBits k ||| wordAt other.terminalBits k := by
      intro k
      by_cases hk : k < max set.terminalBits.length other.terminalBits.length
      · rw [wordAt_of_lt (by simpa using hk), getElem_map, getElem_range]
      · rw [wordAt_of_le (by simpa using hk), wordAt_of_le (by omega), wordAt_of_le (by omega)]
        rfl
    rw [hasBit, hword, BitVec.getLsbD_or, ← hasBit, ← hasBit, Bool.or_eq_true, set.hasBit_iff,
      other.hasBit_iff, Finset.mem_union]

theorem mem_terminals (set : PackedTokens) (i : Nat) :
    i ∈ set.terminals ↔ .terminal i ∈ set.tokens := by
  rw [terminals, mem_filter, set.hasBit_iff, mem_range]
  refine and_iff_right_of_imp fun hi => ?_
  have := lt_of_hasBit ((set.hasBit_iff i).mpr hi)
  omega

end PackedTokens

variable (conflictMap : TokenConflictMap) (table : ParseTable) (set tokens other : PackedTokens)

/-- `check_token_conflicts`. -/
def checkTokenConflicts (i : Nat) : Bool :=
  let overlapRow := conflictMap.overlapEitherRow i
  let coincidentRow := (coincidentRows conflictMap.n table).getD i []
  ((conflictMap.conflictOrPrefixRow i).zip set.terminalBits).any (fun e => e.1 &&& e.2 != 0#64) ||
    ((overlapRow.zip set.terminalBits).zip coincidentRow).any fun e =>
      e.1.1 &&& e.1.2 &&& ~~~e.2 != 0#64

/-- `merge_token_set`: whether the sets are merged, and the first set then. -/
def mergeTokenSet : Bool × PackedTokens :=
  if (tokens.terminals.filter fun i => !hasBit other.terminalBits i).any
      (checkTokenConflicts conflictMap table other) then (false, tokens)
  else if (other.terminals.filter fun i => !hasBit tokens.terminalBits i).any
      (checkTokenConflicts conflictMap table tokens) then (false, tokens)
  else (true, tokens.insertAll other)

/-- Two tokens can be lexed together. -/
def LexedTogether (i j : Nat) : Prop :=
  conflictMap.doesConflict i j = false ∧ conflictMap.doesMatchPrefix i j = false ∧
    (conflictMap.doesOverlap i j = true ∨ conflictMap.doesOverlap j i = true →
      table.Coincident i j)

/-- The test of each pair. -/
def Mergeable (tokens other : TokenSet) : Prop :=
  (∀ i j, .terminal i ∈ tokens → .terminal i ∉ other → .terminal j ∈ other →
    LexedTogether conflictMap table i j) ∧
  ∀ i j, .terminal i ∈ other → .terminal i ∉ tokens → .terminal j ∈ tokens →
    LexedTogether conflictMap table i j

/-- The terminals have rows. -/
def HasRows (tokens : TokenSet) : Prop := ∀ i, .terminal i ∈ tokens → i < conflictMap.n

variable {conflictMap table set tokens other}

theorem checkTokenConflicts_iff
    (htable : ∀ state ∈ table.states, ∀ i ∈ state.terminalIndices, i < conflictMap.n)
    (hset : HasRows conflictMap set.tokens) {i : Nat} (hi : i < conflictMap.n) :
    checkTokenConflicts conflictMap table set i = false ↔
      ∀ j, .terminal j ∈ set.tokens → LexedTogether conflictMap table i j := by
  obtain ⟨hlen, hcoincident⟩ := hasBit_coincidentRows htable hi
  have hconflict : ((conflictMap.conflictOrPrefixRow i).zip set.terminalBits).any
      (fun e => e.1 &&& e.2 != 0#64) = true ↔ ∃ j, .terminal j ∈ set.tokens ∧
        (conflictMap.doesConflict i j || conflictMap.doesMatchPrefix i j) = true := by
    refine (any_ne_zero_iff (f := fun k => wordAt (conflictMap.conflictOrPrefixRow i) k &&&
      wordAt set.terminalBits k) fun k hk => ?_).trans (exists_congr fun j => ?_)
    · rw [length_zip, Nat.lt_min] at hk
      rw [getElem_zip, wordAt_of_lt hk.1, wordAt_of_lt hk.2]
    · rw [BitVec.getLsbD_and, ← hasBit, ← hasBit, Bool.and_eq_true, length_zip, Nat.lt_min,
        and_iff_right_of_imp fun h => ⟨lt_of_hasBit h.1, lt_of_hasBit h.2⟩, set.hasBit_iff,
        TokenConflictMap.conflictOrPrefixRow,
        hasBit_setBits fun i hi => mem_range.mp (mem_of_mem_filter hi), mem_filter,
        and_comm]
      exact and_congr_right fun hj => and_iff_right (mem_range.mpr (hset j hj))
  have hoverlap : (((conflictMap.overlapEitherRow i).zip set.terminalBits).zip
      ((coincidentRows conflictMap.n table).getD i [])).any
        (fun e => e.1.1 &&& e.1.2 &&& ~~~e.2 != 0#64) = true ↔ ∃ j, .terminal j ∈ set.tokens ∧
          (conflictMap.doesOverlap i j || conflictMap.doesOverlap j i) = true ∧
            ¬ table.Coincident i j := by
    have hrow : (conflictMap.overlapEitherRow i).length = (conflictMap.n + 63) / 64 :=
      length_setBits _ _
    refine (any_ne_zero_iff (f := fun k => wordAt (conflictMap.overlapEitherRow i) k &&&
      wordAt set.terminalBits k &&& ~~~wordAt ((coincidentRows conflictMap.n table).getD i []) k)
        fun k hk => ?_).trans (exists_congr fun j => ?_)
    · rw [length_zip, length_zip, Nat.lt_min, Nat.lt_min] at hk
      rw [getElem_zip, getElem_zip, wordAt_of_lt hk.1.1, wordAt_of_lt hk.1.2,
        wordAt_of_lt hk.2]
    · rw [BitVec.getLsbD_and, BitVec.getLsbD_and, BitVec.getLsbD_not, ← hasBit, ← hasBit, ← hasBit,
        decide_eq_true (Nat.mod_lt j (by decide)), Bool.true_and, Bool.and_eq_true,
        Bool.and_eq_true, Bool.not_eq_true', ← Bool.not_eq_true, hcoincident, length_zip,
        length_zip, Nat.lt_min, Nat.lt_min, hlen, ← hrow, and_iff_right_of_imp fun h =>
          ⟨⟨lt_of_hasBit h.1.1, lt_of_hasBit h.1.2⟩, lt_of_hasBit h.1.1⟩, set.hasBit_iff,
        TokenConflictMap.overlapEitherRow,
        hasBit_setBits fun i hi => mem_range.mp (mem_of_mem_filter hi), mem_filter,
        and_comm (b := _ ∈ set.tokens), and_assoc]
      exact and_congr_right fun hj => by rw [and_iff_right (mem_range.mpr (hset j hj))]
  rw [checkTokenConflicts, Bool.or_eq_false_iff, ← Bool.not_eq_true, hconflict, ← Bool.not_eq_true, hoverlap]
  simp only [LexedTogether, not_exists, not_and, Bool.or_eq_true, not_or, Bool.not_eq_true, not_not,
    ← forall_and]
  refine forall_congr' fun j => ?_
  tauto

theorem any_checkTokenConflicts_iff
    (htable : ∀ state ∈ table.states, ∀ i ∈ state.terminalIndices, i < conflictMap.n)
    (htokens : HasRows conflictMap tokens.tokens) (hother : HasRows conflictMap other.tokens) :
    (tokens.terminals.filter fun i => !hasBit other.terminalBits i).any
        (checkTokenConflicts conflictMap table other) = false ↔
      ∀ i j, .terminal i ∈ tokens.tokens → .terminal i ∉ other.tokens →
        .terminal j ∈ other.tokens → LexedTogether conflictMap table i j := by
  rw [any_eq_false]
  constructor
  · intro h i j hi hnot hj
    refine (checkTokenConflicts_iff htable hother (htokens i hi)).mp ?_ j hj
    refine Bool.eq_false_iff.mpr (h i (mem_filter.mpr ⟨(tokens.mem_terminals i).mpr hi, ?_⟩))
    rw [Bool.not_eq_true', Bool.eq_false_iff]
    exact fun hbit => hnot ((other.hasBit_iff i).mp hbit)
  · intro h i hi
    obtain ⟨hi, hnot⟩ := mem_filter.mp hi
    have hi := (tokens.mem_terminals i).mp hi
    rw [Bool.not_eq_true', Bool.eq_false_iff] at hnot
    rw [Bool.not_eq_true, checkTokenConflicts_iff htable hother (htokens i hi)]
    exact fun j => h i j hi fun hmem => hnot ((other.hasBit_iff i).mpr hmem)

/-- **The sets are merged exactly if each pair can be**, in whatever order they are given. -/
theorem mergeTokenSet_spec
    (htable : ∀ state ∈ table.states, ∀ i ∈ state.terminalIndices, i < conflictMap.n)
    (htokens : HasRows conflictMap tokens.tokens) (hother : HasRows conflictMap other.tokens) :
    let merged := mergeTokenSet conflictMap table tokens other
    (merged.1 = true ↔ Mergeable conflictMap table tokens.tokens other.tokens) ∧
      (merged.1 = true → merged.2.tokens = tokens.tokens ∪ other.tokens) ∧
      (merged.1 = false → merged.2 = tokens) ∧
      (mergeTokenSet conflictMap table other tokens).1 = merged.1 := by
  have hfirst := any_checkTokenConflicts_iff htable htokens hother
  have hsecond := any_checkTokenConflicts_iff htable hother htokens
  rw [Mergeable, ← hfirst, ← hsecond, mergeTokenSet, mergeTokenSet]
  dsimp only
  split_ifs with htok hoth <;> simp_all [PackedTokens.insertAll]

/-- The set of one of two terminals. -/
def oneToken (i : Nat) (hi : i < 2) : PackedTokens where
  tokens := {.terminal i}
  terminalBits := setBits 2 [i]
  hasBit_iff j := by
    rw [hasBit_setBits (by simpa using hi)]
    simp [Symbol.terminal]

/-- Of two tokens, the second one matches what continues the first one. -/
def overlappingTokens : TokenConflictMap :=
  ⟨2, fun i j => ⟨false, i == 0 && j == 1, false, false, false, false⟩⟩

/-- A table with one state, which has entries for both tokens. -/
def bothTokens : ParseTable :=
  ⟨[{ id := 1, nonterminalEntries := .empty
      terminalEntries :=
        ⟨[(.terminal 0, ⟨0, true⟩), (.terminal 1, ⟨0, true⟩)], by decide⟩ }], [[]], []⟩

theorem mergeTokenSet_spec_bothTokens :
    let first := oneToken 0 (by decide)
    let second := oneToken 1 (by decide)
    let merged := mergeTokenSet overlappingTokens bothTokens first second
    (merged.1 = true ↔
        Mergeable overlappingTokens bothTokens {.terminal 0} {.terminal 1}) ∧
      (merged.1 = true → merged.2.tokens = {.terminal 0} ∪ {.terminal 1}) ∧
      (merged.1 = false → merged.2 = first) ∧
      (mergeTokenSet overlappingTokens bothTokens second first).1 = merged.1 :=
  have hrows : ∀ i hi, HasRows overlappingTokens (oneToken i hi).tokens := fun i hi j hj => by
    cases Finset.mem_singleton.mp hj
    exact hi
  mergeTokenSet_spec (by decide) (hrows 0 (by decide)) (hrows 1 (by decide))

end TreeSitter.Generate
