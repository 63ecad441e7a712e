import TreeSitter.Library.Words
import TreeSitter.Generate.BuildTables.MinimizeParseTable

/-!
# TreeSitter.Generate.BuildTables.ConflictBits

The **packed test for token conflicts** of the minimizer: the terminals of a state, those that
conflict with a token, and the exemptions are bits in words. A row of bits is looked up by the index
of a token alone, so that the end of the file has the row of the first terminal, and a word token
from outside exempts the terminal of its index (`tokenConflictsInWords_iff`).
-/

namespace TreeSitter.Generate

open List Library

/-- `ConflictBits`, with a list of words for each row. -/
structure ConflictBits where
  stateTerminals : List (List (BitVec 64))
  conflictRows : List (List (BitVec 64))
  keywords : List (BitVec 64)
  internalExternal : List (BitVec 64)

namespace MinimizerContext

variable (ctx : MinimizerContext)

/-- What `merge_compatible_states` precomputes. -/
def conflictBits (table : ParseTable) : ConflictBits where
  stateTerminals := table.states.map fun state => setBits ctx.nTerminals <|
    (state.terminalEntries.keys.filter Symbol.isTerminal).map Symbol.index
  conflictRows := (List.range ctx.nTerminals).map fun i => setBits ctx.nTerminals <|
    (List.range ctx.nTerminals).filter (ctx.doesConflict i)
  keywords := setBits ctx.nTerminals <|
    (List.range ctx.nTerminals).filter fun i => .terminal i ∈ ctx.keywords
  internalExternal := setBits ctx.nTerminals (ctx.internalExternal.map Symbol.index)

/-- A word of the terminals that a token conflicts with. -/
def candidates (bits : ConflictBits) (row right : List (BitVec 64)) (newToken : Symbol) (w : Nat) :
    BitVec 64 :=
  let newTokenIsWord := ctx.wordToken == some newToken
  let newTokenIsKeyword := ctx.wordToken.isSome && decide (newToken ∈ ctx.keywords)
  let candidates := wordAt right w &&& wordAt row w
  let candidates := match ctx.wordToken with
    | some word =>
      if newTokenIsKeyword && word.index / 64 == w then
        candidates &&& ~~~BitVec.twoPow 64 (word.index % 64)
      else candidates
    | none => candidates
  if newTokenIsWord then candidates &&& ~~~wordAt bits.keywords w else candidates

/-- `token_conflicts`. -/
def tokenConflictsInWords (table : ParseTable) (rightState : ParseState) (newToken : Symbol) :
    Bool :=
  let bits := ctx.conflictBits table
  if newToken = .endOfNonterminalExtra then true
  else if newToken.isExternal then true
  else if newToken ∈ rightState.reservedWords then false
  else if newToken.isTerminal && hasBit bits.internalExternal newToken.index then true
  else
    let row := bits.conflictRows.getD newToken.index []
    let right := bits.stateTerminals.getD rightState.id []
    (List.range row.length).any fun w => ctx.candidates bits row right newToken w != 0#64

/-- What the test is for. -/
def ConflictsLexically (rightState : ParseState) (newToken : Symbol) : Prop :=
  newToken = .endOfNonterminalExtra ∨ newToken.isExternal = true ∨
    newToken ∉ rightState.reservedWords ∧ newToken.isTerminal = true ∧
      (newToken ∈ ctx.internalExternal ∨ ∃ j, .terminal j ∈ rightState.terminalEntries.keys ∧
          ctx.doesConflict newToken.index j = true ∧
          ¬ (newToken ∈ ctx.keywords ∧ ctx.wordToken = some (.terminal j)) ∧
          ¬ (ctx.wordToken = some newToken ∧ .terminal j ∈ ctx.keywords))

/-- A token that an entry of the parse table is for. -/
def IsToken (s : Symbol) : Prop :=
  (∃ i < ctx.nTerminals, s = .terminal i) ∨ (∃ i, s = .external i) ∨ s = .eof ∨
    s = .endOfNonterminalExtra

/-- The context belongs to the table. -/
structure Fits (table : ParseTable) : Prop where
  isToken : ∀ state ∈ table.states, ∀ s ∈ state.terminalEntries.keys, ctx.IsToken s
  internal : ∀ s ∈ ctx.internalExternal, ∃ i < ctx.nTerminals, s = .terminal i
  keyword : ∀ s ∈ ctx.keywords, ∃ i < ctx.nTerminals, s = .terminal i
  word : ∀ s ∈ ctx.wordToken, (∃ i < ctx.nTerminals, s = .terminal i) ∨ ∃ i, s = .external i

/-- No token is taken for the terminal of its index. -/
structure Unconfused (rightState : ParseState) (newToken : Symbol) : Prop where
  eof : newToken = .eof → newToken ∉ rightState.reservedWords →
    ∀ j, .terminal j ∈ rightState.terminalEntries.keys → ctx.doesConflict 0 j = false
  word : ∀ k, ctx.wordToken = some (.external k) → newToken ∈ ctx.keywords →
    newToken ∉ rightState.reservedWords → newToken ∉ ctx.internalExternal →
      .terminal k ∈ rightState.terminalEntries.keys → ctx.doesConflict newToken.index k = true →
        ∃ j ≠ k, .terminal j ∈ rightState.terminalEntries.keys ∧
          ctx.doesConflict newToken.index j = true

/-! ### The bits -/

variable {ctx} {table : ParseTable} {rightState leftState : ParseState} {newToken : Symbol}

omit ctx in
theorem getLsbD_ite_and_not (b : Bool) (x y : BitVec 64) {k : Nat} (hk : k < 64) :
    (if b = true then x &&& ~~~y else x).getLsbD k = (x.getLsbD k && !(b && y.getLsbD k)) := by
  cases b <;> simp [hk]

theorem getLsbD_candidates (bits : ConflictBits) (row right : List (BitVec 64)) (i : Nat) :
    (ctx.candidates bits row right newToken (i / 64)).getLsbD (i % 64) =
      (hasBit right i && hasBit row i &&
        !(decide (newToken ∈ ctx.keywords) && ctx.wordToken.any (·.index == i)) &&
        !(ctx.wordToken == some newToken && hasBit bits.keywords i)) := by
  have hmod : i % 64 < 64 := Nat.mod_lt i (by decide)
  have hword : ∀ word : Symbol, (word.index / 64 == i / 64 &&
      (BitVec.twoPow 64 (word.index % 64)).getLsbD (i % 64)) = (word.index == i) := by
    intro word
    rw [BitVec.getLsbD_twoPow, Bool.eq_iff_iff]
    simp only [Bool.and_eq_true, beq_iff_eq, decide_eq_true_eq]
    omega
  rw [candidates, getLsbD_ite_and_not _ _ _ hmod]
  cases ctx.wordToken with
  | none => simp [hasBit]
  | some word =>
    dsimp only
    rw [getLsbD_ite_and_not _ _ _ hmod, Bool.and_assoc _ (_ == _), hword, BitVec.getLsbD_and,
      Option.any_some, Option.isSome_some, Bool.true_and]
    rfl

theorem any_candidates_iff (bits : ConflictBits) (row right : List (BitVec 64)) :
    ((List.range row.length).any fun w => ctx.candidates bits row right newToken w != 0#64) = true ↔
      ∃ j, j / 64 < row.length ∧ hasBit right j = true ∧ hasBit row j = true ∧
        ¬ (newToken ∈ ctx.keywords ∧ ∃ word ∈ ctx.wordToken, word.index = j) ∧
          ¬ (ctx.wordToken = some newToken ∧ hasBit bits.keywords j = true) := by
  refine (any_ne_zero_iff (f := ctx.candidates bits row right newToken) fun k hk => by
    rw [getElem_range]).trans (exists_congr fun j => ?_)
  have hany : ctx.wordToken.any (·.index == j) = true ↔ ∃ word ∈ ctx.wordToken, word.index = j := by
    cases ctx.wordToken <;> simp
  rw [length_range, getLsbD_candidates, ← hany]
  simp [and_assoc, imp_iff_not_or]

theorem hasBit_conflictRows {i j : Nat} (hi : i < ctx.nTerminals) (hj : j < ctx.nTerminals) :
    hasBit ((ctx.conflictBits table).conflictRows.getD i []) j = true ↔
      ctx.doesConflict i j = true := by
  rw [conflictBits, getD_eq_getElem?_getD, getElem?_map, getElem?_range hi,
    Option.map_some, Option.getD_some,
    hasBit_setBits fun i hi => mem_range.mp (mem_of_mem_filter hi), mem_filter]
  exact and_iff_right (mem_range.mpr hj)

namespace Fits

variable (h : ctx.Fits table)
include h

theorem hasBit_keywords (j : Nat) :
    hasBit (ctx.conflictBits table).keywords j = true ↔ .terminal j ∈ ctx.keywords := by
  rw [conflictBits, hasBit_setBits fun i hi => mem_range.mp (mem_of_mem_filter hi),
    mem_filter, decide_eq_true_eq]
  refine and_iff_right_of_imp fun hj => ?_
  obtain ⟨i, hi, heq⟩ := h.keyword _ hj
  cases heq
  exact mem_range.mpr hi

theorem hasBit_internalExternal (j : Nat) :
    hasBit (ctx.conflictBits table).internalExternal j = true ↔
      .terminal j ∈ ctx.internalExternal := by
  have hlt : ∀ i ∈ ctx.internalExternal.map Symbol.index, i < ctx.nTerminals := by
    intro i hi
    obtain ⟨s, hs, rfl⟩ := mem_map.mp hi
    obtain ⟨i, hlt, rfl⟩ := h.internal s hs
    exact hlt
  rw [conflictBits, hasBit_setBits hlt, mem_map]
  constructor
  · rintro ⟨s, hs, rfl⟩
    obtain ⟨i, hi, rfl⟩ := h.internal s hs
    exact hs
  · exact fun hj => ⟨_, hj, rfl⟩

section

variable (hright : table.states[rightState.id]? = some rightState)

include hright

theorem hasBit_stateTerminals (j : Nat) :
    hasBit ((ctx.conflictBits table).stateTerminals.getD rightState.id []) j = true ↔
      .terminal j ∈ rightState.terminalEntries.keys := by
  have hterminal : ∀ i ∈ (rightState.terminalEntries.keys.filter Symbol.isTerminal).map Symbol.index,
      .terminal i ∈ rightState.terminalEntries.keys ∧ i < ctx.nTerminals := by
    intro i hi
    obtain ⟨s, hs, rfl⟩ := mem_map.mp hi
    obtain ⟨hs, hkind⟩ := mem_filter.mp hs
    rcases h.isToken _ (mem_of_getElem? hright) s hs with ⟨i, hlt, rfl⟩ | ⟨i, rfl⟩ | rfl | rfl
    · exact ⟨hs, hlt⟩
    all_goals cases hkind
  rw [conflictBits, getD_eq_getElem?_getD, getElem?_map, hright, Option.map_some,
    Option.getD_some, hasBit_setBits fun i hi => (hterminal i hi).2]
  refine ⟨fun hj => (hterminal j hj).1, fun hj => mem_map.mpr ⟨.terminal j, ?_, rfl⟩⟩
  exact mem_filter.mpr ⟨hj, rfl⟩

/-- A token is tested by the terminals of the right state that its index conflicts with. -/
theorem any_candidates (hlt : newToken.index < ctx.nTerminals ∨ newToken = .eof) :
    ((List.range ((ctx.conflictBits table).conflictRows.getD newToken.index []).length).any fun w =>
      ctx.candidates (ctx.conflictBits table)
        ((ctx.conflictBits table).conflictRows.getD newToken.index [])
        ((ctx.conflictBits table).stateTerminals.getD rightState.id []) newToken w != 0#64) = true ↔
      ∃ j, .terminal j ∈ rightState.terminalEntries.keys ∧
        ctx.doesConflict newToken.index j = true ∧
        ¬ (newToken ∈ ctx.keywords ∧ ∃ word ∈ ctx.wordToken, word.index = j) ∧
          ¬ (ctx.wordToken = some newToken ∧ .terminal j ∈ ctx.keywords) := by
  refine (any_candidates_iff _ _ _).trans (exists_congr fun j => ?_)
  rw [h.hasBit_stateTerminals hright, h.hasBit_keywords]
  by_cases hj : .terminal j ∈ rightState.terminalEntries.keys
  · have hjlt : j < ctx.nTerminals := by
      rcases h.isToken _ (mem_of_getElem? hright) _ hj with ⟨i, hlt, heq⟩ | ⟨i, heq⟩ | heq | heq
      · cases heq
        exact hlt
      all_goals cases heq
    have hindex : newToken.index < ctx.nTerminals := by
      rcases hlt with hlt | rfl
      · exact hlt
      · exact Nat.zero_lt_of_lt hjlt
    have hrow : ((ctx.conflictBits table).conflictRows.getD newToken.index []).length =
        (ctx.nTerminals + 63) / 64 := by
      rw [conflictBits, getD_eq_getElem?_getD, getElem?_map, getElem?_range hindex,
        Option.map_some, Option.getD_some, length_setBits]
    rw [hasBit_conflictRows hindex hjlt, hrow, and_iff_right (show j / 64 < _ by omega)]
  · exact iff_of_false (fun hall => hj hall.2.1) fun hall => hj hall.1

theorem tokenConflictsInWords (hlt : newToken.index < ctx.nTerminals ∨ newToken = .eof) :
    ctx.tokenConflictsInWords table rightState newToken = true ↔
      newToken = .endOfNonterminalExtra ∨ newToken.isExternal = true ∨
        newToken ∉ rightState.reservedWords ∧
          (newToken.isTerminal = true ∧ .terminal newToken.index ∈ ctx.internalExternal ∨
            ∃ j, .terminal j ∈ rightState.terminalEntries.keys ∧
              ctx.doesConflict newToken.index j = true ∧
              ¬ (newToken ∈ ctx.keywords ∧ ∃ word ∈ ctx.wordToken, word.index = j) ∧
                ¬ (ctx.wordToken = some newToken ∧ .terminal j ∈ ctx.keywords)) := by
  rw [MinimizerContext.tokenConflictsInWords]
  dsimp only
  by_cases hextra : newToken = .endOfNonterminalExtra
  · rw [if_pos hextra]
    exact iff_of_true rfl (.inl hextra)
  rw [if_neg hextra, or_iff_right hextra]
  by_cases hexternal : newToken.isExternal = true
  · rw [if_pos hexternal]
    exact iff_of_true rfl (.inl hexternal)
  rw [if_neg hexternal, or_iff_right hexternal]
  by_cases hreserved : newToken ∈ rightState.reservedWords
  · rw [if_pos hreserved]
    exact iff_of_false Bool.false_ne_true fun hall => hall.1 hreserved
  rw [if_neg hreserved, and_iff_right hreserved, ← h.any_candidates hright hlt,
    ← h.hasBit_internalExternal, ← Bool.and_eq_true]
  split
  next hinternal => exact iff_of_true rfl (.inl hinternal)
  next hinternal => exact (or_iff_right hinternal).symm

end

end Fits

/-- For a terminal, the exemption of the word token is what can differ. -/
theorem Fits.conflicts_terminal_iff (h : ctx.Fits table) {i : Nat}
    (hreserved : .terminal i ∉ rightState.reservedWords)
    (hinternal : .terminal i ∉ ctx.internalExternal) :
    ((∃ j, .terminal j ∈ rightState.terminalEntries.keys ∧ ctx.doesConflict i j = true ∧
        ¬ (.terminal i ∈ ctx.keywords ∧ ∃ word ∈ ctx.wordToken, word.index = j) ∧
        ¬ (ctx.wordToken = some (.terminal i) ∧ .terminal j ∈ ctx.keywords)) ↔
      ∃ j, .terminal j ∈ rightState.terminalEntries.keys ∧ ctx.doesConflict i j = true ∧
        ¬ (.terminal i ∈ ctx.keywords ∧ ctx.wordToken = some (.terminal j)) ∧
        ¬ (ctx.wordToken = some (.terminal i) ∧ .terminal j ∈ ctx.keywords)) ↔
      ctx.Unconfused rightState (.terminal i) := by
  constructor
  · intro hagree
    refine ⟨by rintro ⟨⟩, fun k hword hkeyword _ _ hk hconflict => ?_⟩
    have hne : ∀ j, ctx.wordToken ≠ some (.terminal j) := fun j hj => by cases hword.symm.trans hj
    obtain ⟨j, hj, hconflict', hnot, -⟩ := hagree.mpr ⟨k, hk, hconflict,
      fun hall => hne k hall.2, fun hall => hne i hall.1⟩
    exact ⟨j, fun heq => hnot ⟨hkeyword, _, hword, heq.symm⟩, hj, hconflict'⟩
  · intro hclear
    constructor
    · rintro ⟨j, hj, hconflict, hnot, hnot'⟩
      exact ⟨j, hj, hconflict, fun hall => hnot ⟨hall.1, _, hall.2, rfl⟩, hnot'⟩
    · rintro ⟨j, hj, hconflict, hnot, hnot'⟩
      by_cases hexempt : .terminal i ∈ ctx.keywords ∧ ∃ word ∈ ctx.wordToken, word.index = j
      · obtain ⟨hkeyword, word, hword, rfl⟩ := hexempt
        rcases h.word word hword with ⟨k, -, rfl⟩ | ⟨k, rfl⟩
        · exact absurd ⟨hkeyword, hword⟩ hnot
        · obtain ⟨j, hne, hj, hconflict⟩ := hclear.word k hword hkeyword hreserved hinternal hj
            hconflict
          refine ⟨j, hj, hconflict, ?_, fun hall => by cases hword.symm.trans hall.1⟩
          rintro ⟨-, word', hword', rfl⟩
          cases hword.symm.trans hword'
          exact hne rfl
      · exact ⟨j, hj, hconflict, hexempt, hnot'⟩

/-- **The packed test is the test of each token exactly if no token is taken for another one.** -/
theorem tokenConflictsInWords_iff (h : ctx.Fits table) (hleft : leftState ∈ table.states)
    (hright : table.states[rightState.id]? = some rightState)
    (hnew : newToken ∈ leftState.terminalEntries.keys) :
    (ctx.tokenConflictsInWords table rightState newToken = true ↔
      ctx.ConflictsLexically rightState newToken) ↔ ctx.Unconfused rightState newToken := by
  have hexternal : ∀ k, .external k ∉ ctx.keywords := fun k hk => by
    obtain ⟨i, -, heq⟩ := h.keyword _ hk
    cases heq
  have heof : .eof ∉ ctx.keywords := fun hk => by
    obtain ⟨i, -, heq⟩ := h.keyword _ hk
    cases heq
  have hextra : .endOfNonterminalExtra ∉ ctx.keywords := fun hk => by
    obtain ⟨i, -, heq⟩ := h.keyword _ hk
    cases heq
  rcases h.isToken _ hleft _ hnew with ⟨i, hlt, rfl⟩ | ⟨i, rfl⟩ | rfl | rfl
  · have hne : Symbol.terminal i ≠ .endOfNonterminalExtra := by rintro ⟨⟩
    have hkind : (Symbol.terminal i).isExternal ≠ true := by rintro ⟨⟩
    have hterminal : (Symbol.terminal i).isTerminal = true := rfl
    have hindex : Symbol.terminal (Symbol.terminal i).index = .terminal i := rfl
    rw [h.tokenConflictsInWords hright (.inl hlt), ConflictsLexically, or_iff_right hne,
      or_iff_right hne, or_iff_right hkind, or_iff_right hkind, and_iff_right hterminal,
      and_iff_right hterminal, hindex]
    by_cases hreserved : .terminal i ∈ rightState.reservedWords
    · refine iff_of_true ?_ ⟨by rintro ⟨⟩, fun k _ _ hnot => absurd hreserved hnot⟩
      exact iff_of_false (fun hall => hall.1 hreserved) fun hall => hall.1 hreserved
    by_cases hinternal : .terminal i ∈ ctx.internalExternal
    · refine iff_of_true ?_ ⟨by rintro ⟨⟩, fun k _ _ _ hnot => absurd hinternal hnot⟩
      exact iff_of_true ⟨hreserved, .inl hinternal⟩ ⟨hreserved, .inl hinternal⟩
    rw [and_iff_right hreserved, and_iff_right hreserved, or_iff_right hinternal,
      or_iff_right hinternal]
    exact h.conflicts_terminal_iff hreserved hinternal
  · refine iff_of_true (iff_of_true rfl (.inr (.inl rfl))) ⟨by rintro ⟨⟩, fun k _ hk => ?_⟩
    exact absurd hk (hexternal i)
  · have hspec : ¬ ctx.ConflictsLexically rightState .eof := by
      rintro (heq | hkind | ⟨-, hkind, -⟩)
      · cases heq
      all_goals cases hkind
    have hne : Symbol.eof ≠ .endOfNonterminalExtra := by rintro ⟨⟩
    have hkind : Symbol.eof.isExternal ≠ true := by rintro ⟨⟩
    rw [iff_false_right hspec, h.tokenConflictsInWords hright (.inr rfl), or_iff_right hne,
      or_iff_right hkind, or_iff_right fun hall => by cases hall.1]
    constructor
    · refine fun hnot => ⟨fun _ hreserved j hj => ?_, fun k _ hk => absurd hk heof⟩
      refine Bool.eq_false_iff.mpr fun hconflict => hnot ⟨hreserved, j, hj, hconflict,
        fun hall => heof hall.1, fun hall => ?_⟩
      rcases h.word _ hall.1 with ⟨k, -, heq⟩ | ⟨k, heq⟩ <;> cases heq
    · rintro hclear ⟨hreserved, j, hj, hconflict, -⟩
      exact absurd hconflict (Bool.eq_false_iff.mp (hclear.eof rfl hreserved j hj))
  · refine iff_of_true (iff_of_true rfl (.inl rfl)) ⟨by rintro ⟨⟩, fun k _ hk => ?_⟩
    exact absurd hk hextra

/-- Two terminals, the first one of which conflicts with the second one. -/
def firstConflicts : MinimizerContext where
  nTerminals := 2
  doesConflict i j := i == 0 && j == 1
  keywords := ∅
  wordToken := none
  internalExternal := []

def stateFor (id : Nat) (token : Symbol) : ParseState where
  id := id
  terminalEntries := IndexMap.empty.insert token ⟨0, false⟩
  nonterminalEntries := .empty

/-- A state for the second terminal, and one for the end of the file. -/
def twoStates : ParseTable where
  states := [stateFor 0 (.terminal 1), stateFor 1 .eof]
  actionLists := []

theorem fits_twoStates : firstConflicts.Fits twoStates where
  isToken state hstate s hs := by
    simp only [twoStates, mem_cons, not_mem_nil, or_false] at hstate
    rcases hstate with rfl | rfl
    · cases mem_singleton.mp hs
      exact .inl ⟨1, by decide, rfl⟩
    · cases mem_singleton.mp hs
      exact .inr (.inr (.inl rfl))
  internal s hs := absurd hs not_mem_nil
  keyword s hs := absurd hs (Finset.notMem_empty s)
  word s hs := by cases hs

theorem tokenConflictsInWords_iff_twoStates :
    (firstConflicts.tokenConflictsInWords twoStates (stateFor 0 (.terminal 1)) .eof = true ↔
      firstConflicts.ConflictsLexically (stateFor 0 (.terminal 1)) .eof) ↔
        firstConflicts.Unconfused (stateFor 0 (.terminal 1)) .eof :=
  tokenConflictsInWords_iff fits_twoStates (mem_of_getElem? (i := 1) rfl) rfl
    mem_cons_self

/-- The end of the file conflicts like the first terminal. -/
theorem exists_eof_conflicts :
    firstConflicts.tokenConflictsInWords twoStates (stateFor 0 (.terminal 1)) .eof = true ∧
      ¬ firstConflicts.ConflictsLexically (stateFor 0 (.terminal 1)) .eof := by
  refine ⟨(fits_twoStates.tokenConflictsInWords rfl (.inr rfl)).mpr (.inr (.inr ?_)), ?_⟩
  · exact ⟨Finset.notMem_empty _, .inr ⟨1, by decide, rfl, by decide, by decide⟩⟩
  · rintro (heq | hkind | ⟨-, hkind, -⟩)
    · cases heq
    all_goals cases hkind

end MinimizerContext

end TreeSitter.Generate
