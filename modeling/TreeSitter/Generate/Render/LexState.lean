import TreeSitter.Generate.BuildTables.BuildLexTable
import TreeSitter.Generate.CharacterSetSpec

/-!
# TreeSitter.Generate.Render.LexState

`add_lex_state` of `render.rs`: the **C code of a lex state**, as a list of statements
(`LexStmt`) with its conditions (`Cond`) as trees, and what running it does.

Text is printed piece by piece, so a condition for which no piece is printed is not C at all:
that is `Cond.missing`, and code with one in it cannot be run. It comes from sets that contain
nothing but surrogates, which are code points but not characters. `Complete` says that there
is none.
-/

namespace TreeSitter.Generate

/-! ### Conditions -/

/-- The loop of `set_contains`; `none` if it reads behind the array. -/
def setContainsFrom (ranges : List (Nat × Nat)) (lookahead : Nat) : Nat → Nat → Nat → Option Bool
  | 0, _, _ => none
  | fuel + 1, index, size =>
    if size > 1 then
      (ranges[index + size / 2]?).bind fun range =>
        if lookahead ≥ range.1 ∧ lookahead ≤ range.2 then some true
        else if lookahead > range.2 then
          setContainsFrom ranges lookahead fuel (index + size / 2) (size - size / 2)
        else setContainsFrom ranges lookahead fuel index (size - size / 2)
    else (ranges[index]?).map fun range => lookahead ≥ range.1 && lookahead ≤ range.2

/-- `set_contains`. -/
def setContains (ranges : List (Nat × Nat)) (len lookahead : Nat) : Option Bool :=
  setContainsFrom ranges lookahead (len + 1) 0 len

/-- A condition on the lookahead. -/
inductive Cond
  /-- Nothing is printed. -/
  | missing
  /-- `eof`. -/
  | eof
  /-- `!eof`. -/
  | notEof
  /-- `lookahead == c`. -/
  | eq (c : Nat)
  /-- `lookahead != c`. -/
  | ne (c : Nat)
  /-- `lookahead <= c`. -/
  | le (c : Nat)
  /-- `c <= lookahead`. -/
  | ge (c : Nat)
  /-- `lookahead < c`. -/
  | lt (c : Nat)
  /-- `lookahead > c`. -/
  | gt (c : Nat)
  /-- `set_contains` on a constant array. -/
  | setContains (ranges : List (Nat × Nat)) (len : Nat)
  /-- `&&`. -/
  | and (left right : Cond)
  /-- `||`. -/
  | or (left right : Cond)

namespace Cond

def eval (eof : Bool) (lookahead : Nat) : Cond → Option Bool
  | missing => none
  | .eof => some eof
  | notEof => some !eof
  | eq c => some (lookahead == c)
  | ne c => some (lookahead != c)
  | le c => some (lookahead ≤ c)
  | ge c => some (c ≤ lookahead)
  | lt c => some (lookahead < c)
  | gt c => some (lookahead > c)
  | .setContains ranges len => Generate.setContains ranges len lookahead
  | .and left right =>
    (left.eval eof lookahead).bind fun l => (right.eval eof lookahead).map (l && ·)
  | .or left right =>
    (left.eval eof lookahead).bind fun l => (right.eval eof lookahead).map (l || ·)

/-- Everything that is joined by an operator is printed. -/
def Complete : Cond → Prop
  | missing => False
  | .and left right | .or left right => left.Complete ∧ right.Complete
  | _ => True

/-- Conditions printed with an operator between them. -/
def join (op : Cond → Cond → Cond) : List Cond → Cond
  | [] => missing
  | [cond] => cond
  | cond :: next :: rest => op cond (join op (next :: rest))

end Cond

def includedTest (start stop : Nat) : Cond :=
  if start = 0 then .and .notEof (if stop = 0 then .eq 0 else .le stop)
  else if stop = start then .eq start
  else if stop = start + 1 then .or (.eq start) (.eq stop)
  else .and (.ge start) (.le stop)

def excludedTest (start stop : Nat) : Cond :=
  if stop = start then .ne start
  else if stop = start + 1 then .and (.ne start) (.ne stop)
  else if start ≠ 0 then .or (.lt start) (.gt stop)
  else .gt stop

/-- `add_character_range_conditions`. -/
def characterRangeConditions (characters : CharacterSet) (isIncluded : Bool) : Cond :=
  if isIncluded then
    .join .or (characters.charRanges.map fun r => includedTest r.1 r.2)
  else .join .and (characters.charRanges.map fun r => excludedTest r.1 r.2)

/-- The condition for the asserted characters, which is negated if they contain the last
character. -/
def assertedCondition (asserted : CharacterSet) : Cond :=
  if asserted.contains (Char.ofNat 0x10FFFF) then
    characterRangeConditions (asserted.negate.addChar (Char.ofNat 0)) false
  else characterRangeConditions asserted true

def largeSetCondition (largeSet : CharacterSet) : Cond :=
  if largeSet.contains (Char.ofNat 0) then
    .and .notEof (.setContains largeSet.charRanges largeSet.rangeCount)
  else .setContains largeSet.charRanges largeSet.rangeCount

/-! ### Transitions -/

/-- `best_large_char_set`: a large set, and what to add to it and to remove from it. -/
structure LargeSetMatch where
  largeSet : CharacterSet
  additions : CharacterSet
  removals : CharacterSet

def LargeSetMatch.rangeCount (m : LargeSetMatch) : Nat :=
  m.additions.rangeCount + m.removals.rangeCount

def considerLargeSet (simplified ruledOut : CharacterSet) (best : Option LargeSetMatch)
    (set : CharacterSet) : Option LargeSetMatch :=
  let candidate : LargeSetMatch :=
    { largeSet := set
      additions := (simplified.difference set).simplifyIgnoring ruledOut
      removals := (simplified.remainder set).simplifyIgnoring ruledOut }
  if (simplified.intersection set).isEmpty then best
  else if candidate.rangeCount ≥ simplified.rangeCount then best
  else
    match best with
    | some b => if b.rangeCount < candidate.rangeCount then best else some candidate
    | none => some candidate

/-- `LARGE_CHARACTER_RANGE_COUNT`. -/
def largeCharacterRangeCount : Nat := 8

/-- The large set a transition is tested with, if there is one. -/
def bestLargeSet (largeSets : List CharacterSet) (simplified ruledOut : CharacterSet) :
    Option LargeSetMatch :=
  if simplified.rangeCount ≥ largeCharacterRangeCount then
    largeSets.foldl (considerLargeSet simplified ruledOut) none
  else none

/-- The condition with a large set: the set or the additions, and none of the removals. -/
def largeSetMatchCondition (m : LargeSetMatch) : Cond :=
  let positive :=
    if m.additions.isEmpty then largeSetCondition m.largeSet
    else .or (largeSetCondition m.largeSet) (assertedCondition m.additions)
  if m.removals.isEmpty then positive
  else .and positive (characterRangeConditions m.removals false)

/-- The condition of a transition; with no characters to test there is none. -/
def transitionCondition (largeSets : List CharacterSet) (ruledOut chars : CharacterSet) :
    Option Cond :=
  let simplified := chars.simplifyIgnoring ruledOut
  match bestLargeSet largeSets simplified ruledOut with
  | some m => some (largeSetMatchCondition m)
  | none => if simplified.isEmpty then none else some (assertedCondition simplified)

/-! ### States -/

/-- A statement that may leave the state. -/
inductive LexStmt
  /-- `ADVANCE_MAP` of characters and states. -/
  | advanceMap (pairs : List (Nat × Nat))
  /-- `if (cond) ADVANCE(state);`, or `SKIP`; without a condition if there is none. -/
  | branch (cond : Option Cond) (action : AdvanceAction)

/-- A transition that `ADVANCE_MAP` can hold: single characters or pairs of neighbours, in
16 bits. -/
def isSimpleTransition (transition : CharacterSet × AdvanceAction) : Bool :=
  transition.2.inMainToken &&
    transition.1.charRanges.all fun r => decide (r.2 ≤ r.1 + 1) && decide (r.2 < 2 ^ 16)

/-- The entries of one transition in `ADVANCE_MAP`. -/
def advanceMapEntries (transition : CharacterSet × AdvanceAction) : List (Nat × Nat) :=
  transition.1.charRanges.flatMap fun r =>
    (r.1, transition.2.state) :: if r.2 > r.1 then [(r.2, transition.2.state)] else []

/-- `leading_simple_transition_count`, which is 0 if there are not enough of them. -/
def leadingSimpleTransitionCount (actions : List (CharacterSet × AdvanceAction)) : Nat :=
  if 8 ≤ ((actions.takeWhile isSimpleTransition).map (·.1.rangeCount)).sum then
    (actions.takeWhile isSimpleTransition).length
  else 0

/-- The loop over the transitions that are tested one by one. -/
def transitionStmts (largeSets : List CharacterSet) :
    CharacterSet → List (CharacterSet × AdvanceAction) → List LexStmt
  | _, [] => []
  | ruledOut, transition :: rest =>
    .branch (transitionCondition largeSets ruledOut transition.1) transition.2 ::
      transitionStmts largeSets (ruledOut.add transition.1) rest

/-- `add_lex_state`, less the accepted token. -/
def lexStateCode (largeSets : List CharacterSet) (state : LexState) : List LexStmt :=
  let count := leadingSimpleTransitionCount state.advanceActions
  let leading := state.advanceActions.take count
  (state.eofAction.map fun action => LexStmt.branch (some .eof) ⟨action.state, true⟩).toList ++
    (if count = 0 then [] else [.advanceMap (leading.flatMap advanceMapEntries)]) ++
    transitionStmts largeSets
      (leading.foldl (fun ruledOut transition => ruledOut.add transition.1) .empty)
      (state.advanceActions.drop count)

/-- Running the code of a state: the action it picks, if it picks one. -/
def runCode (eof : Bool) (lookahead : Nat) : List LexStmt → Option (Option AdvanceAction)
  | [] => some none
  | .advanceMap pairs :: rest =>
    match pairs.find? fun p => p.1 == lookahead with
    | some p => some (some ⟨p.2, true⟩)
    | none => runCode eof lookahead rest
  | .branch none action :: _ => some (some action)
  | .branch (some cond) action :: rest =>
    (cond.eval eof lookahead).bind fun holds =>
      if holds then some (some action) else runCode eof lookahead rest

/-- All conditions are printed. -/
def Complete (code : List LexStmt) : Prop :=
  ∀ cond action, LexStmt.branch (some cond) action ∈ code → cond.Complete

end TreeSitter.Generate
