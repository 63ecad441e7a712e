import TreeSitter.Generate.Dedup
import TreeSitter.Generate.NfaCursor
import TreeSitter.Generate.Tables

/-!
# TreeSitter.Generate.BuildTables.BuildLexTable

`build_lex_table.rs`: the **lex table builder**, which determinises the lexical automaton
from the entry points it is given, and the two passes over its result,
`minimize_lex_table` and `sort_states`. `lexRun` is what a lex table means: the accepted
tokens and the advance or skip steps on an input.
-/

namespace TreeSitter.Generate

open Library

/-! ### The builder -/

/-- `LexicalVariable`, less its name and kind. -/
structure LexicalVariable where
  implicitPrecedence : Int
  startState : Nat

/-- `LexicalGrammar`. -/
structure LexicalGrammar where
  nfa : List NfaState
  lexicalVariables : List LexicalVariable

/-- `variable_index_for_nfa_state`: the first variable whose start state is not below
the state. -/
def LexicalGrammar.variableIndexForNfaState (grammar : LexicalGrammar) (stateId : Nat) : Nat :=
  grammar.lexicalVariables.findIdx fun v => !(v.startState < stateId)

def LexicalGrammar.implicitPrecedence (grammar : LexicalGrammar) (i : Nat) : Int :=
  (grammar.lexicalVariables[i]?.map (·.implicitPrecedence)).getD 0

/-- `TokenConflictMap::prefer_token`; both sides are a precedence and a variable. -/
def preferToken (grammar : LexicalGrammar) (left right : Int × Nat) : Bool :=
  match compare left.1 right.1 with
  | .lt => false
  | .gt => true
  | .eq =>
    match compare (grammar.implicitPrecedence left.2) (grammar.implicitPrecedence right.2) with
    | .lt => false
    | .gt => true
    | .eq => left.2 < right.2

/-- `TokenConflictMap::prefer_transition`. -/
def preferTransition (grammar : LexicalGrammar) (t : NfaTransition) (completedId : Nat)
    (completedPrecedence : Int) (hasSeparatorTransitions : Bool) : Bool :=
  if t.precedence < completedPrecedence then false
  else if t.precedence = completedPrecedence then
    if t.isSeparator then false
    else !(hasSeparatorTransitions &&
      !(t.states.map grammar.variableIndexForNfaState).any (· == completedId))
  else true

/-- `QueueEntry`. -/
structure QueueEntry where
  stateId : Nat
  nfaStates : List Nat
  eofValid : Bool

/-- `LexTableBuilder`. The cursor is part of the state: `populate_state` reads it after
the calls that moved it. -/
structure LexTableBuilder where
  cursor : List Nat := []
  states : List LexState := []
  stateQueue : List QueueEntry := []
  stateIdsByNfaStateSet : List ((List Nat × Bool) × Nat) := []

namespace LexTableBuilder

variable (grammar : LexicalGrammar)

/-- `add_state`. -/
def addState (b : LexTableBuilder) (nfaStates : List Nat) (eofValid : Bool) :
    (Nat × Bool) × LexTableBuilder :=
  let cursor := resetCursor grammar.nfa nfaStates
  match lookupEntry (cursor, eofValid) b.stateIdsByNfaStateSet with
  | some stateId => ((stateId, false), { b with cursor := cursor })
  | none =>
    ((b.states.length, true),
      { cursor := cursor
        states := b.states ++ [{}]
        stateQueue := b.stateQueue ++ [⟨b.states.length, cursor, eofValid⟩]
        stateIdsByNfaStateSet :=
          ((cursor, eofValid), b.states.length) :: b.stateIdsByNfaStateSet })

/-- The loop over the completions: the preferred one, as variable and precedence. -/
def bestCompletion (completions : List (Nat × Int)) : Option (Nat × Int) :=
  completions.foldl (fun best c =>
    match best with
    | some prev => if preferToken grammar (prev.2, prev.1) (c.2, c.1) then best else some c
    | none => some c) none

def modifyState (b : LexTableBuilder) (stateId : Nat) (f : LexState → LexState) :
    LexTableBuilder :=
  { b with states := b.states.modify stateId f }

/-- The transition to the end-of-file state, if end of file is a valid lookahead. -/
def addEofAction (b : LexTableBuilder) (stateId : Nat) (eofValid : Bool) : LexTableBuilder :=
  if eofValid then
    let p := b.addState grammar [] false
    p.2.modifyState stateId fun state =>
      { state with eofAction := some ⟨p.1.1, true⟩ }
  else b

/-- One turn of the loop over the transitions. -/
def addAdvanceAction (stateId : Nat) (eofValid : Bool) (completion : Option (Nat × Int))
    (hasSep : Bool) (b : LexTableBuilder) (t : NfaTransition) : LexTableBuilder :=
  if completion.any fun c => !preferTransition grammar t c.1 c.2 hasSep then b
  else
    let p := b.addState grammar t.states (eofValid && t.isSeparator)
    p.2.modifyState stateId fun state =>
      { state with
        advanceActions := state.advanceActions ++ [(t.characters, ⟨p.1.1, !t.isSeparator⟩)] }

def setAcceptAction (b : LexTableBuilder) (stateId : Nat) (completion : Option (Nat × Int)) :
    LexTableBuilder :=
  match completion with
  | some c => b.modifyState stateId fun state =>
    { state with acceptAction := some (Symbol.terminal c.1) }
  | none =>
    if b.cursor.isEmpty then
      b.modifyState stateId fun state => { state with acceptAction := some Symbol.eof }
    else b

/-- `populate_state`. -/
def populateState (b : LexTableBuilder) (entry : QueueEntry) : LexTableBuilder :=
  let b := { b with cursor := entry.nfaStates }
  let completion := bestCompletion grammar (completions grammar.nfa entry.nfaStates)
  let raw := rawTransitions grammar.nfa entry.nfaStates
  let hasSep := raw.any (·.isSep)
  let b := b.addEofAction grammar entry.stateId entry.eofValid
  let b := (groupTransitions raw).foldl
    (addAdvanceAction grammar entry.stateId entry.eofValid completion hasSep) b
  b.setAcceptAction entry.stateId completion

/-- The loop `while let Some(..) = self.state_queue.pop_front()`; `none` if the fuel is
used up. -/
def drainQueue : Nat → LexTableBuilder → Option LexTableBuilder
  | 0, _ => none
  | fuel + 1, b =>
    match b.stateQueue with
    | [] => some b
    | entry :: rest => drainQueue fuel (populateState grammar { b with stateQueue := rest } entry)

/-- `add_state_for_tokens`, the tokens in the order of the set. -/
def addStateForTokens (fuel : Nat) (b : LexTableBuilder) (tokens : List Symbol) :
    Option (Nat × LexTableBuilder) := do
  let nfaStates := tokens.filterMap fun token =>
    if token.isTerminal then grammar.lexicalVariables[token.index]?.map (·.startState) else none
  let eofValid := tokens.any fun token => !token.isTerminal
  let p := b.addState grammar nfaStates eofValid
  let b ← drainQueue grammar fuel p.2
  some (p.1.1, b)

end LexTableBuilder

/-! ### The main lex table -/

/-- Add a parse state to the first entry its tokens can be merged into, or to an entry of
its own. `mergeTokenSet` is the merged set, if there is no conflict. -/
def addToTokenSets (mergeTokenSet : List Symbol → List Symbol → Option (List Symbol))
    (tokens : List Symbol) (parseStateId : Nat) :
    List (List Symbol × List Nat) → List (List Symbol × List Nat)
  | [] => [(tokens, [parseStateId])]
  | entry :: rest =>
    match mergeTokenSet entry.1 tokens with
    | some merged => (merged, entry.2 ++ [parseStateId]) :: rest
    | none => entry :: addToTokenSets mergeTokenSet tokens parseStateId rest

/-- `parse_state_ids_by_token_set`, from the tokens of each parse state. -/
def parseStateIdsByTokenSet
    (mergeTokenSet : List Symbol → List Symbol → Option (List Symbol))
    (tokenSets : List (List Symbol)) : List (List Symbol × List Nat) :=
  tokenSets.zipIdx.foldl (fun entries e => addToTokenSets mergeTokenSet e.1 e.2 entries) []

/-- The loop over the token sets: a lex state for each, which its parse states refer to. -/
def assignLexStates (grammar : LexicalGrammar) (fuel : Nat) :
    List (List Symbol × List Nat) → LexTableBuilder → List Nat →
      Option (LexTable × List Nat)
  | [], b, lexStateIds => some (⟨b.states⟩, lexStateIds)
  | entry :: rest, b, lexStateIds =>
    (b.addStateForTokens grammar fuel entry.1).bind fun p =>
      assignLexStates grammar fuel rest p.2
        (entry.2.foldl (fun ids parseStateId => ids.set parseStateId p.1) lexStateIds)

/-- The main lex table as `build_lex_table` hands it to `minimize_lex_table`, with the lex
state ids of the parse states, which are 0 at first. -/
def buildMainLexTable (grammar : LexicalGrammar)
    (mergeTokenSet : List Symbol → List Symbol → Option (List Symbol)) (fuel : Nat)
    (tokenSets : List (List Symbol)) : Option (LexTable × List Nat) :=
  assignLexStates grammar fuel (parseStateIdsByTokenSet mergeTokenSet tokenSets) {}
    (List.replicate tokenSets.length 0)

/-! ### Minimisation -/

/-- The signature states are grouped by at first. -/
structure LexSignature where
  isFirst : Bool
  acceptAction : Option Symbol
  hasEofAction : Bool
  advanceActions : List (CharacterSet × Bool)
deriving DecidableEq

def lexSignature (i : Nat) (state : LexState) : LexSignature where
  isFirst := i == 0
  acceptAction := state.acceptAction
  hasEofAction := state.eofAction.isSome
  advanceActions := state.advanceActions.map fun a => (a.1, a.2.inMainToken)

/-- `state_ids_by_signature`: each state id is pushed to the entry of its signature. -/
def groupBySignature {σ : Type} [DecidableEq σ] (signatures : List σ) :
    IndexMap σ (List Nat) :=
  signatures.zipIdx.foldl (fun m e => m.insert e.1 ((m.get? e.1).getD [] ++ [e.2]))
    ⟨[], List.nodup_nil⟩

/-- The groups minimisation starts from: sorted, with the group of state 0 first. -/
def signatureGroups (table : LexTable) : Option Groups := do
  let members := ((groupBySignature
    (table.states.mapIdx fun i state => lexSignature i state)).entries.map Prod.snd).insertionSort
      (· ≤ ·)
  let errorGroupIndex ← members.findIdx? (·.contains 0)
  let members ← swapAt members errorGroupIndex 0
  some ⟨members, fun s => (members.findIdx? (·.contains s)).getD 0⟩

/-- `lex_states_differ`. -/
def lexStatesDiffer (left right : LexState) (groupOf : Nat → Nat) : Bool :=
  (left.advanceActions.zip right.advanceActions).any fun p =>
    groupOf p.1.2.state != groupOf p.2.2.state

def AdvanceAction.rename (f : Nat → Nat) (action : AdvanceAction) : AdvanceAction :=
  { action with state := f action.state }

def LexState.rename (f : Nat → Nat) (state : LexState) : LexState :=
  { state with
    eofAction := state.eofAction.map (AdvanceAction.rename f)
    advanceActions := state.advanceActions.map fun a => (a.1, a.2.rename f) }

/-- `minimize_lex_table`, on the lex state ids of the parse states; `none` is a panic. -/
def minimizeLexTable (table : LexTable) (lexStateIds : List Nat) :
    Option (LexTable × List Nat) := do
  let start ← signatureGroups table
  let groups := splitUntilStable (differIn table.states lexStatesDiffer) 1
    (table.states.length + 1) start
  let newStates ← groups.members.mapM fun ids => do
    let leader ← ids.head?
    let state ← table.states[leader]?
    some (state.rename groups.groupOf)
  some (⟨newStates⟩, lexStateIds.map groups.groupOf)

/-! ### Sorting -/

def Symbol.cmp (a b : Symbol) : Ordering :=
  (compare a.kind.ctorIdx b.kind.ctorIdx).then (compare a.index b.index)

def AdvanceAction.cmp (a b : AdvanceAction) : Ordering :=
  (compare a.state b.state).then (compare a.inMainToken b.inMainToken)

/-- The derived order of options: `None` is least. -/
def compareOption {α : Type*} (cmp : α → α → Ordering) : Option α → Option α → Ordering
  | none, none => .eq
  | none, some _ => .lt
  | some _, none => .gt
  | some a, some b => cmp a b

/-- The derived order of vectors: lexicographic. -/
def compareList {α : Type*} (cmp : α → α → Ordering) : List α → List α → Ordering
  | [], [] => .eq
  | [], _ :: _ => .lt
  | _ :: _, [] => .gt
  | a :: as, b :: bs => (cmp a b).then (compareList cmp as bs)

def LexState.cmp (a b : LexState) : Ordering :=
  (compareOption Symbol.cmp a.acceptAction b.acceptAction).then
    ((compareOption AdvanceAction.cmp a.eofAction b.eofAction).then
      (compareList (fun x y => (x.1.cmp y.1).then (x.2.cmp y.2)) a.advanceActions
        b.advanceActions))

/-- `old_ids_by_new_id`: the first state stays, the others are sorted by their value. -/
def sortedIds (table : LexTable) : List Nat :=
  (List.range table.states.length).take 1 ++
    ((List.range table.states.length).drop 1).insertionSort fun i j =>
      ((table.states.getD i {}).cmp (table.states.getD j {})).isLE = true

/-- `new_ids_by_old_id`. -/
def newIdOf (oldIds : List Nat) (oldId : Nat) : Nat := oldIds.idxOf oldId

/-- `sort_states`, on the lex state ids of the parse states. -/
def sortStates (table : LexTable) (lexStateIds : List Nat) : LexTable × List Nat :=
  let oldIds := sortedIds table
  (⟨oldIds.map fun i => (table.states.getD i {}).rename (newIdOf oldIds)⟩,
    lexStateIds.map (newIdOf oldIds))

/-! ### Running a lex table -/

/-- The first advance action for a code point. -/
def LexState.advanceOn (state : LexState) (c : Nat) : Option AdvanceAction :=
  (state.advanceActions.find? fun a => decide (c ∈ a.1)).map Prod.snd

/-- The action for a lookahead; `none` is the end of file, where a lexer sees the null
character and tests for the end first. -/
def LexState.next (state : LexState) : Option Nat → Option AdvanceAction
  | some c => state.advanceOn c
  | none => state.eofAction.or (state.advanceOn 0)

/-- A run: for each state on the way the token it accepts, and the step taken there,
whether it is part of the token or skipped; `none` in the end of the run. The run as a
whole is `none` if it comes to a state that does not exist. -/
def lexRun (table : LexTable) : Nat → List (Option Nat) →
    Option (List (Option Symbol × Option Bool))
  | s, [] => table.states[s]?.map fun state => [(state.acceptAction, none)]
  | s, c :: cs =>
    table.states[s]?.bind fun state =>
      match state.next c with
      | none => some [(state.acceptAction, none)]
      | some action =>
        (lexRun table action.state cs).map
          ((state.acceptAction, some action.inMainToken) :: ·)

end TreeSitter.Generate
