import TreeSitter.Generate.Grammars

/-!
# TreeSitter.Generate.PrepareGrammar.ExpandRepeats

`expand_repeats.rs`: repetitions become **auxiliary variables** with a binary rule. The pass
walks each rule bottom up with a stack of tasks, which is a recursion here, and rewrites it in
place. Equal repetitions share a variable through a **memo**, which the source keys by a hash of
the content and then compares; it is a list in the order of creation here.

A repetition whose content can match nothing but the end of the input is an error; the analysis
for it (`evalWidth`) has cases it never expects, and `none` stands for one of them.
-/

namespace TreeSitter.Generate

/-! ### Zero width -/

/-- `Width`. -/
structure Width where
  nullable : Bool := false
  eofNullable : Bool := false
deriving DecidableEq

namespace Width

/-- `merge`. -/
def merge (w other : Width) : Width :=
  ⟨w.nullable || other.nullable, w.eofNullable || other.eofNullable⟩

def choice (ws : List Width) : Width := ⟨ws.any nullable, ws.any eofNullable⟩

/-- The width of a sequence: `eof()` needs every element to match nothing. -/
def seq (ws : List Width) : Width :=
  ⟨ws.all nullable, ws.all (fun w => w.nullable || w.eofNullable) && ws.any eofNullable⟩

end Width

mutual

/-- `ZeroWidth::eval`. -/
def evalWidth (byVariable : List Width) : Rule → Option Width
  | .blank => some ⟨true, false⟩
  | .string s => some ⟨s == "", false⟩
  | .eof => some ⟨false, true⟩
  | .sym s =>
    match s.kind with
    | .endOfFile => some ⟨false, true⟩
    | .nonTerminal => some (byVariable[s.index]?.getD {})
    | .external => some ⟨true, false⟩
    | .terminal => some {}
    | .endOfNonTerminalExtra => none
  | .choice es => (evalWidths byVariable es).map Width.choice
  | .seq es => (evalWidths byVariable es).map Width.seq
  | .repeat r | .metadata _ r | .reserved r _ => evalWidth byVariable r
  | .pattern _ _ | .namedSymbol _ => none

def evalWidths (byVariable : List Width) : List Rule → Option (List Width)
  | [] => some []
  | r :: rs =>
    (evalWidth byVariable r).bind fun w => (evalWidths byVariable rs).map (w :: ·)

end

/-- One pass over the rules from the one at index `i` on. -/
def widthPass : Nat → List Rule → List Width → Option (List Width)
  | _, [], byVariable => some byVariable
  | i, r :: rs, byVariable =>
    (evalWidth byVariable r).bind fun w => widthPass (i + 1) rs (byVariable.modify i (·.merge w))

/-- Passes until nothing changes. Each pass but the last sets one of the flags. -/
def widthLoop (roots : List Rule) : Nat → List Width → Option (List Width)
  | 0, byVariable => some byVariable
  | fuel + 1, byVariable =>
    (widthPass 0 roots byVariable).bind fun byVariable' =>
      if byVariable' = byVariable then some byVariable else widthLoop roots fuel byVariable'

/-- `ZeroWidth::new`. -/
def zeroWidths (roots : List Rule) : Option (List Width) :=
  widthLoop roots (2 * roots.length + 1) (List.replicate roots.length {})

/-! ### Expansion -/

/-- `ExpandRepeatsError`, and the places that should not be reached. -/
inductive ExpandRepeatsError where
  /-- Rule contains a repetition that can match the empty string at end of input. -/
  | emptyAtEof (name : String)
  | unreachable

/-- `Expander`, with the counter of the variable that is being expanded. -/
structure RepeatExpander where
  preceding : Nat
  aux : List Variable := []
  memo : List (Rule × Symbol) := []
  byVariable : List Width
  auxRepeatCounter : Nat := 0

mutual

/-- The elements of a choice, with those of choices in it. -/
def choiceLeaves : Rule → List Rule
  | .choice es => choiceLeavesAll es
  | r => [r]

def choiceLeavesAll : List Rule → List Rule
  | [] => []
  | r :: rs => choiceLeaves r ++ choiceLeavesAll rs

end

def pushUnlessEqual (elements : List Rule) (r : Rule) : List Rule :=
  if r ∈ elements then elements else elements ++ [r]

/-- `wrap_in_binary_tree`: `choice(seq(sym, sym), inner)`. -/
def wrapInBinaryTree (symbol : Symbol) (inner : Rule) : Rule :=
  match (choiceLeaves inner).foldl pushUnlessEqual [.seq [.sym symbol, .sym symbol]] with
  | [element] => element
  | elements => .choice elements

/-- `Task::Expand`: a repetition whose content is expanded. -/
def expandRepeat (varName : String) (content : Rule) (st : RepeatExpander) :
    Except ExpandRepeatsError (Rule × RepeatExpander) :=
  match evalWidth st.byVariable content with
  | none => .error .unreachable
  | some width =>
    if width.eofNullable then .error (.emptyAtEof varName)
    else
      match st.memo.find? fun entry => entry.1 = content with
      | some entry => .ok (.sym entry.2, st)
      | none =>
        let counter := st.auxRepeatCounter + 1
        let symbol := Symbol.nonTerminal (st.preceding + st.aux.length)
        .ok (.sym symbol, { st with
          aux := st.aux ++
            [{ name := varName ++ "_repeat" ++ toString counter
               kind := .auxiliary
               root := wrapInBinaryTree symbol content }]
          memo := st.memo ++ [(content, symbol)]
          byVariable := st.byVariable ++ [width]
          auxRepeatCounter := counter })

mutual

/-- `expand_root`, which does not descend into `Reserved`. -/
def expandRoot (varName : String) :
    Rule → RepeatExpander → Except ExpandRepeatsError (Rule × RepeatExpander)
  | .repeat content, st => do
    let (content, st) ← expandRoot varName content st
    expandRepeat varName content st
  | .seq es, st => do
    let (es, st) ← expandRootAll varName es st
    return (.seq es, st)
  | .choice es, st => do
    let (es, st) ← expandRootAll varName es st
    return (.choice es, st)
  | .metadata params r, st => do
    let (r, st) ← expandRoot varName r st
    return (.metadata params r, st)
  | r, st => .ok (r, st)

def expandRootAll (varName : String) :
    List Rule → RepeatExpander → Except ExpandRepeatsError (List Rule × RepeatExpander)
  | [], st => .ok ([], st)
  | r :: rs, st => do
    let (r, st) ← expandRoot varName r st
    let (rs, st) ← expandRootAll varName rs st
    return (r :: rs, st)

end

def hiddenRepeat (v : Variable) : Option Rule :=
  match v.kind, v.root with
  | .hidden, .repeat content => some content
  | _, _ => none

/-- One turn of the loop over the variables. A hidden repetition becomes its own binary tree. -/
def expandVariable (i : Nat) (v : Variable) (st : RepeatExpander) :
    Except ExpandRepeatsError (Variable × RepeatExpander) :=
  match hiddenRepeat v with
  | some content =>
    match evalWidth st.byVariable content with
    | none => .error .unreachable
    | some width =>
      if width.eofNullable then .error (.emptyAtEof v.name)
      else do
        let (content, st) ← expandRoot v.name content st
        return ({ v with kind := .auxiliary
                         root := wrapInBinaryTree (.nonTerminal i) content }, st)
  | none => do
    let (root, st) ← expandRoot v.name v.root st
    return ({ v with root }, st)

/-- The loop over the variables, from index `i` on. -/
def expandVariables : Nat → List Variable → RepeatExpander →
    Except ExpandRepeatsError (List Variable × RepeatExpander)
  | _, [], st => .ok ([], st)
  | i, v :: vs, st => do
    let (v, st) ← expandVariable i v { st with auxRepeatCounter := 0 }
    let (vs, st) ← expandVariables (i + 1) vs st
    return (v :: vs, st)

/-- `expand_repeats`. -/
def expandRepeats (g : InputGrammar) : Except ExpandRepeatsError InputGrammar :=
  match zeroWidths g.roots with
  | none => .error .unreachable
  | some byVariable => do
    let (vars, st) ←
      expandVariables 0 g.vars { preceding := g.vars.length, byVariable }
    return { vars := vars ++ st.aux
             inline := g.inline.filter fun s => !(s.kind == .nonTerminal &&
               (g.vars[s.index]?.bind hiddenRepeat).isSome) }

end TreeSitter.Generate
