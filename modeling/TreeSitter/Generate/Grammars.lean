import TreeSitter.Generate.RuleLanguage

/-!
# TreeSitter.Generate.Grammars

`grammars.rs`: **grammars** with a rule for each variable, as the first passes see them, and the
**productions** that rules are flattened to. The source packs the steps of all productions in one
vector, with indices into it; here a production has its steps.
-/

namespace TreeSitter.Generate

/-! ### Grammars with rules -/

/-- `VariableType`. -/
inductive VariableType where
  | hidden
  | auxiliary
  | anonymous
  | named
deriving DecidableEq

/-- `Variable`, with its entry of `kinds`. -/
structure Variable where
  name : String
  kind : VariableType
  root : Rule

/-- `InputGrammar` and `ExtractedGrammarMeta`, of what the pass reads. -/
structure InputGrammar where
  vars : List Variable
  inline : List Symbol

namespace InputGrammar

def roots (g : InputGrammar) : List Rule := g.vars.map Variable.root

/-- All rules refer to variables of the grammar. -/
def Scoped (g : InputGrammar) : Prop := ∀ r ∈ g.roots, r.ScopedBy g.vars.length

end InputGrammar

/-! ### Productions -/

/-- `ProductionStep`. -/
structure ProductionStep where
  symbol : Symbol
  precedence : Precedence := .none
  associativity : Option Associativity := none
  aliasAs : Option Alias := none
  field : Option String := none
  reserved : Nat := 0
deriving DecidableEq

/-- `Production`. -/
structure Production where
  steps : List ProductionStep
  dynamicPrecedence : Int := 0
  /-- The production was written ending in `eof()`. -/
  requiresEofLookahead : Bool := false
deriving DecidableEq

theorem getElem?_of_isPrefix {α : Type*} {xs ys : List α} (h : xs <+: ys) {k : Nat} {x : α}
    (hx : xs[k]? = some x) : ys[k]? = some x := by
  obtain ⟨zs, rfl⟩ := h
  rw [List.getElem?_append_left (List.getElem?_eq_some_iff.mp hx).1, hx]

/-- `ProductionStore`: the productions of each variable. -/
abbrev ProductionStore := List (List Production)

/-- `steps`, of all productions. -/
def ProductionStore.steps (store : ProductionStore) : List ProductionStep :=
  store.flatten.flatMap Production.steps

section Languages

variable (env : Nat → Language Symbol)

/-- The language of a symbol; what is not a nonterminal stands for itself. -/
def symbolLang (s : Symbol) : Language Symbol :=
  if s.kind = .nonTerminal then env s.index else {[s]}

def pathLang (p : List Symbol) : Language Symbol := (p.map (symbolLang env)).prod

/-- The language of a production, with the end of the input behind it if it needs that. -/
def Production.lang (p : Production) : Language Symbol :=
  pathLang env (p.steps.map ProductionStep.symbol ++ if p.requiresEofLookahead then [.eof] else [])

/-- What the productions of the variables denote. -/
def productionEquations (store : ProductionStore) (i : Nat) : Language Symbol :=
  match store[i]? with
  | some ps => ⨆ p ∈ ps, p.lang env
  | none => 0

end Languages

/-- **The languages of the variables with these productions.** -/
def productionLanguages (store : ProductionStore) : Nat → Language Symbol :=
  Library.least fun env => productionEquations env store

end TreeSitter.Generate
