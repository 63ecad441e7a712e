import TreeSitter.Generate.Rules
import TreeSitter.Library.Equations

/-!
# TreeSitter.Generate.RuleLanguage

The **language of a rule**, given those of the nonterminals, and the languages of the variables
of a grammar as the least solution of its equations. What a leaf of a rule stands for (a
terminal, say) is a parameter, so that a result about all leaves needs no tokens.
-/

namespace TreeSitter.Generate

open Library Computability

/-! ### Equality of rules -/

mutual

/-- `subtree_eq`. -/
def Rule.subtreeEq : Rule → Rule → Bool
  | .blank, .blank => true
  | .string a, .string b => a == b
  | .pattern a f, .pattern b f' => a == b && f == f'
  | .namedSymbol a, .namedSymbol b | .sym a, .sym b => a == b
  | .seq as, .seq bs | .choice as, .choice bs => subtreeEqAll as bs
  | .repeat a, .repeat b => a.subtreeEq b
  | .eof, .eof => true
  | .metadata p a, .metadata p' b => p == p' && a.subtreeEq b
  | .reserved a c, .reserved b c' => c == c' && a.subtreeEq b
  | _, _ => false

/-- Equality of children. -/
def subtreeEqAll : List Rule → List Rule → Bool
  | [], [] => true
  | a :: as, b :: bs => a.subtreeEq b && subtreeEqAll as bs
  | _, _ => false

end

mutual

theorem Rule.subtreeEq_iff : ∀ a b : Rule, a.subtreeEq b = true ↔ a = b
  | .blank, b | .string a, b | .pattern a f, b | .namedSymbol a, b | .sym a, b =>
    by cases b <;> simp [Rule.subtreeEq]
  | .seq as, b | .choice as, b => by cases b <;> simp [Rule.subtreeEq, subtreeEqAll_iff as]
  | .repeat a, b => by cases b <;> simp [Rule.subtreeEq, Rule.subtreeEq_iff a]
  | .eof, b => by cases b <;> simp [Rule.subtreeEq]
  | .metadata p a, b => by cases b <;> simp [Rule.subtreeEq, Rule.subtreeEq_iff a]
  | .reserved a c, b => by cases b <;> simp [Rule.subtreeEq, Rule.subtreeEq_iff a, and_comm]

theorem subtreeEqAll_iff : ∀ as bs : List Rule, subtreeEqAll as bs = true ↔ as = bs
  | [], [] | [], _ :: _ | _ :: _, [] => by simp [subtreeEqAll]
  | a :: as, b :: bs => by simp [subtreeEqAll, Rule.subtreeEq_iff a, subtreeEqAll_iff as]

end

instance : DecidableEq Rule := fun a b => decidable_of_iff _ (Rule.subtreeEq_iff a b)

/-! ### Languages -/

section Languages

variable {α : Type*} (leaf : Rule → Language α) (env : Nat → Language α)

mutual

/-- The language of a rule: `Repeat` is one or more, attributes do not matter. -/
def Rule.langIn : Rule → Language α
  | .blank => 1
  | .sym s => if s.kind = .nonTerminal then env s.index else leaf (.sym s)
  | .seq es => seqLang es
  | .choice es => choiceLang es
  | .repeat r => plus r.langIn
  | .metadata _ r | .reserved r _ => r.langIn
  | .string s => leaf (.string s)
  | .pattern p f => leaf (.pattern p f)
  | .namedSymbol n => leaf (.namedSymbol n)
  | .eof => leaf .eof

/-- The language of some rules in turn. -/
def seqLang : List Rule → Language α
  | [] => 1
  | r :: rs => r.langIn * seqLang rs

/-- The language of any of some rules. -/
def choiceLang : List Rule → Language α
  | [] => 0
  | r :: rs => r.langIn + choiceLang rs

end

@[simp] theorem lang_nonTerminal (i : Nat) :
    (Rule.sym (.nonTerminal i)).langIn leaf env = env i := by
  simp [Rule.langIn, Symbol.nonTerminal]

theorem mem_choiceLang {rs : List Rule} {w : List α} :
    w ∈ choiceLang leaf env rs ↔ ∃ r ∈ rs, w ∈ r.langIn leaf env := by
  induction rs with
  | nil => simp [choiceLang]
  | cons r rs ih =>
    rw [choiceLang, Language.mem_add, ih]
    simp

theorem choiceLang_append (rs ss : List Rule) :
    choiceLang leaf env (rs ++ ss) = choiceLang leaf env rs + choiceLang leaf env ss := by
  ext w
  rw [Language.mem_add, mem_choiceLang, mem_choiceLang, mem_choiceLang]
  simp only [List.mem_append, or_and_right, exists_or]

end Languages

section Mono

variable {α : Type*} {leaf : Rule → Language α} {env env' : Nat → Language α}

mutual

theorem lang_mono (h : env ≤ env') : ∀ r : Rule, r.langIn leaf env ≤ r.langIn leaf env'
  | .blank => le_rfl
  | .sym s => by
    unfold Rule.langIn
    split
    · exact h s.index
    · exact le_rfl
  | .seq es => seqLang_mono h es
  | .choice es => choiceLang_mono h es
  | .repeat r => plus_mono (lang_mono h r)
  | .metadata _ r | .reserved r _ => lang_mono h r
  | .string _ | .pattern _ _ | .namedSymbol _ | .eof => le_rfl

theorem seqLang_mono (h : env ≤ env') : ∀ rs : List Rule, seqLang leaf env rs ≤ seqLang leaf env' rs
  | [] => le_rfl
  | r :: rs => mul_le_mul' (lang_mono h r) (seqLang_mono h rs)

theorem choiceLang_mono (h : env ≤ env') :
    ∀ rs : List Rule, choiceLang leaf env rs ≤ choiceLang leaf env' rs
  | [] => le_rfl
  | r :: rs => sup_le_sup (lang_mono h r) (choiceLang_mono h rs)

end

end Mono

/-! ### Scopes -/

mutual

/-- Every nonterminal of the rule is one of the first `n` variables. -/
def Rule.ScopedBy (n : Nat) : Rule → Prop
  | .sym s => s.kind = .nonTerminal → s.index < n
  | .seq es | .choice es => ScopedAll n es
  | .repeat r | .metadata _ r | .reserved r _ => r.ScopedBy n
  | _ => True

def ScopedAll (n : Nat) : List Rule → Prop
  | [] => True
  | r :: rs => r.ScopedBy n ∧ ScopedAll n rs

end

section Scopes

variable {α : Type*} {leaf : Rule → Language α} {env env' : Nat → Language α} {n : Nat}

mutual

theorem lang_congr (h : ∀ i < n, env i = env' i) :
    ∀ r : Rule, r.ScopedBy n → r.langIn leaf env = r.langIn leaf env'
  | .blank, _ => rfl
  | .sym s, hs => by
    unfold Rule.langIn
    split
    · exact h s.index (hs ‹_›)
    · rfl
  | .seq es, hs => seqLang_congr h es hs
  | .choice es, hs => choiceLang_congr h es hs
  | .repeat r, hs => congrArg plus (lang_congr h r hs)
  | .metadata _ r, hs | .reserved r _, hs => lang_congr h r hs
  | .string _, _ | .pattern _ _, _ | .namedSymbol _, _ | .eof, _ => rfl

theorem seqLang_congr (h : ∀ i < n, env i = env' i) :
    ∀ rs : List Rule, ScopedAll n rs → seqLang leaf env rs = seqLang leaf env' rs
  | [], _ => rfl
  | r :: rs, hs => congrArg₂ (· * ·) (lang_congr h r hs.1) (seqLang_congr h rs hs.2)

theorem choiceLang_congr (h : ∀ i < n, env i = env' i) :
    ∀ rs : List Rule, ScopedAll n rs → choiceLang leaf env rs = choiceLang leaf env' rs
  | [], _ => rfl
  | r :: rs, hs => congrArg₂ (· + ·) (lang_congr h r hs.1) (choiceLang_congr h rs hs.2)

end

end Scopes

/-! ### Grammars -/

/-- What the right-hand sides of some rules denote; there is nothing for other variables. -/
def equations {α : Type*} (leaf : Rule → Language α) (roots : List Rule) (env : Nat → Language α)
    (i : Nat) : Language α :=
  match roots[i]? with
  | some r => r.langIn leaf env
  | none => 0

theorem equations_mono {α : Type*} (leaf : Rule → Language α) (roots : List Rule) :
    Monotone (equations leaf roots) := by
  intro env env' h i
  unfold equations
  split
  · exact lang_mono h _
  · exact le_rfl

/-- **The languages of the variables with these rules.** -/
def languages {α : Type*} (leaf : Rule → Language α) (roots : List Rule) : Nat → Language α :=
  least (equations leaf roots)

theorem equations_languages {α : Type*} (leaf : Rule → Language α) (roots : List Rule) :
    equations leaf roots (languages leaf roots) = languages leaf roots :=
  least_eq (equations_mono leaf roots)

end TreeSitter.Generate
