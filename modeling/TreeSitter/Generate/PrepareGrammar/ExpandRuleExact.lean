import TreeSitter.Generate.PrepareGrammar.ExpandRuleSound

/-!
# TreeSitter.Generate.PrepareGrammar.ExpandRuleExact

Which lexical rules `expand_rule` expands to **exactly their language**, given that
`expand_regex` is right on their patterns. The sequence loop continues at the last
state after every element, so an empty element at the right end of a sequence sends
the rest of it to whatever state was last before, unless that is the state to continue
in; and a choice of no elements, which nothing matches, is expanded like a blank.

`Rule.Benign` is the condition under which neither matters, and
`expandRule_exact_iff` shows it to be exact.
-/

namespace TreeSitter.Generate

open List Language Library Computability

/-! ### Rules inside a rule -/

mutual

/-- A rule and all the rules inside it. -/
def Rule.subrules : Rule → List Rule
  | .seq elements => .seq elements :: subrulesAll elements
  | .choice elements => .choice elements :: subrulesAll elements
  | .repeat rule => .repeat rule :: rule.subrules
  | .metadata params rule => .metadata params rule :: rule.subrules
  | rule => [rule]

/-- The rules inside a list of rules. -/
def subrulesAll : List Rule → List Rule
  | [] => []
  | rule :: rest => rule.subrules ++ subrulesAll rest

end

theorem Rule.self_mem_subrules (rule : Rule) : rule ∈ rule.subrules := by
  cases rule <;> simp [Rule.subrules]

/-- A property of every rule inside a rule. -/
def Rule.Everywhere (P : Rule → Prop) (rule : Rule) : Prop := ∀ s ∈ rule.subrules, P s

/-- A property of every rule inside the rules of a list. -/
def RulesEverywhere (P : Rule → Prop) (rules : List Rule) : Prop := ∀ s ∈ subrulesAll rules, P s

section Everywhere

variable {P : Rule → Prop}
variable {rule : Rule}

theorem Rule.Everywhere.self (h : rule.Everywhere P) : P rule :=
  h rule rule.self_mem_subrules

theorem ruleEverywhere_seq {elements : List Rule} :
    (Rule.seq elements).Everywhere P ↔ P (.seq elements) ∧ RulesEverywhere P elements := by
  simp [Rule.Everywhere, RulesEverywhere, Rule.subrules]

theorem ruleEverywhere_choice {elements : List Rule} :
    (Rule.choice elements).Everywhere P ↔ P (.choice elements) ∧ RulesEverywhere P elements := by
  simp [Rule.Everywhere, RulesEverywhere, Rule.subrules]

theorem ruleEverywhere_repeat :
    (Rule.repeat rule).Everywhere P ↔ P (.repeat rule) ∧ rule.Everywhere P := by
  simp [Rule.Everywhere, Rule.subrules]

theorem ruleEverywhere_metadata {params : MetadataParams} :
    (Rule.metadata params rule).Everywhere P ↔ P (.metadata params rule) ∧ rule.Everywhere P := by
  simp [Rule.Everywhere, Rule.subrules]

theorem rulesEverywhere_nil : RulesEverywhere P [] := by
  simp [RulesEverywhere, subrulesAll]

theorem rulesEverywhere_cons {rest : List Rule} :
    RulesEverywhere P (rule :: rest) ↔ rule.Everywhere P ∧ RulesEverywhere P rest := by
  simp [RulesEverywhere, Rule.Everywhere, subrulesAll, or_imp, forall_and]

end Everywhere

/-! ### Benign rules -/

section

variable (parse : String → Bool → Except String Hir)

/-- Whether the expansion of a pattern adds states. -/
def patternAdds (value flags : String) : Bool :=
  match parsePattern parse value flags with
  | .error _ => false
  | .ok hir => hir.addsStates

mutual

/-- Whether the expansion of a rule adds states: some part of it is a string of at
least one character, or a pattern that adds states. -/
def Rule.addsStates : Rule → Bool
  | .string value => !value.isEmpty
  | .pattern value flags => patternAdds parse value flags
  | .choice elements | .seq elements => anyRuleAdds elements
  | .repeat rule | .metadata _ rule => rule.addsStates
  | _ => false

/-- Whether one of the rules adds states. -/
def anyRuleAdds : List Rule → Bool
  | [] => false
  | rule :: rest => anyRuleAdds rest || rule.addsStates

end

/-- Whether the rightmost rule adds states. -/
def lastRuleAdds : List Rule → Bool
  | [] => false
  | [rule] => rule.addsStates parse
  | _ :: rule :: rest => lastRuleAdds (rule :: rest)

/-- The rules `expand_rule` accepts: no symbols, reserved words or end of file, and
patterns that parse and that `expand_regex` gets right. -/
def Rule.Supported : Rule → Prop
  | .pattern value flags => ∃ hir, parsePattern parse value flags = .ok hir ∧
      Expander (expandRegex hir) hir.lang hir.addsStates
  | .eof | .sym _ | .reserved _ _ | .namedSymbol _ => False
  | _ => True

/-- The rules that no slip touches: a sequence whose rightmost element adds states
(or of which no element does, or that nothing matches), and a choice that has
elements. -/
def Rule.Benign : Rule → Prop
  | .seq elements => lastRuleAdds parse elements = true ∨ anyRuleAdds parse elements = false ∨
      langSeq parse elements = 0
  | .choice elements => elements ≠ []
  | _ => True

/-- The expansion of a rule reads, from where it starts, exactly a word of the rule
followed by what the state to continue in accepted before. -/
def RuleExpandsExactly (rule : Rule) : Prop :=
  ∀ (b : NfaBuilder) (next : Nat), Closed b.states → next < b.states.length →
    ∃ added b', expandRule parse rule next b = .ok (added, b') ∧
      accepts (view b'.states) (startState added b' next) =
        rule.lang parse * accepts (view b.states) next

/-- An expansion function that always succeeds and meets the contract. -/
def RuleExpander (rule : Rule) : Prop :=
  ∀ next b, ∃ b', expandRule parse rule next b = .ok (rule.addsStates parse, b') ∧
    RuleExpanded (rule.lang parse) next b (rule.addsStates parse) b'

variable {parse}
variable {rule : Rule}

theorem RuleExpander.exact (h : RuleExpander parse rule) : RuleExpandsExactly parse rule := by
  intro b next hclosed hnext
  obtain ⟨b', hb', hexp⟩ := h next b
  exact ⟨_, b', hb', by
    rw [hexp.built.accepts_eq, accepts_of_prefix hexp.grows hclosed hnext]⟩

/-! ### One arm at a time -/

theorem blank_expander : RuleExpander parse .blank :=
  fun next b => ⟨b, by simp [expandRule, Rule.addsStates], RuleExpanded.of_idle (Idle.refl next b)⟩

theorem string_expander (value : String) : RuleExpander parse (.string value) := by
  intro next b
  refine ⟨(NfaBuilder.pushChars value.toList next b).2, by simp [expandRule, Rule.addsStates], ?_⟩
  by_cases hempty : value.toList = []
  · obtain rfl := String.toList_eq_nil_iff.mp hempty
    exact RuleExpanded.of_idle (Idle.refl next b)
  · have hadds : (Rule.string value).addsStates parse = true := by
      have : value ≠ "" := fun h => hempty (String.toList_eq_nil_iff.mpr h)
      simpa [Rule.addsStates] using this
    rw [hadds]
    exact (Expanded.pushChars hempty next b).toRule

theorem pattern_expander {value flags : String}
    (h : (Rule.pattern value flags).Supported parse) :
    RuleExpander parse (.pattern value flags) := by
  intro next b
  obtain ⟨hir, hparse, hexp⟩ := h
  obtain ⟨b', hb', hexp⟩ := hexp next b
  refine ⟨b', ?_, ?_⟩
  · simp [expandRule, expandPattern, Rule.addsStates, patternAdds, hparse, hb', Except.mapError]
  · simpa [Rule.lang, patternLang, Rule.addsStates, patternAdds, hparse] using hexp.toRule

/-- The loop of `Repeat`. An idle body finds its split to be the last state, so it
leaves nothing behind and the split can be popped. -/
theorem repeat_expander (h : RuleExpander parse rule) : RuleExpander parse (.repeat rule) := by
  intro next b
  obtain ⟨b', hb', hexp⟩ := h b.states.length (b.pushState (.accept 0 0))
  rw [Rule.lang, repetitionLang_one_none, Rule.addsStates]
  simp only [expandRule, NfaBuilder.lastStateId_pushState, hb', ok_bind]
  cases hadds : rule.addsStates parse with
  | false =>
    rw [hadds] at hexp
    obtain ⟨hidle, hone⟩ := hexp.idle rfl
    obtain rfl := hidle.last_eq (b.lastStateId_pushState _)
    refine ⟨b, by simp [NfaBuilder.pushState], ?_⟩
    rw [hone, kstar_one, one_mul]
    exact RuleExpanded.of_idle (Idle.refl next b)
  | true =>
    rw [hadds] at hexp
    have hlt := hexp.added_lt rfl
    rw [NfaBuilder.pushState_states, length_append, length_singleton] at hlt
    have hbody := hexp.built
    simp only [startState_true, NfaBuilder.pushState_states] at hbody
    refine ⟨_, rfl, hexp.mode, ?_, ?_, fun _ => ?_, fun h => by cases h⟩
    · obtain ⟨rest, hrest⟩ := (prefix_append b.states [_]).trans hexp.grows
      refine ⟨rest.set 0 (.split b'.lastStateId next), ?_⟩
      rw [← hrest, set_append_right _ _ le_rfl, Nat.sub_self]
    · simpa [startState, NfaBuilder.lastStateId] using
        Built.closeLoop (t := next) rfl hexp.grows hbody
    · simp only [length_set]
      omega

theorem metadata_expander {params : MetadataParams} (h : RuleExpander parse rule) :
    RuleExpander parse (.metadata params rule) := by
  intro next b
  obtain ⟨b', hb', hexp⟩ := h next (b.pushPrecedence params.precedence)
  have hstates : (b.pushPrecedence params.precedence).states = b.states := by
    cases params.precedence <;> rfl
  have hpop : b'.popPrecedence params.precedence = { b with states := b'.states } := by
    obtain ⟨h₁, h₂, h₃⟩ := hexp.mode
    cases hp : params.precedence with
    | integer p =>
      rw [hp] at h₁ h₂ h₃
      simp only [NfaBuilder.pushPrecedence] at h₁ h₂ h₃
      simp only [NfaBuilder.popPrecedence, h₁, h₃]
    | none | name n =>
      rw [hp] at h₁ h₂ h₃
      simp only [NfaBuilder.pushPrecedence] at h₁ h₂ h₃
      simp only [NfaBuilder.popPrecedence, ← h₁, ← h₂, ← h₃]
  refine ⟨{ b with states := b'.states }, ?_, ?_⟩
  · simp [expandRule, hb', hpop, Rule.addsStates]
  · simpa [Rule.lang, Rule.addsStates] using hexp.withMode hstates

theorem langChoice_eq_sum (elements : List Rule) :
    langChoice parse elements = (elements.map (Rule.lang parse)).sum := by
  induction elements with
  | nil => rfl
  | cons element rest ih => rw [langChoice, ih, map_cons, sum_cons]

theorem langSeq_eq_prod (elements : List Rule) :
    langSeq parse elements = (elements.map (Rule.lang parse)).prod := by
  induction elements with
  | nil => rfl
  | cons element rest ih => rw [langSeq, ih, map_cons, prod_cons]

/-! ### Benign rules meet the contract -/

mutual

/-- **Sufficiency.** A supported rule that is benign throughout meets the contract
for its own language. -/
theorem expandRule_expander : ∀ (rule : Rule), rule.Everywhere (Rule.Supported parse) →
    rule.Everywhere (Rule.Benign parse) → RuleExpander parse rule
  | .blank, _, _ => blank_expander
  | .string value, _, _ => string_expander value
  | .pattern _ _, hs, _ => pattern_expander hs.self
  | .namedSymbol _, hs, _ | .sym _, hs, _ | .eof, hs, _ | .reserved _ _, hs, _ => hs.self.elim
  | .repeat rule, hs, hb => by
    rw [ruleEverywhere_repeat] at hs hb
    exact repeat_expander (expandRule_expander rule hs.2 hb.2)
  | .metadata params rule, hs, hb => by
    rw [ruleEverywhere_metadata] at hs hb
    exact metadata_expander (expandRule_expander rule hs.2 hb.2)
  | .choice elements, hs, hb => by
    rw [ruleEverywhere_choice] at hs hb
    intro next b
    obtain ⟨ids, b', hb', hchoices⟩ := expandChoice_spec elements hs.2 hb.2 next b
    refine ⟨_, by simp [expandRule, hb', Rule.addsStates]; rfl, ?_⟩
    have hne : elements.map (Rule.lang parse) ≠ [] := by simpa [Rule.Benign] using hb.1
    simpa [Rule.lang, langChoice_eq_sum, Rule.addsStates] using hchoices.join hne
  | .seq elements, hs, hb => by
    rw [ruleEverywhere_seq] at hs hb
    intro next b
    obtain ⟨b', hb', hseq⟩ := expandSeq_spec elements hs.2 hb.2 next b
    refine ⟨b', by simp [expandRule, hb', Rule.addsStates], ?_⟩
    have hbenign := hb.1
    rw [Rule.Benign, langSeq_eq_prod] at hbenign
    simpa [Rule.lang, langSeq_eq_prod, Rule.addsStates] using hseq.expanded hbenign

theorem expandChoice_spec : ∀ (elements : List Rule),
    RulesEverywhere (Rule.Supported parse) elements →
    RulesEverywhere (Rule.Benign parse) elements → ∀ (next : Nat) (b : NfaBuilder),
    ∃ ids b', expandChoice parse elements next b = .ok (anyRuleAdds parse elements, ids, b') ∧
      Choices (elements.map (Rule.lang parse)) next b (anyRuleAdds parse elements) ids b'
  | [], _, _, next, b => ⟨[], b, by simp [expandChoice, anyRuleAdds], Choices.nil next b⟩
  | element :: rest, hs, hb, next, b => by
    rw [rulesEverywhere_cons] at hs hb
    obtain ⟨b₁, hb₁, hexp⟩ := expandRule_expander element hs.1 hb.1 next b
    obtain ⟨ids, b₂, hb₂, hrest⟩ := expandChoice_spec rest hs.2 hb.2 next b₁
    exact ⟨_, b₂, by simp [expandChoice, hb₁, hb₂, startState, anyRuleAdds],
      Choices.cons hexp hrest⟩

theorem expandSeq_spec : ∀ (elements : List Rule),
    RulesEverywhere (Rule.Supported parse) elements →
    RulesEverywhere (Rule.Benign parse) elements → ∀ (next : Nat) (b : NfaBuilder),
    ∃ b', expandSeq parse elements next b = .ok (anyRuleAdds parse elements,
        if elements = [] then next else b'.lastStateId, b') ∧
      Sequence (elements.map (Rule.lang parse)) next b (anyRuleAdds parse elements)
        (lastRuleAdds parse elements) b'
  | [], _, _, next, b => ⟨b, by simp [expandSeq, anyRuleAdds], Sequence.empty next b⟩
  | [element], hs, hb, next, b => by
    rw [rulesEverywhere_cons] at hs hb
    obtain ⟨b₁, hb₁, hexp⟩ := expandRule_expander element hs.1 hb.1 next b
    refine ⟨b₁, by simp [expandSeq, hb₁, anyRuleAdds], ?_⟩
    simpa [anyRuleAdds, lastRuleAdds] using Sequence.single hexp
  | element :: element' :: rest, hs, hb, next, b => by
    rw [rulesEverywhere_cons] at hs hb
    obtain ⟨b₁, hb₁, hseq⟩ := expandSeq_spec (element' :: rest) hs.2 hb.2 next b
    obtain ⟨b₂, hb₂, hexp⟩ := expandRule_expander element hs.1 hb.1 b₁.lastStateId b₁
    rw [if_neg (by simp)] at hb₁
    refine ⟨b₂, ?_, ?_⟩
    · rw [expandSeq, hb₁]
      simp [hb₂, anyRuleAdds]
    · rw [map_cons, anyRuleAdds, lastRuleAdds]
      exact hseq.cons hexp

end

/-! ### The condition is necessary -/

theorem choice_nil_not_exact : ¬ RuleExpandsExactly parse (.choice []) := by
  intro hexact
  obtain ⟨added, b', hb', heq⟩ := hexact acceptBuilder 0 (by decide) (by decide)
  simp only [expandRule, expandChoice, ok_bind, pure_eq_ok, Except.ok.injEq, Prod.mk.injEq] at hb'
  obtain ⟨rfl, rfl⟩ := hb'
  have hone : accepts (view acceptBuilder.states) 0 = 1 := accepts_accept rfl
  rw [Rule.lang, langChoice, zero_mul] at heq
  have hnil : [] ∈ accepts (view acceptBuilder.states) 0 := hone ▸ nil_mem_one
  exact notMem_zero _ (heq ▸ hnil)

/-- From the state an idle call leaves, the dead end's accepting state is reached
without reading. -/
theorem Idle.accepts_of_deadEnd {b₁ b' : NfaBuilder} (hidle : Idle 0 deadEndBuilder b₁)
    (hpre : b₁.states <+: b'.states) :
    accepts (view b'.states) b₁.lastStateId = 1 := by
  have hdead : Built 0 deadEndBuilder.states 0 0 1 := by
    intro M hM
    have hfrag : Frag (view M) _ 0 0 := Frag.advance (hM.view_eq le_rfl rfl)
    exact (hfrag.congr (by ext w; simp [mem_letters])).of_zero 1
  obtain ⟨L', hL', hbuilt⟩ := hidle.reads (Nat.zero_le _) hdead (Built.refl 0 _ 1)
  have hone : L' = 1 := by
    rcases hL' with rfl | rfl
    · rfl
    · exact zero_add 1
  have hframe : accepts (view b'.states) 1 = accepts (view deadEndBuilder.states) 1 :=
    accepts_of_prefix (hidle.grows.trans hpre) (by decide) (by decide)
  rw [(hbuilt.mono hpre le_rfl).accepts_eq, hone, one_mul, hframe, accepts_accept rfl]

/-- If the rightmost element of a sequence is idle and another is not, an exact
expansion leaves only the sequence that nothing matches. -/
theorem seq_benign_of_exact {elements : List Rule}
    (hs : RulesEverywhere (Rule.Supported parse) elements)
    (hb : RulesEverywhere (Rule.Benign parse) elements)
    (hexact : RuleExpandsExactly parse (.seq elements)) :
    (Rule.seq elements).Benign parse := by
  by_contra hbad
  simp only [Rule.Benign, not_or, Bool.not_eq_true, Bool.not_eq_false] at hbad
  obtain ⟨hlast, hadds, hzero⟩ := hbad
  obtain ⟨added, b', hb', heq⟩ := hexact deadEndBuilder 0 (by decide) (by decide)
  obtain ⟨b₁, hb₁, hseq⟩ := expandSeq_spec elements hs hb 0 deadEndBuilder
  simp only [expandRule, hb₁, hadds, ok_bind, pure_eq_ok, Except.ok.injEq, Prod.mk.injEq] at hb'
  obtain ⟨rfl, rfl⟩ := hb'
  obtain ⟨-, q, hq, -, hleft⟩ := hseq.built hadds
  obtain ⟨b₂, hidle, hpre, rfl⟩ := hleft hlast
  rw [startState_true, hq.accepts_eq, hidle.accepts_of_deadEnd hpre, mul_one,
    accepts_deadEnd, mul_zero, ← langSeq_eq_prod] at heq
  exact hzero heq

mutual

theorem ruleBenign_of_exact : ∀ (rule : Rule), rule.Everywhere (Rule.Supported parse) →
    rule.Everywhere (RuleExpandsExactly parse) → rule.Everywhere (Rule.Benign parse)
  | .blank, _, _ | .string _, _, _ | .pattern _ _, _, _ =>
    by simp [Rule.Everywhere, Rule.subrules, Rule.Benign]
  | .namedSymbol _, hs, _ | .sym _, hs, _ | .eof, hs, _ | .reserved _ _, hs, _ => hs.self.elim
  | .repeat rule, hs, hx => by
    rw [ruleEverywhere_repeat] at hs hx ⊢
    exact ⟨trivial, ruleBenign_of_exact rule hs.2 hx.2⟩
  | .metadata params rule, hs, hx => by
    rw [ruleEverywhere_metadata] at hs hx ⊢
    exact ⟨trivial, ruleBenign_of_exact rule hs.2 hx.2⟩
  | .choice elements, hs, hx => by
    rw [ruleEverywhere_choice] at hs hx ⊢
    refine ⟨?_, rulesBenign_of_exact elements hs.2 hx.2⟩
    rintro rfl
    exact choice_nil_not_exact hx.1
  | .seq elements, hs, hx => by
    rw [ruleEverywhere_seq] at hs hx ⊢
    have hb := rulesBenign_of_exact elements hs.2 hx.2
    exact ⟨seq_benign_of_exact hs.2 hb hx.1, hb⟩

theorem rulesBenign_of_exact : ∀ (rules : List Rule),
    RulesEverywhere (Rule.Supported parse) rules →
    RulesEverywhere (RuleExpandsExactly parse) rules → RulesEverywhere (Rule.Benign parse) rules
  | [], _, _ => rulesEverywhere_nil
  | rule :: rest, hs, hx => by
    rw [rulesEverywhere_cons] at hs hx ⊢
    exact ⟨ruleBenign_of_exact rule hs.1 hx.1, rulesBenign_of_exact rest hs.2 hx.2⟩

end

mutual

theorem Rule.Everywhere.of_mem {P : Rule → Prop} : ∀ {rule : Rule}, rule.Everywhere P →
    ∀ s ∈ rule.subrules, s.Everywhere P
  | .blank, h, s, hs | .string _, h, s, hs | .pattern _ _, h, s, hs | .namedSymbol _, h, s, hs
  | .sym _, h, s, hs | .eof, h, s, hs | .reserved _ _, h, s, hs =>
    by simp_all [Rule.subrules, Rule.Everywhere]
  | .repeat rule, h, s, hs => by
    rcases mem_cons.mp hs with rfl | hs
    · exact h
    · exact Rule.Everywhere.of_mem (ruleEverywhere_repeat.mp h).2 s hs
  | .metadata params rule, h, s, hs => by
    rcases mem_cons.mp hs with rfl | hs
    · exact h
    · exact Rule.Everywhere.of_mem (ruleEverywhere_metadata.mp h).2 s hs
  | .choice elements, h, s, hs => by
    rcases mem_cons.mp hs with rfl | hs
    · exact h
    · exact RulesEverywhere.of_mem (ruleEverywhere_choice.mp h).2 s hs
  | .seq elements, h, s, hs => by
    rcases mem_cons.mp hs with rfl | hs
    · exact h
    · exact RulesEverywhere.of_mem (ruleEverywhere_seq.mp h).2 s hs

theorem RulesEverywhere.of_mem {P : Rule → Prop} : ∀ {rules : List Rule},
    RulesEverywhere P rules → ∀ s ∈ subrulesAll rules, s.Everywhere P
  | rule :: rest, h, s, hs => by
    rw [rulesEverywhere_cons] at h
    rcases mem_append.mp hs with hs | hs
    · exact Rule.Everywhere.of_mem h.1 s hs
    · exact RulesEverywhere.of_mem h.2 s hs

end

/-- **Exactness of `expand_rule`.** In a supported rule, every rule is expanded to
exactly its language, whatever automaton it is added to and whatever state it
continues in, if and only if every rule in it is benign. -/
theorem expandRule_exact_iff (rule : Rule)
    (hsupported : ∀ s ∈ rule.subrules, s.Supported parse) :
    (∀ s ∈ rule.subrules, RuleExpandsExactly parse s) ↔ ∀ s ∈ rule.subrules, s.Benign parse := by
  constructor
  · exact ruleBenign_of_exact rule hsupported
  · intro hbenign s hs
    exact (expandRule_expander s (Rule.Everywhere.of_mem hsupported s hs)
      (Rule.Everywhere.of_mem hbenign s hs)).exact

end

/-- A parser for grammars without patterns. -/
def noPatterns : String → Bool → Except String Hir := fun _ _ => .error "no patterns"

/-- `choice("ab", "c")` is benign throughout, so it is expanded exactly. -/
theorem expandRule_exact_strings :
    (∀ s ∈ (Rule.choice [.string "ab", .string "c"]).subrules, s.Supported noPatterns) ∧
      ∀ s ∈ (Rule.choice [.string "ab", .string "c"]).subrules,
        RuleExpandsExactly noPatterns s := by
  have hsupported : ∀ s ∈ (Rule.choice [.string "ab", .string "c"]).subrules,
      s.Supported noPatterns := by
    simp [Rule.subrules, subrulesAll, Rule.Supported]
  exact ⟨hsupported, (expandRule_exact_iff _ hsupported).mpr
    (by simp [Rule.subrules, subrulesAll, Rule.Benign])⟩

/-- `choice("ab", seq("c", blank()))`: the blank at the right end of the sequence sends
`c` to the start of `ab`. -/
def blankAfterC : Rule := .choice [.string "ab", .seq [.string "c", .blank]]

theorem blankAfterC_lang : blankAfterC.lang noPatterns = word ['a', 'b'] + word ['c'] := by
  simp only [blankAfterC, Rule.lang, langChoice, langSeq, mul_one, add_zero]
  rfl

/-- The expansion of `choice("ab", seq("c", blank()))` reads `cab`, which the rule does
not match. -/
theorem expandRule_blankAfterC_not_exact :
    (∀ s ∈ blankAfterC.subrules, s.Supported noPatterns) ∧
      ¬ RuleExpandsExactly noPatterns blankAfterC := by
  refine ⟨by simp [blankAfterC, Rule.subrules, subrulesAll, Rule.Supported], fun hexact => ?_⟩
  obtain ⟨added, b', hb', heq⟩ := hexact acceptBuilder 0 (by decide) (by decide)
  have hrun : expandRule noPatterns blankAfterC 0 acceptBuilder = .ok (true,
      ⟨[.accept 0 0, .advance (.fromChar 'b') 0 false 0, .advance (.fromChar 'a') 1 false 0,
        .advance (.fromChar 'c') 2 false 0, .split 2 3], false, 0, []⟩) := rfl
  rw [hrun, Except.ok.injEq, Prod.mk.injEq] at hb'
  obtain ⟨rfl, rfl⟩ := hb'
  have hcab : AcceptsIn (view [.accept 0 0, .advance (.fromChar 'b') 0 false 0,
      .advance (.fromChar 'a') 1 false 0, .advance (.fromChar 'c') 2 false 0, .split 2 3])
      4 4 ['c', 'a', 'b'] :=
    .right rfl (.advance rfl (by simp) (.advance rfl (by simp) (.advance rfl (by simp)
      (.accept rfl))))
  have hmem : ['c', 'a', 'b'] ∈ (word ['a', 'b'] + word ['c'] : Language Char) := by
    rw [← mul_one (word ['a', 'b'] + word ['c']), ← blankAfterC_lang,
      ← show accepts (view acceptBuilder.states) 0 = 1 from accepts_accept rfl, ← heq]
    exact ⟨4, hcab⟩
  rcases hmem with h | h
  · exact absurd (show ['c', 'a', 'b'] = ['a', 'b'] from h) (by decide)
  · exact absurd (show ['c', 'a', 'b'] = ['c'] from h) (by decide)

end TreeSitter.Generate
