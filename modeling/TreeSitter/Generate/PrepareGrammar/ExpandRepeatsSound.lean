import TreeSitter.Generate.PrepareGrammar.ExpandRepeats
import TreeSitter.Library.Fallible

/-!
# TreeSitter.Generate.PrepareGrammar.ExpandRepeatsSound

**Expanding repetitions preserves the language of every variable.** The pass as a whole is
described by the list of the contents of its auxiliary variables (`ExpandedRule`, `Shape`): a
repetition is replaced by the variable that has its content, and no two have the same.

In the least solution of the new equations an auxiliary variable is one or more of its content,
and so are the old equations solved; and the old solution, extended to the auxiliary variables,
solves the new equations (`expandRepeats_languages`).
-/

namespace TreeSitter.Generate

open List Library

/-! ### Expanded rules -/

section Expanded

variable (n : Nat) (contents : List Rule)

mutual

/-- The second rule is the first one with its repetitions replaced. The variable of a repetition
is the one with its content, counted from `n` on. -/
def ExpandedRule : Rule → Rule → Prop
  | .repeat c, r' => ∃ (k : Nat) (c' : Rule), contents[k]? = some c' ∧ ExpandedRule c c' ∧
      r' = .sym (.nonTerminal (n + k))
  | .seq es, r' => ∃ es', ExpandedAll es es' ∧ r' = .seq es'
  | .choice es, r' => ∃ es', ExpandedAll es es' ∧ r' = .choice es'
  | .metadata params r, r' => ∃ r₁, ExpandedRule r r₁ ∧ r' = .metadata params r₁
  | r, r' => r' = r

def ExpandedAll : List Rule → List Rule → Prop
  | [], es' => es' = []
  | e :: es, es' => ∃ e₁ es₁, ExpandedRule e e₁ ∧ ExpandedAll es es₁ ∧ es' = e₁ :: es₁

end

end Expanded

section Rules

variable {n : Nat} {contents contents' : List Rule}

mutual

theorem ExpandedRule.mono (h : contents <+: contents') :
    ∀ {r r' : Rule}, ExpandedRule n contents r r' → ExpandedRule n contents' r r'
  | .repeat _, _, ⟨k, c', hk, hc, heq⟩ => ⟨k, c', getElem?_of_isPrefix h hk, hc.mono h, heq⟩
  | .seq _, _, ⟨es', hes, heq⟩ | .choice _, _, ⟨es', hes, heq⟩ => ⟨es', hes.mono h, heq⟩
  | .metadata _ _, _, ⟨r₁, hr, heq⟩ => ⟨r₁, hr.mono h, heq⟩
  | .blank, _, heq | .string _, _, heq | .pattern _ _, _, heq | .namedSymbol _, _, heq
  | .sym _, _, heq | .eof, _, heq | .reserved _ _, _, heq => heq

theorem ExpandedAll.mono (h : contents <+: contents') :
    ∀ {es es' : List Rule}, ExpandedAll n contents es es' → ExpandedAll n contents' es es'
  | [], _, heq => heq
  | _ :: _, _, ⟨e₁, es₁, he, hes, heq⟩ => ⟨e₁, es₁, he.mono h, hes.mono h, heq⟩

end

mutual

/-- **Equal rules are expanded to equal rules**, if no two variables have the same content. -/
theorem ExpandedRule.unique (hnodup : contents.Nodup) :
    ∀ {r a b : Rule}, ExpandedRule n contents r a → ExpandedRule n contents r b → a = b
  | .repeat _, _, _, ⟨k, c', hk, hc, rfl⟩, ⟨k', d', hk', hd, rfl⟩ => by
    obtain rfl := hc.unique hnodup hd
    obtain ⟨hlt, hget⟩ := List.getElem?_eq_some_iff.mp hk
    obtain ⟨hlt', hget'⟩ := List.getElem?_eq_some_iff.mp hk'
    rw [(hnodup.getElem_inj_iff).mp (hget.trans hget'.symm)]
  | .seq _, _, _, ⟨_, hes, rfl⟩, ⟨_, hes', rfl⟩ | .choice _, _, _, ⟨_, hes, rfl⟩, ⟨_, hes', rfl⟩ =>
    by rw [hes.unique hnodup hes']
  | .metadata _ _, _, _, ⟨_, hr, rfl⟩, ⟨_, hr', rfl⟩ => by rw [hr.unique hnodup hr']
  | .blank, _, _, h, h' | .string _, _, _, h, h' | .pattern _ _, _, _, h, h'
  | .namedSymbol _, _, _, h, h' | .sym _, _, _, h, h' | .eof, _, _, h, h'
  | .reserved _ _, _, _, h, h' => h.trans h'.symm

theorem ExpandedAll.unique (hnodup : contents.Nodup) :
    ∀ {es as bs : List Rule}, ExpandedAll n contents es as → ExpandedAll n contents es bs → as = bs
  | [], _, _, h, h' => h.trans h'.symm
  | _ :: _, _, _, ⟨_, _, he, hes, rfl⟩, ⟨_, _, he', hes', rfl⟩ => by
    rw [he.unique hnodup he', hes.unique hnodup hes']

end

/-- The auxiliary variables are one or more of their contents. -/
def Repeats {α : Type*} (n : Nat) (contents : List Rule) (leaf : Rule → Language α)
    (env : Nat → Language α) : Prop :=
  ∀ (k : Nat) (c : Rule), contents[k]? = some c → env (n + k) = plus (c.langIn leaf env)

section Lang

variable {α : Type*} {leaf : Rule → Language α} {env : Nat → Language α}

mutual

/-- **An expanded rule has the same language.** -/
theorem ExpandedRule.lang_eq (henv : Repeats n contents leaf env) :
    ∀ {r r' : Rule}, ExpandedRule n contents r r' → r'.langIn leaf env = r.langIn leaf env
  | .repeat c, _, ⟨k, c', hk, hc, rfl⟩ => by
    rw [lang_nonTerminal, henv k c' hk, hc.lang_eq henv, Rule.langIn]
  | .seq es, _, ⟨es', hes, rfl⟩ => (hes.lang_eq henv).1
  | .choice es, _, ⟨es', hes, rfl⟩ => (hes.lang_eq henv).2
  | .metadata _ r, _, ⟨r₁, hr, rfl⟩ => hr.lang_eq henv
  | .blank, _, rfl | .string _, _, rfl | .pattern _ _, _, rfl | .namedSymbol _, _, rfl
  | .sym _, _, rfl | .eof, _, rfl | .reserved _ _, _, rfl => rfl

theorem ExpandedAll.lang_eq (henv : Repeats n contents leaf env) :
    ∀ {es es' : List Rule}, ExpandedAll n contents es es' →
      seqLang leaf env es' = seqLang leaf env es ∧
        choiceLang leaf env es' = choiceLang leaf env es
  | [], _, rfl => ⟨rfl, rfl⟩
  | _ :: _, _, ⟨_, _, he, hes, rfl⟩ => by
    obtain ⟨hseq, hchoice⟩ := hes.lang_eq henv
    exact ⟨congrArg₂ (· * ·) (he.lang_eq henv) hseq, congrArg₂ (· + ·) (he.lang_eq henv) hchoice⟩

end

mutual

theorem choiceLang_choiceLeaves :
    ∀ r : Rule, choiceLang leaf env (choiceLeaves r) = r.langIn leaf env
  | .choice es => choiceLang_choiceLeavesAll es
  | .blank | .string _ | .pattern _ _ | .namedSymbol _ | .sym _ | .seq _ | .repeat _ | .eof
  | .metadata _ _ | .reserved _ _ => add_zero _

theorem choiceLang_choiceLeavesAll :
    ∀ rs : List Rule, choiceLang leaf env (choiceLeavesAll rs) = choiceLang leaf env rs
  | [] => rfl
  | r :: rs => by
    rw [choiceLeavesAll, choiceLang_append, choiceLang_choiceLeaves r,
      choiceLang_choiceLeavesAll rs, choiceLang]

end

theorem choiceLang_foldl_push (rs : List Rule) : ∀ elements : List Rule,
    choiceLang leaf env (rs.foldl pushUnlessEqual elements) =
      choiceLang leaf env elements + choiceLang leaf env rs := by
  induction rs with
  | nil => exact fun _ => (add_zero _).symm
  | cons r rs ih =>
    intro elements
    rw [foldl_cons, ih, choiceLang, ← add_assoc]
    congr 1
    unfold pushUnlessEqual
    split
    · rename_i hmem
      refine (Set.union_eq_self_of_subset_right ?_).symm
      exact fun w hw => (mem_choiceLang leaf env).mpr ⟨r, hmem, hw⟩
    · rw [choiceLang_append, choiceLang, choiceLang, add_zero]

/-- **The rule of an auxiliary variable.** -/
theorem wrapInBinaryTree_lang (i : Nat) (inner : Rule) :
    (wrapInBinaryTree (.nonTerminal i) inner).langIn leaf env =
      env i * env i + inner.langIn leaf env := by
  have hfold := @choiceLang_foldl_push _ leaf env (choiceLeaves inner)
    [.seq [.sym (.nonTerminal i), .sym (.nonTerminal i)]]
  have hpair : (Rule.seq [.sym (.nonTerminal i), .sym (.nonTerminal i)]).langIn leaf env =
      env i * env i := by
    rw [Rule.langIn, seqLang, seqLang, seqLang, lang_nonTerminal, mul_one]
  rw [choiceLang_choiceLeaves, choiceLang, choiceLang, add_zero, hpair] at hfold
  rw [← hfold, wrapInBinaryTree]
  split
  · rename_i element heq
    rw [heq, choiceLang, choiceLang, add_zero]
  · rfl

end Lang

end Rules

/-! ### The pass -/

mutual

/-- The contents of the repetitions of a rule, less those inside of `Reserved`. -/
def repeatContents : Rule → List Rule
  | .repeat c => c :: repeatContents c
  | .seq es | .choice es => repeatContentsAll es
  | .metadata _ r => repeatContents r
  | _ => []

def repeatContentsAll : List Rule → List Rule
  | [] => []
  | r :: rs => repeatContents r ++ repeatContentsAll rs

end

/-- The contents that are new come from some repetitions. -/
def NewFrom (n : Nat) (contents contents' origins : List Rule) : Prop :=
  ∀ c' ∈ contents', c' ∈ contents ∨ ∃ c ∈ origins, ExpandedRule n contents' c c'

theorem NewFrom.refl (n : Nat) (contents origins : List Rule) :
    NewFrom n contents contents origins := fun _ hc => Or.inl hc

variable {contents contents' : List Rule}

theorem NewFrom.trans {n : Nat} {contents'' origins origins' : List Rule}
    (h : NewFrom n contents contents' origins) (h' : NewFrom n contents' contents'' origins')
    (hgrows : contents' <+: contents'') : NewFrom n contents contents'' (origins ++ origins') := by
  intro c' hc'
  rcases h' c' hc' with hold | ⟨c, hc, hexpanded⟩
  · rcases h c' hold with hold | ⟨c, hc, hexpanded⟩
    · exact Or.inl hold
    · exact Or.inr ⟨c, mem_append_left _ hc, hexpanded.mono hgrows⟩
  · exact Or.inr ⟨c, mem_append_right _ hc, hexpanded⟩

/-- The memo and the auxiliary variables are those of some contents, no two of them equal. -/
structure Memo (st : RepeatExpander) (contents : List Rule) : Prop where
  nodup : contents.Nodup
  memo : st.memo = contents.mapIdx fun k c => (c, .nonTerminal (st.preceding + k))
  aux : st.aux.map Variable.root =
    contents.mapIdx fun k c => wrapInBinaryTree (.nonTerminal (st.preceding + k)) c

/-- The contents after a call. -/
structure Grows (st : RepeatExpander) (contents : List Rule) (st' : RepeatExpander) (contents' : List Rule) :
    Prop where
  memo : Memo st' contents'
  grows : contents <+: contents'
  preceding : st'.preceding = st.preceding

variable {st st' : RepeatExpander}

theorem Grows.trans {st'' : RepeatExpander} {contents'' : List Rule}
    (h : Grows st contents st' contents') (h' : Grows st' contents' st'' contents'') :
    Grows st contents st'' contents'' :=
  ⟨h'.memo, h.grows.trans h'.grows, h'.preceding.trans h.preceding⟩

theorem Memo.refl (h : Memo st contents) :
    Grows st contents st contents :=
  ⟨h, prefix_refl _, rfl⟩

theorem expandRepeat_grows {varName : String} {c r' : Rule} (hmemo : Memo st contents)
    (h : expandRepeat varName c st = .ok (r', st')) :
    ∃ contents', Grows st contents st' contents' ∧ (∀ c' ∈ contents', c' ∈ contents ∨ c' = c) ∧
      ∃ k : Nat, contents'[k]? = some c ∧ r' = .sym (.nonTerminal (st.preceding + k)) := by
  rw [expandRepeat] at h
  split at h
  · cases h
  split at h
  · cases h
  rw [hmemo.memo] at h
  split at h
  · rename_i entry hentry
    cases h
    obtain ⟨k, hk, hmem⟩ := mem_mapIdx.mp (mem_of_find?_eq_some hentry)
    have hc : entry.1 = c := by simpa using find?_some hentry
    refine ⟨contents, hmemo.refl, fun _ hc => Or.inl hc, k, ?_, ?_⟩
    · rw [getElem?_eq_getElem hk, ← hc, ← hmem]
    · rw [← hmem]
  · rename_i hnone
    have hlen : st.aux.length = contents.length := by
      simpa using congrArg List.length hmemo.aux
    have hnew : c ∉ contents := by
      intro hc
      obtain ⟨k, hk, rfl⟩ := mem_iff_getElem.mp hc
      rw [find?_eq_none] at hnone
      exact hnone (contents[k], .nonTerminal (st.preceding + k))
        (mem_mapIdx.mpr ⟨k, hk, rfl⟩) (by simp)
    cases h
    refine ⟨contents ++ [c], ⟨⟨?_, ?_, ?_⟩, prefix_append _ _, rfl⟩, by simp,
      contents.length, ?_, ?_⟩
    · exact nodup_append.mpr ⟨hmemo.nodup, nodup_singleton _, by
        intro a ha b hb heq
        rw [mem_singleton.mp hb] at heq
        exact hnew (heq ▸ ha)⟩
    · rw [mapIdx_concat, hlen]
    · rw [map_append, hmemo.aux, mapIdx_concat, hlen]
      rfl
    · simp
    · rw [hlen]

mutual

theorem expandRoot_grows {varName : String} : ∀ {r r' : Rule} {st st' : RepeatExpander}
    {contents : List Rule}, Memo st contents → expandRoot varName r st = .ok (r', st') →
    ∃ contents', Grows st contents st' contents' ∧ ExpandedRule st.preceding contents' r r' ∧
      NewFrom st.preceding contents contents' (repeatContents r)
  | .repeat c, _, st, _, _, hmemo, h => by
    obtain ⟨⟨c', st₁⟩, hc, h⟩ := bind_eq_ok.mp h
    obtain ⟨contents₁, hgrows, hexpanded, hnew⟩ := expandRoot_grows hmemo hc
    obtain ⟨contents₂, hgrows', hnew', k, hk, rfl⟩ := expandRepeat_grows hgrows.memo h
    refine ⟨contents₂, hgrows.trans hgrows', ⟨k, c', hk, hexpanded.mono hgrows'.grows, ?_⟩,
      fun d hd => ?_⟩
    · rw [hgrows.preceding]
    · rcases hnew' d hd with hd | rfl
      · rcases hnew d hd with hd | ⟨e, he, hexp⟩
        · exact Or.inl hd
        · exact Or.inr ⟨e, mem_cons_of_mem _ he, hexp.mono hgrows'.grows⟩
      · exact Or.inr ⟨c, mem_cons_self, hexpanded.mono hgrows'.grows⟩
  | .seq es, _, st, _, _, hmemo, h | .choice es, _, st, _, _, hmemo, h => by
    obtain ⟨⟨es', st₁⟩, hes, h⟩ := bind_eq_ok.mp h
    cases h
    obtain ⟨contents₁, hgrows, hexpanded, hnew⟩ := expandRootAll_grows hmemo hes
    exact ⟨contents₁, hgrows, ⟨es', hexpanded, rfl⟩, hnew⟩
  | .metadata params r, _, st, _, _, hmemo, h => by
    obtain ⟨⟨r', st₁⟩, hr, h⟩ := bind_eq_ok.mp h
    cases h
    obtain ⟨contents₁, hgrows, hexpanded, hnew⟩ := expandRoot_grows hmemo hr
    exact ⟨contents₁, hgrows, ⟨r', hexpanded, rfl⟩, hnew⟩
  | .blank, _, _, _, contents, hmemo, h | .string _, _, _, _, contents, hmemo, h
  | .pattern _ _, _, _, _, contents, hmemo, h | .namedSymbol _, _, _, _, contents, hmemo, h
  | .sym _, _, _, _, contents, hmemo, h | .eof, _, _, _, contents, hmemo, h
  | .reserved _ _, _, _, _, contents, hmemo, h => by
    cases h
    exact ⟨contents, hmemo.refl, rfl, .refl _ _ _⟩

theorem expandRootAll_grows {varName : String} : ∀ {es es' : List Rule} {st st' : RepeatExpander}
    {contents : List Rule}, Memo st contents → expandRootAll varName es st = .ok (es', st') →
    ∃ contents', Grows st contents st' contents' ∧ ExpandedAll st.preceding contents' es es' ∧
      NewFrom st.preceding contents contents' (repeatContentsAll es)
  | [], _, _, _, contents, hmemo, h => by
    cases h
    exact ⟨contents, hmemo.refl, rfl, .refl _ _ _⟩
  | e :: es, _, st, _, _, hmemo, h => by
    obtain ⟨⟨e', st₁⟩, he, h⟩ := bind_eq_ok.mp h
    obtain ⟨⟨es', st₂⟩, hes, h⟩ := bind_eq_ok.mp h
    cases h
    obtain ⟨contents₁, hgrows, hexpanded, hnew⟩ := expandRoot_grows hmemo he
    obtain ⟨contents₂, hgrows', hexpanded', hnew'⟩ := expandRootAll_grows hgrows.memo hes
    rw [hgrows.preceding] at hexpanded' hnew'
    exact ⟨contents₂, hgrows.trans hgrows',
      ⟨e', es', hexpanded.mono hgrows'.grows, hexpanded', rfl⟩, hnew.trans hnew' hgrows'.grows⟩

end

/-- What becomes of the variable at index `i`. -/
structure ExpandedVar (n : Nat) (contents : List Rule) (i : Nat) (v v' : Variable) : Prop where
  name : v'.name = v.name
  /-- A hidden repetition is its own auxiliary variable. -/
  hidden : ∀ c, hiddenRepeat v = some c → v'.kind = .auxiliary ∧
    ∃ c', ExpandedRule n contents c c' ∧ v'.root = wrapInBinaryTree (.nonTerminal i) c'
  other : hiddenRepeat v = none → v'.kind = v.kind ∧ ExpandedRule n contents v.root v'.root

variable {v : Variable}

theorem ExpandedVar.mono {n : Nat} {i : Nat} {v' : Variable} (h : ExpandedVar n contents i v v')
    (hgrows : contents <+: contents') :
    ExpandedVar n contents' i v v' where
  name := h.name
  hidden c hc := by
    obtain ⟨hkind, c', hexpanded, hroot⟩ := h.hidden c hc
    exact ⟨hkind, c', hexpanded.mono hgrows, hroot⟩
  other hnone := ⟨(h.other hnone).1, (h.other hnone).2.mono hgrows⟩

theorem hiddenRepeat_eq_some {c : Rule} (h : hiddenRepeat v = some c) :
    v.root = .repeat c := by
  unfold hiddenRepeat at h
  split at h
  · rename_i hroot
    cases h
    exact hroot
  · cases h

theorem expandVariable_grows {i : Nat} {v' : Variable} (hmemo : Memo st contents)
    (h : expandVariable i v st = .ok (v', st')) :
    ∃ contents', Grows st contents st' contents' ∧ ExpandedVar st.preceding contents' i v v' ∧
      NewFrom st.preceding contents contents' (repeatContents v.root) := by
  rw [expandVariable] at h
  split at h
  · rename_i content hcontent
    split at h
    · cases h
    split at h
    · cases h
    obtain ⟨⟨c', st₁⟩, hc, h⟩ := bind_eq_ok.mp h
    cases h
    obtain ⟨contents', hgrows, hexpanded, hnew⟩ := expandRoot_grows hmemo hc
    refine ⟨contents', hgrows, ⟨rfl, fun c hc => ?_, fun hnone => ?_⟩, fun d hd => ?_⟩
    · obtain rfl := Option.some_inj.mp (hcontent.symm.trans hc)
      exact ⟨rfl, c', hexpanded, rfl⟩
    · rw [hcontent] at hnone
      cases hnone
    · rw [hiddenRepeat_eq_some hcontent, repeatContents]
      exact (hnew d hd).imp_right fun ⟨e, he, hexp⟩ => ⟨e, mem_cons_of_mem _ he, hexp⟩
  · rename_i hnone
    obtain ⟨⟨r', st₁⟩, hr, h⟩ := bind_eq_ok.mp h
    cases h
    obtain ⟨contents', hgrows, hexpanded, hnew⟩ := expandRoot_grows hmemo hr
    refine ⟨contents', hgrows, ⟨rfl, fun c hc => ?_, fun _ => ⟨rfl, hexpanded⟩⟩, hnew⟩
    rw [hnone] at hc
    cases hc

theorem expandVariables_grows : ∀ {vs vs' : List Variable} {i : Nat} {st st' : RepeatExpander}
    {contents : List Rule}, Memo st contents → expandVariables i vs st = .ok (vs', st') →
    ∃ contents', Grows st contents st' contents' ∧ vs'.length = vs.length ∧
      (∀ (j : Nat) (v v' : Variable), vs[j]? = some v → vs'[j]? = some v' →
        ExpandedVar st.preceding contents' (i + j) v v') ∧
      NewFrom st.preceding contents contents' (vs.flatMap fun v => repeatContents v.root)
  | [], _, i, _, _, contents, hmemo, h => by
    cases h
    exact ⟨contents, hmemo.refl, rfl, fun j v v' hv => by simp at hv, .refl _ _ _⟩
  | v :: vs, _, i, st, _, contents, hmemo, h => by
    obtain ⟨⟨v', st₁⟩, hv, h⟩ := bind_eq_ok.mp h
    obtain ⟨⟨vs', st₂⟩, hvs, h⟩ := bind_eq_ok.mp h
    cases h
    have hreset : Memo { st with auxRepeatCounter := 0 } contents :=
      ⟨hmemo.nodup, hmemo.memo, hmemo.aux⟩
    obtain ⟨contents₁, hgrows, hexpanded, hnew⟩ := expandVariable_grows hreset hv
    obtain ⟨contents₂, hgrows', hlen, hexpanded', hnew'⟩ := expandVariables_grows hgrows.memo hvs
    have hpreceding : st₁.preceding = st.preceding := hgrows.preceding
    rw [hpreceding] at hexpanded' hnew'
    refine ⟨contents₂, ⟨hgrows'.memo, hgrows.grows.trans hgrows'.grows,
      hgrows'.preceding.trans hpreceding⟩, by simp [hlen], fun j u u' hu hu' => ?_, ?_⟩
    · cases j with
      | zero =>
        cases hu
        cases hu'
        exact hexpanded.mono hgrows'.grows
      | succ j =>
        rw [show i + (j + 1) = i + 1 + j by omega]
        exact hexpanded' j u u' (by simpa using hu) (by simpa using hu')
    · rw [flatMap_cons]
      exact hnew.trans hnew' hgrows'.grows

/-- **What the pass does to a grammar**: the variables are expanded, and for each content there
is an auxiliary variable behind them. Hidden repetitions are no longer inlined. -/
structure Shape (g g' : InputGrammar) (contents : List Rule) : Prop where
  nodup : contents.Nodup
  length : g'.vars.length = g.vars.length + contents.length
  original : ∀ (i : Nat) (v v' : Variable), g.vars[i]? = some v → g'.vars[i]? = some v' →
    ExpandedVar g.vars.length contents i v v'
  /-- A content is that of a repetition of the grammar. -/
  origin : ∀ c' ∈ contents, ∃ v ∈ g.vars, ∃ c ∈ repeatContents v.root,
    ExpandedRule g.vars.length contents c c'
  aux : ∀ (k : Nat) (c : Rule), contents[k]? = some c →
    g'.roots[g.vars.length + k]? =
      some (wrapInBinaryTree (.nonTerminal (g.vars.length + k)) c)
  inline : ∀ s, s ∈ g'.inline ↔ s ∈ g.inline ∧
    ∀ (i : Nat) (v : Variable), s = .nonTerminal i → g.vars[i]? = some v → hiddenRepeat v = none

theorem expandRepeats_shape {g g' : InputGrammar} (h : expandRepeats g = .ok g') :
    ∃ contents, Shape g g' contents := by
  rw [expandRepeats] at h
  split at h
  · cases h
  rename_i byVariable _
  obtain ⟨⟨vs', st'⟩, hvs, h⟩ := bind_eq_ok.mp h
  cases h
  have hmemo : Memo { preceding := g.vars.length, byVariable } [] := ⟨nodup_nil, rfl, rfl⟩
  obtain ⟨contents, hgrows, hlen, hexpanded, hnew⟩ := expandVariables_grows hmemo hvs
  have hpreceding : st'.preceding = g.vars.length := hgrows.preceding
  have haux : st'.aux.map Variable.root =
      contents.mapIdx fun k c => wrapInBinaryTree (.nonTerminal (g.vars.length + k)) c := by
    rw [hgrows.memo.aux, hpreceding]
  have hauxlen : st'.aux.length = contents.length := by
    simpa using congrArg List.length haux
  refine ⟨contents, hgrows.memo.nodup, ?_, fun i v v' hv hv' => ?_, fun c' hc' => ?_,
    fun k c hk => ?_, fun s => ?_⟩
  · simp [hlen, hauxlen]
  · have hlt := (List.getElem?_eq_some_iff.mp hv).1
    rw [List.getElem?_append_left (by omega)] at hv'
    have hvar := hexpanded i v v' hv hv'
    rwa [Nat.zero_add] at hvar
  · obtain ⟨c, hc, hexp⟩ := (hnew c' hc').resolve_left not_mem_nil
    obtain ⟨v, hv, hc⟩ := mem_flatMap.mp hc
    exact ⟨v, hv, c, hc, hexp⟩
  · rw [InputGrammar.roots, map_append, getElem?_append_right (by simp [hlen]), haux]
    simp [hlen, hk]
  · simp only [mem_filter, Bool.not_eq_true', Bool.and_eq_false_iff, beq_eq_false_iff_ne,
      Option.isSome_eq_false_iff, Option.isNone_iff_eq_none]
    refine and_congr_right fun _ => ?_
    constructor
    · rintro hs i v rfl hv
      rcases hs with hs | hs
      · exact absurd rfl hs
      · simpa [Symbol.nonTerminal, hv] using hs
    · intro hall
      by_cases hkind : s.kind = .nonTerminal
      · refine Or.inr ?_
        cases hv : g.vars[s.index]? with
        | none => rfl
        | some v => exact hall s.index v (by cases s; simp_all [Symbol.nonTerminal]) hv
      · exact Or.inl hkind

/-! ### Languages -/

section Languages

variable {α : Type*} {leaf : Rule → Language α} {g g' : InputGrammar} {contents : List Rule}

theorem equations_aux (h : Shape g g' contents) {k : Nat} {c : Rule} (hk : contents[k]? = some c)
    (env : Nat → Language α) :
    equations leaf g'.roots env (g.vars.length + k) =
      env (g.vars.length + k) * env (g.vars.length + k) + c.langIn leaf env := by
  rw [equations, h.aux k c hk]
  exact wrapInBinaryTree_lang _ c

theorem getElem?_roots {g : InputGrammar} {i : Nat} {r : Rule} :
    g.roots[i]? = some r ↔ ∃ v, g.vars[i]? = some v ∧ v.root = r := by
  rw [InputGrammar.roots, getElem?_map, Option.map_eq_some_iff]

/-- In the languages of the new grammar, auxiliary variables are one or more. -/
theorem repeats_languages (h : Shape g g' contents) :
    Repeats g.vars.length contents leaf (languages leaf g'.roots) := fun _ c hk =>
  least_binary (equations_mono leaf g'.roots) (K := c.langIn leaf) (fun _ _ hle => lang_mono hle c)
    (equations_aux h hk)

theorem languages_le (h : Shape g g' contents) :
    languages leaf g.roots ≤ languages leaf g'.roots := by
  refine least_le fun i => ?_
  have hrep : Repeats g.vars.length contents leaf (languages leaf g'.roots) :=
    repeats_languages h
  unfold equations
  split
  · rename_i r hr
    obtain ⟨v, hv, rfl⟩ := getElem?_roots.mp hr
    have hlt := (List.getElem?_eq_some_iff.mp hv).1
    obtain ⟨v', hv'⟩ : ∃ v', g'.vars[i]? = some v' :=
      ⟨_, getElem?_eq_getElem (by rw [h.length]; omega)⟩
    have hvar := h.original i v v' hv hv'
    have heq : ∀ env, equations leaf g'.roots env i = v'.root.langIn leaf env := fun env => by
      rw [equations, getElem?_roots.mpr ⟨v', hv', rfl⟩]
    cases hhidden : hiddenRepeat v with
    | none =>
      rw [← (hvar.other hhidden).2.lang_eq hrep, ← heq, equations_languages]
    | some c =>
      obtain ⟨-, c', hexpanded, hroot⟩ := hvar.hidden c hhidden
      rw [hiddenRepeat_eq_some hhidden, Rule.langIn, ← hexpanded.lang_eq hrep]
      refine (least_binary (equations_mono leaf g'.roots) (K := c'.langIn leaf)
        (fun _ _ hle => lang_mono hle c') fun env => ?_).ge
      rw [heq, hroot, wrapInBinaryTree_lang]
  · exact bot_le

/-- The new ones are in the old ones: with the old languages for the old variables, the
auxiliary variables are still one or more, and the old variables get nothing new. -/
theorem le_languages (hscoped : g.Scoped) (h : Shape g g' contents) {i : Nat}
    (hi : i < g.vars.length) : languages leaf g'.roots i ≤ languages leaf g.roots i := by
  have hF : Monotone fun (env : Nat → Language α) (j : Nat) =>
      if j < g.vars.length then languages leaf g.roots j else equations leaf g'.roots env j := by
    intro env env' hle j
    dsimp only
    split
    · exact le_rfl
    · exact equations_mono leaf g'.roots hle j
  obtain ⟨M, hM⟩ : ∃ M, M = least fun (env : Nat → Language α) (j : Nat) =>
      if j < g.vars.length then languages leaf g.roots j else equations leaf g'.roots env j :=
    ⟨_, rfl⟩
  have hfixed : ∀ j, (if j < g.vars.length then languages leaf g.roots j
      else equations leaf g'.roots M j) = M j := fun j => by
    rw [hM]
    exact congrFun (least_eq hF) j
  have hold : ∀ j < g.vars.length, M j = languages leaf g.roots j := fun j hj => by
    rw [← hfixed j, if_pos hj]
  have hrep : Repeats g.vars.length contents leaf M := by
    intro k c hk
    rw [hM]
    refine least_binary hF (K := c.langIn leaf) (fun _ _ hle => lang_mono hle c) fun env => ?_
    rw [if_neg (by omega)]
    exact equations_aux h hk env
  have hsolves : equations leaf g'.roots M ≤ M := by
    intro j
    by_cases hj : j < g.vars.length
    · obtain ⟨v', hv'⟩ : ∃ v', g'.vars[j]? = some v' :=
        ⟨_, getElem?_eq_getElem (by rw [h.length]; omega)⟩
      have hv : g.vars[j]? = some g.vars[j] := getElem?_eq_getElem hj
      have hvar := h.original j _ v' hv hv'
      have hroot : g.roots[j]? = some g.vars[j].root := getElem?_roots.mpr ⟨_, hv, rfl⟩
      have hscope : g.vars[j].root.ScopedBy g.vars.length := hscoped _ (mem_of_getElem? hroot)
      have hlang : g.vars[j].root.langIn leaf M = M j := by
        rw [hold j hj, ← equations_languages, equations, hroot]
        exact lang_congr hold _ hscope
      rw [equations, getElem?_roots.mpr ⟨v', hv', rfl⟩]
      dsimp only
      cases hhidden : hiddenRepeat g.vars[j] with
      | none => rw [(hvar.other hhidden).2.lang_eq hrep, hlang]
      | some c =>
        obtain ⟨-, c', hexpanded, hroot'⟩ := hvar.hidden c hhidden
        rw [hroot', wrapInBinaryTree_lang, hexpanded.lang_eq hrep]
        rw [hiddenRepeat_eq_some hhidden, Rule.langIn] at hlang
        rw [← hlang]
        exact sup_le (plus_mul_plus_le _) (le_plus _)
    · rw [← hfixed j, if_neg hj]
  rw [← hold i hi]
  exact least_le hsolves i

end Languages

/-- **Expanding repetitions preserves the languages of the variables**, whatever the leaves of
the rules stand for. Repetitions with the same content share one auxiliary variable, and a
hidden repetition is its own. -/
theorem expandRepeats_languages {g g' : InputGrammar} (hscoped : g.Scoped)
    (h : expandRepeats g = .ok g') :
    (∃ contents, Shape g g' contents ∧ ∀ r a b : Rule, ExpandedRule g.vars.length contents r a →
      ExpandedRule g.vars.length contents r b → a = b) ∧
    ∀ {α : Type*} (leaf : Rule → Language α), ∀ i < g.vars.length,
      languages leaf g'.roots i = languages leaf g.roots i := by
  obtain ⟨contents, hshape⟩ := expandRepeats_shape h
  refine ⟨⟨contents, hshape, fun _ _ _ => ExpandedRule.unique hshape.nodup⟩, fun leaf i hi => ?_⟩
  exact le_antisymm (le_languages hscoped hshape hi) (languages_le hshape i)

/-- Two lists of the same token, one of them hidden. -/
def listGrammar : InputGrammar where
  vars := [⟨"list", .named, .repeat (.sym (.terminal 0))⟩,
    ⟨"_list", .hidden, .repeat (.sym (.terminal 0))⟩]
  inline := []

theorem expandRepeats_languages_lists : listGrammar.Scoped ∧
    ∃ g', expandRepeats listGrammar = .ok g' ∧ g'.vars.length = 3 ∧
      ∀ leaf : Rule → Language Nat, languages leaf g'.roots 1 = languages leaf listGrammar.roots 1 := by
  have hscoped : listGrammar.Scoped := by
    simp [InputGrammar.Scoped, InputGrammar.roots, listGrammar, Rule.ScopedBy, Symbol.terminal]
  refine ⟨hscoped, _, rfl, rfl, fun leaf => ?_⟩
  exact (expandRepeats_languages hscoped rfl).2 leaf 1 (by decide)

end TreeSitter.Generate
