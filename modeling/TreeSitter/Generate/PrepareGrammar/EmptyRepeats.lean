import TreeSitter.Generate.PrepareGrammar.ZeroWidth

/-!
# TreeSitter.Generate.PrepareGrammar.EmptyRepeats

**Which grammars have a repetition that can be empty at the end of the input.** While rules are
expanded, the table grows by the widths of the auxiliary variables; an expanded rule has the width
of the rule it comes from (`Kept`). So the pass fails exactly if the content of some repetition,
as it is written, derives a string of nothing but ends of the input (`expandRepeats_fails_iff`).

What rules derive does not depend on the order of the variables, and neither does whether the
pass fails (`zeroWidths_exact`).
-/

namespace TreeSitter.Generate

open List Library

/-! ### Rules that have a width -/

mutual

/-- There are no patterns and no names, and no mark of a nonterminal extra. -/
def Rule.HasWidth : Rule → Prop
  | .pattern _ _ | .namedSymbol _ => False
  | .sym s => s.kind ≠ .endOfNonTerminalExtra
  | .seq es | .choice es => HasWidthAll es
  | .repeat r | .metadata _ r | .reserved r _ => r.HasWidth
  | _ => True

def HasWidthAll : List Rule → Prop
  | [] => True
  | r :: rs => r.HasWidth ∧ HasWidthAll rs

end

mutual

theorem exists_evalWidth_iff (t : List Width) :
    ∀ {r : Rule}, (∃ w, evalWidth t r = some w) ↔ r.HasWidth
  | .blank | .string _ | .eof | .pattern _ _ | .namedSymbol _ => by simp [evalWidth, Rule.HasWidth]
  | .sym s => by
    rw [evalWidth, Rule.HasWidth]
    cases s.kind <;> simp
  | .seq es | .choice es => by
    rw [evalWidth, Rule.HasWidth, ← exists_evalWidths_iff t]
    simp only [Option.map_eq_some_iff]
    exact ⟨fun ⟨_, ws, hws, _⟩ => ⟨ws, hws⟩, fun ⟨ws, hws⟩ => ⟨_, ws, hws, rfl⟩⟩
  | .repeat r | .metadata _ r | .reserved r _ => exists_evalWidth_iff t (r := r)

theorem exists_evalWidths_iff (t : List Width) :
    ∀ {rs : List Rule}, (∃ ws, evalWidths t rs = some ws) ↔ HasWidthAll rs
  | [] => by simp [evalWidths, HasWidthAll]
  | r :: rs => by
    rw [evalWidths, HasWidthAll, ← exists_evalWidth_iff t, ← exists_evalWidths_iff t]
    simp only [Option.bind_eq_some_iff, Option.map_eq_some_iff]
    constructor
    · rintro ⟨_, w, hw, ws, hws, -⟩
      exact ⟨⟨w, hw⟩, ws, hws⟩
    · rintro ⟨⟨w, hw⟩, ws, hws⟩
      exact ⟨_, w, hw, ws, hws, rfl⟩

end

mutual

theorem evalWidth_of_isPrefix {t t' : List Width} (h : t <+: t') :
    ∀ {r : Rule}, r.ScopedBy t.length → evalWidth t' r = evalWidth t r
  | .blank, _ | .string _, _ | .eof, _ | .pattern _ _, _ | .namedSymbol _, _ => rfl
  | .sym s, hs => by
    rw [evalWidth, evalWidth]
    split
    · rfl
    · rename_i hkind
      rw [prefix_iff_getElem?.mp h s.index (hs hkind), getElem?_eq_getElem (hs hkind)]
    · rfl
    · rfl
    · rfl
  | .seq es, hs | .choice es, hs => congrArg (Option.map _) (evalWidths_of_isPrefix h hs)
  | .repeat r, hs | .metadata _ r, hs | .reserved r _, hs => evalWidth_of_isPrefix h (r := r) hs

theorem evalWidths_of_isPrefix {t t' : List Width} (h : t <+: t') :
    ∀ {rs : List Rule}, ScopedAll t.length rs → evalWidths t' rs = evalWidths t rs
  | [], _ => rfl
  | r :: rs, hs => by
    rw [evalWidths, evalWidths, evalWidth_of_isPrefix h hs.1, evalWidths_of_isPrefix h hs.2]

end

mutual

theorem Rule.ScopedBy.mono {n n' : Nat} (h : n ≤ n') : ∀ {r : Rule}, r.ScopedBy n → r.ScopedBy n'
  | .blank, _ | .string _, _ | .eof, _ | .pattern _ _, _ | .namedSymbol _, _ => trivial
  | .sym _, hs => fun hkind => (hs hkind).trans_le h
  | .seq _, hs | .choice _, hs => ScopedAll.mono h hs
  | .repeat r, hs | .metadata _ r, hs | .reserved r _, hs => Rule.ScopedBy.mono h (r := r) hs

theorem ScopedAll.mono {n n' : Nat} (h : n ≤ n') :
    ∀ {rs : List Rule}, ScopedAll n rs → ScopedAll n' rs
  | [], _ => trivial
  | _ :: _, hs => ⟨hs.1.mono h, ScopedAll.mono h hs.2⟩

end

/-! ### What a call comes to -/

/-- **What a call comes to**: an error exactly if something is bad, else what is kept. -/
structure Outcome {α : Type} (result : Except ExpandRepeatsError α) (bad : Prop)
    (kept : α → Prop) : Prop where
  ok : ∀ a, result = .ok a → kept a ∧ ¬ bad
  error : ∀ e, result = .error e → (∃ name, e = .emptyAtEof name) ∧ bad

namespace Outcome

variable {α β : Type} {x : Except ExpandRepeatsError α} {bad bad' : Prop} {kept : α → Prop}

theorem pure {a : α} (h : kept a) : Outcome (.ok a) False kept where
  ok := by
    rintro _ ⟨⟩
    exact ⟨h, id⟩
  error := by
    rintro e ⟨⟩

theorem bind {f : α → Except ExpandRepeatsError β} {kept' : β → Prop} (h : Outcome x bad kept)
    (hf : ∀ a, kept a → Outcome (f a) bad' kept') : Outcome (x >>= f) (bad ∨ bad') kept' := by
  cases x with
  | error e =>
    obtain ⟨hname, hbad⟩ := h.error e rfl
    constructor
    · rintro b ⟨⟩
    · rintro _ ⟨⟩
      exact ⟨hname, Or.inl hbad⟩
  | ok a =>
    obtain ⟨hkept, hgood⟩ := h.ok a rfl
    have hrest := hf a hkept
    constructor
    · exact fun b hb => ⟨(hrest.ok b hb).1, not_or_intro hgood (hrest.ok b hb).2⟩
    · exact fun e he => ⟨(hrest.error e he).1, Or.inr (hrest.error e he).2⟩

theorem map {f : α → β} {k : β → Prop} (h : Outcome x bad kept)
    (hf : ∀ a, kept a → k (f a)) :
    Outcome (x >>= fun a => .ok (f a)) bad k := by
  cases x with
  | error e =>
    constructor
    · rintro b ⟨⟩
    · rintro _ ⟨⟩
      exact h.error e rfl
  | ok a =>
    constructor
    · rintro _ ⟨⟩
      exact ⟨hf a (h.ok a rfl).1, (h.ok a rfl).2⟩
    · rintro e ⟨⟩

theorem imp {kept' : α → Prop} (h : Outcome x bad kept) (hbad : bad ↔ bad')
    (hkept : ∀ a, kept a → kept' a) : Outcome x bad' kept' :=
  ⟨fun a ha => ⟨hkept a (h.ok a ha).1, hbad.not.mp (h.ok a ha).2⟩,
    fun e he => ⟨(h.error e he).1, hbad.mp (h.error e he).2⟩⟩

theorem error_iff (h : Outcome x bad kept) : (∃ name, x = .error (.emptyAtEof name)) ↔ bad := by
  constructor
  · rintro ⟨name, hname⟩
    exact (h.error _ hname).2
  · intro hbad
    cases x with
    | error e =>
      obtain ⟨name, rfl⟩ := (h.error e rfl).1
      exact ⟨name, rfl⟩
    | ok a => exact absurd hbad (h.ok a rfl).2

end Outcome

/-! ### Expansion -/

/-- The content of a repetition can match nothing but the end of the input. -/
def EofRepeat (base : List Width) (c : Rule) : Prop :=
  ∃ w, evalWidth base c = some w ∧ w.eofNullable = true

/-- **The table has the widths of the variables and the auxiliary ones**, and a rule in the memo
has the width of its variable. -/
structure WidthsOf (base : List Width) (st : RepeatExpander) : Prop where
  preceding : st.preceding = base.length
  base : base <+: st.byVariable
  length : st.byVariable.length = st.preceding + st.aux.length
  memo : ∀ entry ∈ st.memo, entry.1.ScopedBy st.byVariable.length ∧ ∃ k,
    entry.2 = .nonTerminal k ∧ k < st.byVariable.length ∧
      evalWidth st.byVariable entry.1 = st.byVariable[k]?

/-- The table after a call. -/
structure Widened (base : List Width) (st st' : RepeatExpander) : Prop where
  widths : WidthsOf base st'
  grows : st.byVariable <+: st'.byVariable

/-- **An expanded rule has the width of the rule.** -/
structure Kept (base : List Width) (st : RepeatExpander) (r : Rule)
    (result : Rule × RepeatExpander) : Prop extends Widened base st result.2 where
  scope : result.1.ScopedBy result.2.byVariable.length
  width : evalWidth result.2.byVariable result.1 = evalWidth base r

structure KeptAll (base : List Width) (st : RepeatExpander) (rs : List Rule)
    (result : List Rule × RepeatExpander) : Prop extends Widened base st result.2 where
  scope : ScopedAll result.2.byVariable.length result.1
  width : evalWidths result.2.byVariable result.1 = evalWidths base rs

section Expand

variable {base : List Width} {st : RepeatExpander} {varName : String}

theorem WidthsOf.refl (h : WidthsOf base st) : Widened base st st := ⟨h, prefix_refl _⟩

theorem WidthsOf.kept (h : WidthsOf base st) {r : Rule} (hscoped : r.ScopedBy base.length) :
    Kept base st r (r, st) :=
  ⟨h.refl, hscoped.mono h.base.length_le, evalWidth_of_isPrefix h.base hscoped⟩

theorem evalWidth_nonTerminal {t : List Width} {k : Nat} (hk : k < t.length) :
    evalWidth t (.sym (.nonTerminal k)) = t[k]? := by
  rw [evalWidth, getElem?_eq_getElem hk]
  simp [Symbol.nonTerminal, hk]

theorem WidthsOf.push (h : WidthsOf base st) {c' : Rule} {w : Width} (aux : Variable)
    (counter : Nat) (hscoped : c'.ScopedBy st.byVariable.length)
    (hw : evalWidth st.byVariable c' = some w) :
    WidthsOf base { st with
      aux := st.aux ++ [aux]
      memo := st.memo ++ [(c', .nonTerminal (st.preceding + st.aux.length))]
      byVariable := st.byVariable ++ [w]
      auxRepeatCounter := counter } := by
  have hgrows : st.byVariable <+: st.byVariable ++ [w] := prefix_append _ _
  refine ⟨h.preceding, h.base.trans hgrows, by simp [h.length, Nat.add_assoc], ?_⟩
  intro entry hentry
  rcases mem_append.mp hentry with hold | hnew
  · obtain ⟨hscope, k, hsymbol, hk, heq⟩ := h.memo entry hold
    refine ⟨hscope.mono hgrows.length_le, k, hsymbol, hk.trans_le hgrows.length_le, ?_⟩
    rw [evalWidth_of_isPrefix hgrows hscope, heq, getElem?_append_left hk]
  · obtain rfl := mem_singleton.mp hnew
    refine ⟨hscoped.mono hgrows.length_le, _, rfl, by simp [h.length], ?_⟩
    rw [evalWidth_of_isPrefix hgrows hscoped, hw, ← h.length]
    simp

theorem expandRepeat_outcome {c c' : Rule} (h : WidthsOf base st)
    (hscoped : c'.ScopedBy st.byVariable.length)
    (hwidth : evalWidth st.byVariable c' = evalWidth base c) (hc : c.HasWidth) :
    Outcome (expandRepeat varName c' st) (EofRepeat base c) (Kept base st (.repeat c)) := by
  obtain ⟨w, hw⟩ := (exists_evalWidth_iff base).mpr hc
  rw [expandRepeat, hwidth, hw]
  dsimp only
  split
  · rename_i heof
    constructor
    · rintro _ ⟨⟩
    · rintro _ ⟨⟩
      exact ⟨⟨varName, rfl⟩, w, hw, heof⟩
  · rename_i heof
    have hgood : ¬ EofRepeat base c := by
      rintro ⟨w', hw', heof'⟩
      cases hw.symm.trans hw'
      exact heof heof'
    have hok : ∀ result, Kept base st (.repeat c) result →
        Outcome (.ok result) (EofRepeat base c) (Kept base st (.repeat c)) := fun result hkept =>
      (Outcome.pure hkept).imp (iff_of_false id hgood) fun _ => id
    split
    · rename_i entry hentry
      obtain ⟨hscope, k, hsymbol, hk, hentrywidth⟩ :=
        h.memo entry (mem_of_find?_eq_some hentry)
      obtain rfl : entry.1 = c' := by simpa using find?_some hentry
      refine hok _ ⟨h.refl, ?_, ?_⟩
      · rw [hsymbol]
        exact fun _ => hk
      · rw [hsymbol, evalWidth_nonTerminal hk, ← hentrywidth, hwidth]
        rfl
    · have hwidth' : evalWidth st.byVariable c' = some w := hwidth.trans hw
      refine hok _ ⟨⟨h.push _ _ hscoped hwidth', prefix_append _ _⟩, ?_, ?_⟩
      · exact fun _ => by simp [Symbol.nonTerminal, h.length]
      · rw [evalWidth_nonTerminal (by simp [h.length]), ← h.length, evalWidth, hw]
        simp

/-- The content of some repetition of a rule can match nothing but the end of the input. -/
def HasEofRepeat (base : List Width) (contents : List Rule) : Prop :=
  ∃ c ∈ contents, EofRepeat base c

theorem hasEofRepeat_append {contents contents' : List Rule} :
    HasEofRepeat base (contents ++ contents') ↔
      HasEofRepeat base contents ∨ HasEofRepeat base contents' := by
  simp only [HasEofRepeat, mem_append, or_and_right, exists_or]

theorem hasEofRepeat_cons {c : Rule} {contents : List Rule} :
    HasEofRepeat base (c :: contents) ↔ HasEofRepeat base contents ∨ EofRepeat base c := by
  simp [HasEofRepeat, or_comm]

theorem WidthsOf.outcome (h : WidthsOf base st) {r : Rule} (hscoped : r.ScopedBy base.length) :
    Outcome (.ok (r, st)) (HasEofRepeat base []) (Kept base st r) :=
  (Outcome.pure (h.kept hscoped)).imp (by simp [HasEofRepeat]) fun _ => id

mutual

/-- **Expanding a rule fails exactly if it has a repetition that can match nothing but the end of
the input.** -/
theorem expandRoot_outcome : ∀ {r : Rule} {st : RepeatExpander}, WidthsOf base st →
    r.ScopedBy base.length → r.HasWidth →
    Outcome (expandRoot varName r st) (HasEofRepeat base (repeatContents r)) (Kept base st r)
  | .repeat c, st, h, hscoped, hwidth => by
    refine ((expandRoot_outcome (r := c) h hscoped hwidth).bind fun result hkept => ?_).imp
      hasEofRepeat_cons.symm fun _ => id
    have hexpand : Outcome (expandRepeat varName result.1 result.2) (EofRepeat base c)
        (Kept base result.2 (.repeat c)) :=
      expandRepeat_outcome hkept.widths hkept.scope hkept.width hwidth
    exact hexpand.imp Iff.rfl fun _ hkept' =>
      ⟨⟨hkept'.widths, hkept.grows.trans hkept'.grows⟩, hkept'.scope, hkept'.width⟩
  | .seq es, st, h, hscoped, hwidth | .choice es, st, h, hscoped, hwidth =>
    (expandRootAll_outcome h hscoped hwidth).map fun _ hkept =>
      ⟨hkept.toWidened, hkept.scope, congrArg (Option.map _) hkept.width⟩
  | .metadata params r, st, h, hscoped, hwidth =>
    (expandRoot_outcome (r := r) h hscoped hwidth).map fun _ hkept =>
      ⟨hkept.toWidened, hkept.scope, hkept.width⟩
  | .blank, _, h, hscoped, _ | .string _, _, h, hscoped, _ | .pattern _ _, _, h, hscoped, _
  | .namedSymbol _, _, h, hscoped, _ | .sym _, _, h, hscoped, _ | .eof, _, h, hscoped, _
  | .reserved _ _, _, h, hscoped, _ => h.outcome hscoped

theorem expandRootAll_outcome : ∀ {rs : List Rule} {st : RepeatExpander}, WidthsOf base st →
    ScopedAll base.length rs → HasWidthAll rs →
    Outcome (expandRootAll varName rs st) (HasEofRepeat base (repeatContentsAll rs))
      (KeptAll base st rs)
  | [], _, h, _, _ =>
    (Outcome.pure ⟨h.refl, trivial, rfl⟩).imp (by simp [HasEofRepeat, repeatContentsAll])
      fun _ => id
  | r :: rs, st, h, hscoped, hwidth => by
    refine ((expandRoot_outcome (r := r) h hscoped.1 hwidth.1).bind fun result hkept => ?_).imp
      hasEofRepeat_append.symm fun _ => id
    refine (expandRootAll_outcome hkept.widths hscoped.2 hwidth.2).map
      fun result' hkept' => ⟨⟨hkept'.widths, hkept.grows.trans hkept'.grows⟩,
        ⟨hkept.scope.mono hkept'.grows.length_le, hkept'.scope⟩, ?_⟩
    rw [evalWidths, evalWidths, evalWidth_of_isPrefix hkept'.grows hkept.scope, hkept.width,
      hkept'.width]

end

theorem expandVariable_outcome {i : Nat} {v : Variable} (h : WidthsOf base st)
    (hscoped : v.root.ScopedBy base.length) (hwidth : v.root.HasWidth) :
    Outcome (expandVariable i v st) (HasEofRepeat base (repeatContents v.root))
      (fun result => WidthsOf base result.2) := by
  rw [expandVariable]
  split
  · rename_i content hcontent
    rw [hiddenRepeat_eq_some hcontent] at hscoped hwidth ⊢
    obtain ⟨w, hw⟩ := (exists_evalWidth_iff base (r := content)).mpr hwidth
    rw [evalWidth_of_isPrefix h.base (r := content) hscoped, hw]
    dsimp only
    split
    · rename_i heof
      constructor
      · rintro _ ⟨⟩
      · rintro _ ⟨⟩
        exact ⟨⟨v.name, rfl⟩, content, mem_cons_self, w, hw, heof⟩
    · rename_i heof
      have hgood : ¬ EofRepeat base content := by
        rintro ⟨w', hw', heof'⟩
        cases hw.symm.trans hw'
        exact heof heof'
      refine Outcome.imp (Outcome.map (expandRoot_outcome h hscoped hwidth) fun _ hkept =>
        hkept.widths) ?_ fun _ => id
      rw [repeatContents, hasEofRepeat_cons]
      exact (or_iff_left hgood).symm
  · exact (expandRoot_outcome h hscoped hwidth).map fun _ hkept => hkept.widths

theorem expandVariables_outcome {vs : List Variable} : ∀ {i : Nat} {st : RepeatExpander},
    WidthsOf base st → (∀ v ∈ vs, v.root.ScopedBy base.length ∧ v.root.HasWidth) →
    Outcome (expandVariables i vs st) (∃ v ∈ vs, HasEofRepeat base (repeatContents v.root))
      (fun _ => True) := by
  induction vs with
  | nil => exact fun _ _ => (Outcome.pure trivial).imp (by simp) fun _ => id
  | cons v vs ih =>
    intro i st h hvs
    have hreset : WidthsOf base { st with auxRepeatCounter := 0 } :=
      ⟨h.preceding, h.base, h.length, h.memo⟩
    obtain ⟨hscoped, hwidth⟩ := hvs v mem_cons_self
    have hbad := exists_mem_cons_iff
      (fun v : Variable => HasEofRepeat base (repeatContents v.root)) v vs
    refine ((expandVariable_outcome hreset hscoped hwidth).bind fun result hkept => ?_).imp
      hbad.symm fun _ => id
    exact (ih hkept fun u hu => hvs u (mem_cons_of_mem _ hu)).map fun _ => id

end Expand

/-! ### The whole pass -/

section Pass

variable {g g' : InputGrammar}

theorem exists_widthPass_iff {rs : List Rule} : ∀ {i : Nat} {t : List Width},
    (∃ t', widthPass i rs t = some t') ↔ ∀ r ∈ rs, r.HasWidth := by
  induction rs with
  | nil => simp [widthPass]
  | cons r rs ih =>
    intro i t
    rw [widthPass, forall_mem_cons, ← exists_evalWidth_iff t]
    constructor
    · rintro ⟨t', h⟩
      obtain ⟨w, hw, h⟩ := Option.bind_eq_some_iff.mp h
      exact ⟨⟨w, hw⟩, ih.mp ⟨t', h⟩⟩
    · rintro ⟨⟨w, hw⟩, hrs⟩
      obtain ⟨t', h⟩ := ih.mpr hrs
      exact ⟨t', Option.bind_eq_some_iff.mpr ⟨w, hw, h⟩⟩

theorem exists_widthLoop {roots : List Rule} (h : ∀ r ∈ roots, r.HasWidth) {fuel : Nat} :
    ∀ {t : List Width}, ∃ t', widthLoop roots fuel t = some t' := by
  induction fuel with
  | zero => exact ⟨_, rfl⟩
  | succ fuel ih =>
    intro t
    obtain ⟨t₁, hpass⟩ := (exists_widthPass_iff (i := 0) (t := t)).mpr h
    rw [widthLoop, hpass, Option.bind_some]
    split
    · exact ⟨_, rfl⟩
    · exact ih

theorem exists_zeroWidths_iff {roots : List Rule} :
    (∃ t, zeroWidths roots = some t) ↔ ∀ r ∈ roots, r.HasWidth := by
  constructor
  · rintro ⟨t, h⟩
    obtain ⟨t₁, hpass, -⟩ := Option.bind_eq_some_iff.mp h
    exact exists_widthPass_iff.mp ⟨t₁, hpass⟩
  · exact fun h => exists_widthLoop h

mutual

theorem repeatContents_hasWidth : ∀ {r : Rule}, r.HasWidth → ∀ c ∈ repeatContents r, c.HasWidth
  | .repeat c, h => forall_mem_cons.mpr ⟨h, repeatContents_hasWidth (r := c) h⟩
  | .seq es, h | .choice es, h => repeatContentsAll_hasWidth h
  | .metadata _ r, h => repeatContents_hasWidth (r := r) h
  | .blank, _ | .string _, _ | .pattern _ _, _ | .namedSymbol _, _ | .sym _, _ | .eof, _
  | .reserved _ _, _ => by simp [repeatContents]

theorem repeatContentsAll_hasWidth :
    ∀ {rs : List Rule}, HasWidthAll rs → ∀ c ∈ repeatContentsAll rs, c.HasWidth
  | [], _ => by simp [repeatContentsAll]
  | _ :: _, h => forall_mem_append.mpr
      ⟨repeatContents_hasWidth h.1, repeatContentsAll_hasWidth h.2⟩

end

/-- The content of some repetition derives a string of nothing but ends of the input. -/
def DerivesEofRepeat (g : InputGrammar) : Prop :=
  ∃ v ∈ g.vars, ∃ c ∈ repeatContents v.root,
    ∃ w ∈ c.langIn widthLeaf (languages widthLeaf g.roots), OnlyEof w

theorem length_of_widthLoop {roots : List Rule} {fuel : Nat} : ∀ {t t' : List Width},
    widthLoop roots fuel t = some t' → t'.length = t.length := by
  induction fuel with
  | zero =>
    rintro t _ ⟨⟩
    rfl
  | succ fuel ih =>
    intro t t' h
    obtain ⟨t₁, hpass, h⟩ := Option.bind_eq_some_iff.mp h
    split at h
    · cases h
      rfl
    · exact (ih h).trans (widthPass_spec hpass).1.length_eq.symm

/-- Of the table, the content of a repetition is the end of the input if it derives that. -/
theorem eofRepeat_iff {roots : List Rule} {t : List Width} (ht : zeroWidths roots = some t)
    {c : Rule} (hc : c.HasWidth) : EofRepeat t c ↔
      ∃ w ∈ c.langIn widthLeaf (languages widthLeaf roots), OnlyEof w := by
  obtain ⟨w, hw⟩ := (exists_evalWidth_iff t).mpr hc
  rw [← (evalWidth_describes (zeroWidths_describes ht) hw).eofNullable]
  constructor
  · rintro ⟨w', hw', heof⟩
    cases hw.symm.trans hw'
    exact heof
  · exact fun heof => ⟨w, hw, heof⟩

/-- **The pass fails exactly if some repetition can match nothing but the end of the input.** -/
theorem expandRepeats_fails_iff (hscoped : g.Scoped) :
    (∃ name, expandRepeats g = .error (.emptyAtEof name)) ↔
      (∀ r ∈ g.roots, r.HasWidth) ∧ DerivesEofRepeat g := by
  rw [expandRepeats]
  cases ht : zeroWidths g.roots with
  | none =>
    constructor
    · rintro ⟨name, ⟨⟩⟩
    · rintro ⟨hwidth, -⟩
      obtain ⟨t, ht'⟩ := exists_zeroWidths_iff.mpr hwidth
      cases ht.symm.trans ht'
  | some t =>
    have hwidth := exists_zeroWidths_iff.mp ⟨t, ht⟩
    have hlen : t.length = g.vars.length := by
      rw [length_of_widthLoop ht, length_replicate, InputGrammar.roots, length_map]
    have hstart : WidthsOf t { preceding := g.vars.length, byVariable := t } :=
      ⟨hlen.symm, prefix_refl t, hlen, by simp⟩
    have hroot : ∀ v ∈ g.vars, v.root ∈ g.roots := fun v hv => mem_map_of_mem hv
    have houtcome := expandVariables_outcome (i := 0) hstart fun v hv =>
      ⟨hlen ▸ hscoped v.root (hroot v hv), hwidth v.root (hroot v hv)⟩
    refine (houtcome.map (k := fun _ => True) fun _ => id).error_iff.trans ?_
    rw [and_iff_right hwidth]
    refine exists_congr fun v => and_congr_right fun hv => ?_
    refine exists_congr fun c => and_congr_right fun hc => ?_
    exact eofRepeat_iff ht (repeatContents_hasWidth (hwidth v.root (hroot v hv)) c hc)

end Pass

/-! ### The order of the variables -/

mutual

/-- The variables of a rule under other numbers. -/
def Rule.rename (σ : Nat → Nat) : Rule → Rule
  | .sym s => .sym (if s.kind = .nonTerminal then .nonTerminal (σ s.index) else s)
  | .seq es => .seq (renameAll σ es)
  | .choice es => .choice (renameAll σ es)
  | .repeat r => .repeat (r.rename σ)
  | .metadata params r => .metadata params (r.rename σ)
  | .reserved r name => .reserved (r.rename σ) name
  | r => r

def renameAll (σ : Nat → Nat) : List Rule → List Rule
  | [] => []
  | r :: rs => r.rename σ :: renameAll σ rs

end

/-- **The same variables in another order**: the one at an index is at another one, and rules
name it by that. -/
def Reordered (σ : Equiv.Perm Nat) (g g' : InputGrammar) : Prop :=
  ∀ i, g'.vars[σ i]? = g.vars[i]?.map fun v => { v with root := v.root.rename σ }

section Order

variable {σ : Nat → Nat}

mutual

theorem rename_rename {σ τ : Nat → Nat} :
    ∀ r : Rule, (r.rename σ).rename τ = r.rename (τ ∘ σ)
  | .blank | .string _ | .eof | .pattern _ _ | .namedSymbol _ => rfl
  | .sym s => by
    by_cases h : s.kind = .nonTerminal
    · simp [Rule.rename, h, Symbol.nonTerminal]
    · simp [Rule.rename, h]
  | .seq es => congrArg Rule.seq (renameAll_renameAll es)
  | .choice es => congrArg Rule.choice (renameAll_renameAll es)
  | .repeat r => congrArg Rule.repeat (rename_rename r)
  | .metadata params r => congrArg (Rule.metadata params) (rename_rename r)
  | .reserved r name => congrArg (Rule.reserved · name) (rename_rename r)

theorem renameAll_renameAll {σ τ : Nat → Nat} :
    ∀ rs : List Rule, renameAll τ (renameAll σ rs) = renameAll (τ ∘ σ) rs
  | [] => rfl
  | r :: rs => congrArg₂ List.cons (rename_rename r) (renameAll_renameAll rs)

end

mutual

theorem rename_id : ∀ r : Rule, r.rename id = r
  | .blank | .string _ | .eof | .pattern _ _ | .namedSymbol _ => rfl
  | .sym ⟨kind, index⟩ => by
    cases kind <;> rfl
  | .seq es => congrArg Rule.seq (renameAll_id es)
  | .choice es => congrArg Rule.choice (renameAll_id es)
  | .repeat r => congrArg Rule.repeat (rename_id r)
  | .metadata params r => congrArg (Rule.metadata params) (rename_id r)
  | .reserved r name => congrArg (Rule.reserved · name) (rename_id r)

theorem renameAll_id : ∀ rs : List Rule, renameAll id rs = rs
  | [] => rfl
  | r :: rs => congrArg₂ List.cons (rename_id r) (renameAll_id rs)

end

mutual

theorem rename_hasWidth : ∀ {r : Rule}, r.HasWidth → (r.rename σ).HasWidth
  | .blank, h | .string _, h | .eof, h | .pattern _ _, h | .namedSymbol _, h => h
  | .sym s, h => by
    rw [Rule.rename, Rule.HasWidth]
    split
    · simp [Symbol.nonTerminal]
    · exact h
  | .seq es, h | .choice es, h => renameAll_hasWidth h
  | .repeat r, h | .metadata _ r, h | .reserved r _, h => rename_hasWidth (r := r) h

theorem renameAll_hasWidth : ∀ {rs : List Rule}, HasWidthAll rs → HasWidthAll (renameAll σ rs)
  | [], h => h
  | _ :: _, h => ⟨rename_hasWidth h.1, renameAll_hasWidth h.2⟩

end

mutual

theorem rename_scopedBy {n n' : Nat} (hσ : ∀ i < n, σ i < n') :
    ∀ {r : Rule}, r.ScopedBy n → (r.rename σ).ScopedBy n'
  | .blank, h | .string _, h | .eof, h | .pattern _ _, h | .namedSymbol _, h => h
  | .sym s, h => by
    rw [Rule.rename, Rule.ScopedBy]
    split
    · rename_i hkind
      exact fun _ => hσ s.index (h hkind)
    · rename_i hkind
      exact fun hkind' => absurd hkind' hkind
  | .seq es, h | .choice es, h => renameAll_scoped hσ h
  | .repeat r, h | .metadata _ r, h | .reserved r _, h => rename_scopedBy hσ (r := r) h

theorem renameAll_scoped {n n' : Nat} (hσ : ∀ i < n, σ i < n') :
    ∀ {rs : List Rule}, ScopedAll n rs → ScopedAll n' (renameAll σ rs)
  | [], h => h
  | _ :: _, h => ⟨rename_scopedBy hσ h.1, renameAll_scoped hσ h.2⟩

end

mutual

theorem repeatContents_rename : ∀ r : Rule,
    repeatContents (r.rename σ) = (repeatContents r).map (Rule.rename σ)
  | .blank | .string _ | .eof | .pattern _ _ | .namedSymbol _ | .sym _ => rfl
  | .seq es | .choice es => repeatContentsAll_renameAll es
  | .repeat c => congrArg (c.rename σ :: ·) (repeatContents_rename c)
  | .metadata _ r => repeatContents_rename r
  | .reserved _ _ => rfl

theorem repeatContentsAll_renameAll : ∀ rs : List Rule,
    repeatContentsAll (renameAll σ rs) = (repeatContentsAll rs).map (Rule.rename σ)
  | [] => rfl
  | r :: rs => by
    rw [renameAll, repeatContentsAll, repeatContentsAll, map_append,
      repeatContents_rename r, repeatContentsAll_renameAll rs]

end

mutual

theorem rename_langIn {env : Nat → Language Input} : ∀ r : Rule,
    (r.rename σ).langIn widthLeaf env = r.langIn widthLeaf (env ∘ σ)
  | .blank | .string _ | .eof | .pattern _ _ | .namedSymbol _ => rfl
  | .sym s => by
    by_cases h : s.kind = .nonTerminal
    · simp [Rule.rename, Rule.langIn, h, Symbol.nonTerminal]
    · simp [Rule.rename, Rule.langIn, h]
  | .seq es => (renameAll_langIn es).1
  | .choice es => (renameAll_langIn es).2
  | .repeat r => congrArg plus (rename_langIn r)
  | .metadata _ r | .reserved r _ => rename_langIn r

theorem renameAll_langIn {env : Nat → Language Input} : ∀ rs : List Rule,
    seqLang widthLeaf env (renameAll σ rs) = seqLang widthLeaf (env ∘ σ) rs ∧
      choiceLang widthLeaf env (renameAll σ rs) = choiceLang widthLeaf (env ∘ σ) rs
  | [] => ⟨rfl, rfl⟩
  | r :: rs => ⟨congrArg₂ (· * ·) (rename_langIn r) (renameAll_langIn rs).1,
      congrArg₂ (· + ·) (rename_langIn r) (renameAll_langIn rs).2⟩

end

end Order

namespace Reordered

variable {σ : Equiv.Perm Nat} {g g' : InputGrammar}

section

variable (h : Reordered σ g g')

include h

theorem symm : Reordered σ.symm g' g := by
  intro i
  have hi := h (σ.symm i)
  rw [Equiv.apply_symm_apply] at hi
  rw [hi, Option.map_map]
  refine (congrFun Option.map_id _).symm.trans (congrArg (Option.map · _) ?_)
  funext v
  simp only [id, Function.comp_apply, rename_rename]
  rw [show ⇑σ.symm ∘ ⇑σ = id from funext σ.symm_apply_apply, rename_id]

theorem roots (i : Nat) : g'.roots[σ i]? = g.roots[i]?.map (Rule.rename σ) := by
  rw [InputGrammar.roots, InputGrammar.roots, getElem?_map, getElem?_map, h i,
    Option.map_map, Option.map_map]
  rfl

theorem lt_length {i : Nat} (hi : i < g.vars.length) : σ i < g'.vars.length := by
  have hv := h i
  rw [getElem?_eq_getElem hi] at hv
  exact (List.getElem?_eq_some_iff.mp hv).1

theorem mem_vars {v : Variable} (hv : v ∈ g.vars) :
    { v with root := v.root.rename σ } ∈ g'.vars := by
  obtain ⟨i, hi⟩ := mem_iff_getElem?.mp hv
  have hv' := h i
  rw [hi] at hv'
  exact mem_of_getElem? hv'

theorem mem_roots {r : Rule} (hr : r ∈ g'.roots) : ∃ r₀ ∈ g.roots, r = r₀.rename σ := by
  obtain ⟨v', hv', rfl⟩ := mem_map.mp hr
  have hv := h.symm.mem_vars hv'
  refine ⟨_, mem_map_of_mem hv, ?_⟩
  rw [rename_rename, show ⇑σ ∘ ⇑σ.symm = id from funext σ.apply_symm_apply, rename_id]

theorem isScoped (hscoped : g.Scoped) : g'.Scoped := by
  intro r hr
  obtain ⟨r₀, hr₀, rfl⟩ := h.mem_roots hr
  exact rename_scopedBy (fun _ => h.lt_length) (hscoped r₀ hr₀)

/-- The languages of the variables solve the equations in the other order. -/
theorem languages_le (i : Nat) :
    languages widthLeaf g.roots i ≤ languages widthLeaf g'.roots (σ i) := by
  have hsolves : equations widthLeaf g.roots (languages widthLeaf g'.roots ∘ σ) ≤
      languages widthLeaf g'.roots ∘ σ := ?_
  · exact least_le hsolves i
  intro j
  rw [Function.comp_apply, ← equations_languages widthLeaf g'.roots, equations, equations,
    h.roots j, equations_languages]
  cases g.roots[j]? with
  | none => exact le_rfl
  | some r => exact (rename_langIn r).ge

theorem languages_eq (i : Nat) :
    languages widthLeaf g'.roots (σ i) = languages widthLeaf g.roots i := by
  refine le_antisymm ?_ (h.languages_le i)
  have hle := h.symm.languages_le (σ i)
  rwa [Equiv.symm_apply_apply] at hle

theorem fails : ((∀ r ∈ g.roots, r.HasWidth) ∧ DerivesEofRepeat g) →
      (∀ r ∈ g'.roots, r.HasWidth) ∧ DerivesEofRepeat g' := by
  rintro ⟨hwidth, v, hv, c, hc, w, hw, heof⟩
  constructor
  · intro r hr
    obtain ⟨r₀, hr₀, rfl⟩ := h.mem_roots hr
    exact rename_hasWidth (hwidth r₀ hr₀)
  · refine ⟨_, h.mem_vars hv, c.rename σ, ?_, w, ?_, heof⟩
    · rw [repeatContents_rename]
      exact mem_map_of_mem hc
    · rw [rename_langIn]
      rwa [show languages widthLeaf g'.roots ∘ σ = languages widthLeaf g.roots from
        funext h.languages_eq]

end

end Reordered

/-- **The analysis of zero width is exact, and the order of the variables does not matter.** The
table is there for all rules that have a width; a rule is nullable if it derives the empty string,
and nullable at the end of the input if it derives nothing but ends of the input. -/
theorem zeroWidths_exact {g : InputGrammar} (hscoped : g.Scoped) :
    ((∃ t, zeroWidths g.roots = some t) ↔ ∀ r ∈ g.roots, r.HasWidth) ∧
    (∀ t, zeroWidths g.roots = some t →
      (∀ i, (widthAt t i).Describes (languages widthLeaf g.roots i)) ∧
      ∀ r w, evalWidth t r = some w →
        w.Describes (r.langIn widthLeaf (languages widthLeaf g.roots))) ∧
    ∀ (σ : Equiv.Perm Nat) (g' : InputGrammar), Reordered σ g g' →
      ((∃ name, expandRepeats g = .error (.emptyAtEof name)) ↔
        ∃ name, expandRepeats g' = .error (.emptyAtEof name)) := by
  refine ⟨exists_zeroWidths_iff, fun t ht => ⟨zeroWidths_describes ht, fun r w =>
    evalWidth_describes (zeroWidths_describes ht)⟩, fun σ g' h => ?_⟩
  rw [expandRepeats_fails_iff hscoped, expandRepeats_fails_iff (h.isScoped hscoped)]
  exact ⟨h.fails, h.symm.fails⟩

/-- A list of what may be the end of the input or a list and the end of the input. -/
def eofListGrammar : InputGrammar where
  vars := [⟨"list", .named, .repeat (.sym (.nonTerminal 1))⟩,
    ⟨"item", .named, .choice [.eof, .seq [.sym (.nonTerminal 0), .eof]]⟩]
  inline := []

/-- The same with the item first. -/
def eofItemGrammar : InputGrammar where
  vars := [⟨"item", .named, .choice [.eof, .seq [.sym (.nonTerminal 1), .eof]]⟩,
    ⟨"list", .named, .repeat (.sym (.nonTerminal 0))⟩]
  inline := []

theorem zeroWidths_exact_lists : eofListGrammar.Scoped ∧
    Reordered (Equiv.swap 0 1) eofListGrammar eofItemGrammar ∧
    ∃ name, expandRepeats eofItemGrammar = .error (.emptyAtEof name) := by
  have hscoped : eofListGrammar.Scoped := by
    simp [InputGrammar.Scoped, InputGrammar.roots, eofListGrammar, Rule.ScopedBy, ScopedAll,
      Symbol.nonTerminal]
  have hreordered : Reordered (Equiv.swap 0 1) eofListGrammar eofItemGrammar := by
    intro i
    obtain _ | _ | i := i
    · rfl
    · rfl
    · rw [Equiv.swap_apply_of_ne_of_ne (by omega) (by omega)]
      rfl
  exact ⟨hscoped, hreordered, ((zeroWidths_exact hscoped).2.2 _ _ hreordered).mp ⟨"list", rfl⟩⟩

end TreeSitter.Generate
