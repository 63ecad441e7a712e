import TreeSitter.Generate.Render.LexState

/-!
# TreeSitter.Generate.Render.LexStateSound

**The code of a lex state picks the transition of the state.** No condition is the membership
test of its character set; it agrees with it outside the characters that earlier transitions
have ruled out, and the code only comes to it if the lookahead is not one of them
(`transitionCondition_eval`).
-/

namespace TreeSitter.Generate

open List

/-! ### `set_contains` -/

/-- The search keeps the index of a range with the lookahead in its interval. -/
theorem setContainsFrom_eq {ranges : List (Nat × Nat)} {lookahead : Nat}
    (hsorted : ranges.Pairwise fun p q => p.2 < q.1) (hle : ∀ p ∈ ranges, p.1 ≤ p.2)
    (fuel : Nat) : ∀ {index size : Nat}, 0 < size → size ≤ fuel → index + size ≤ ranges.length →
      (∀ (j : Nat) (p : Nat × Nat), ranges[j]? = some p → p.1 ≤ lookahead → lookahead ≤ p.2 →
        index ≤ j ∧ j < index + size) →
      setContainsFrom ranges lookahead fuel index size =
        some (decide (∃ p ∈ ranges, p.1 ≤ lookahead ∧ lookahead ≤ p.2)) := by
  induction fuel with
  | zero => intro index size hpos hfuel; omega
  | succ fuel ih =>
    intro index size hpos hfuel hlen hinv
    rw [setContainsFrom]
    split
    · rename_i hsize
      have hhalf : size / 2 < size := Nat.div_lt_self hpos (by omega)
      have hmid : index + size / 2 < ranges.length := by omega
      rw [getElem?_eq_getElem hmid, Option.bind_some]
      split
      · rename_i hin
        have hmem : ∃ p ∈ ranges, p.1 ≤ lookahead ∧ lookahead ≤ p.2 :=
          ⟨_, getElem_mem hmid, hin.1, hin.2⟩
        rw [decide_eq_true hmem]
      · rename_i hnot
        -- Ranges before the middle one end before it starts, those behind start behind it.
        have hbefore : ∀ (j : Nat) (p : Nat × Nat), ranges[j]? = some p →
            j < index + size / 2 → p.2 < ranges[index + size / 2].1 := by
          intro j p hj hlt
          obtain ⟨hj', rfl⟩ := List.getElem?_eq_some_iff.mp hj
          exact List.pairwise_iff_getElem.mp hsorted j _ hj' hmid hlt
        have hbehind : ∀ (j : Nat) (p : Nat × Nat), ranges[j]? = some p →
            index + size / 2 < j → ranges[index + size / 2].2 < p.1 := by
          intro j p hj hlt
          obtain ⟨hj', rfl⟩ := List.getElem?_eq_some_iff.mp hj
          exact List.pairwise_iff_getElem.mp hsorted _ j hmid hj' hlt
        have hself : ∀ (j : Nat) (p : Nat × Nat), ranges[j]? = some p →
            p.1 ≤ lookahead → lookahead ≤ p.2 → j ≠ index + size / 2 := by
          intro j p hj h₁ h₂ heq
          rw [heq, getElem?_eq_getElem hmid, Option.some_inj] at hj
          subst hj
          exact hnot ⟨h₁, h₂⟩
        have hmidle := hle _ (getElem_mem hmid)
        split
        · refine ih (by omega) (by omega) (by omega) fun j p hj h₁ h₂ => ?_
          have hj' := hinv j p hj h₁ h₂
          have hne := hself j p hj h₁ h₂
          have hlt := hbefore j p hj
          omega
        · refine ih (by omega) (by omega) (by omega) fun j p hj h₁ h₂ => ?_
          have hj' := hinv j p hj h₁ h₂
          have hne := hself j p hj h₁ h₂
          have hlt := hbehind j p hj
          omega
    · have hlt : index < ranges.length := by omega
      rw [getElem?_eq_getElem hlt, Option.map_some, Option.some_inj,
        ← Bool.decide_and, decide_eq_decide]
      constructor
      · intro h
        exact ⟨_, getElem_mem hlt, h⟩
      · intro ⟨p, hp, h₁, h₂⟩
        obtain ⟨j, hj⟩ := mem_iff_getElem?.mp hp
        have hj' := hinv j p hj h₁ h₂
        obtain rfl : j = index := by omega
        rw [getElem?_eq_getElem hlt, Option.some_inj] at hj
        subst hj
        exact ⟨h₁, h₂⟩

/-- **`set_contains` on the array of a set is membership**, if no range of the set is left out
of the array. -/
theorem setContains_eq {cs : CharacterSet} {c : Nat} (hc : IsChar c) (hne : ¬ cs.isEmpty = true)
    (hranges : ∀ r ∈ cs.ranges, ∃ x, r.Has x ∧ IsChar x) :
    setContains cs.charRanges cs.rangeCount c = some (decide (c ∈ cs)) := by
  have hlen : cs.charRanges.length = cs.rangeCount := by
    rw [CharacterSet.charRanges, CharacterSet.rangeCount, length_filterMap_eq_countP,
      countP_eq_length]
    intro r hr
    obtain ⟨x, hx, hchar⟩ := hranges r hr
    obtain ⟨-, hlt, -⟩ := cs.canonical.mem hr
    obtain ⟨p, hp, -⟩ := (CodeRange.has_iff_chars hlt hchar).mp hx
    rw [hp]
    rfl
  have hpos : 0 < cs.rangeCount := by
    rw [CharacterSet.rangeCount, length_pos_iff]
    simpa [CharacterSet.isEmpty] using hne
  rw [setContains, setContainsFrom_eq cs.pairwise_charRanges
    (fun p hp => cs.le_of_mem_charRanges hp) _ hpos (by omega) (by omega)]
  · rw [Option.some_inj, decide_eq_decide]
    exact cs.mem_charRanges_iff hc
  · intro j p hj _ _
    have := (List.getElem?_eq_some_iff.mp hj).1
    omega

/-! ### Conditions -/

section Conditions

variable {c : Nat}

theorem some_eq_decide {P : Prop} [Decidable P] {p : Bool} (h : p = true ↔ P) :
    some p = some (decide P) := by
  rw [Option.some_inj, Bool.eq_iff_iff, h, decide_eq_true_iff]

theorem includedTest_eval {start stop : Nat} :
    (includedTest start stop).eval false c = some (decide (start ≤ c ∧ c ≤ stop)) := by
  rw [includedTest]
  split
  · split
    · refine some_eq_decide ?_
      simp
      omega
    · refine some_eq_decide ?_
      simp
      omega
  · split
    · refine some_eq_decide ?_
      simp
      omega
    · split
      · refine some_eq_decide ?_
        simp
        omega
      · refine some_eq_decide ?_
        simp

theorem excludedTest_eval {start stop : Nat} :
    (excludedTest start stop).eval false c = some (decide (¬ (start ≤ c ∧ c ≤ stop))) := by
  rw [excludedTest]
  split
  · refine some_eq_decide ?_
    simp
    omega
  · split
    · refine some_eq_decide ?_
      simp
      omega
    · split
      · refine some_eq_decide ?_
        simp
        omega
      · refine some_eq_decide ?_
        simp
        omega

/-- Conditions joined by an operator are evaluated one by one. -/
theorem join_eval {op : Cond → Cond → Cond} {value : List Cond → Bool} {P : Cond → Bool}
    (hone : ∀ cond, value [cond] = P cond)
    (hop : ∀ cond other rest, cond.eval false c = some (P cond) →
      other.eval false c = some (value rest) →
        (op cond other).eval false c = some (value (cond :: rest)))
    {conds : List Cond} (hne : conds ≠ [])
    (h : ∀ cond ∈ conds, cond.eval false c = some (P cond)) :
    (Cond.join op conds).eval false c = some (value conds) := by
  induction conds with
  | nil => exact absurd rfl hne
  | cons cond rest ih =>
    have hcond := h cond mem_cons_self
    cases rest with
    | nil => rw [Cond.join, hcond, hone]
    | cons next rest =>
      exact hop _ _ _ hcond (ih (cons_ne_nil _ _) fun x hx => h x (mem_cons_of_mem _ hx))

theorem join_complete_ne_nil {op : Cond → Cond → Cond} {conds : List Cond}
    (h : (Cond.join op conds).Complete) : conds ≠ [] := by
  rintro rfl
  exact h

variable {cs : CharacterSet} {largeSets : List CharacterSet}

theorem characterRangeConditions_included (hc : IsChar c)
    (hcomplete : (characterRangeConditions cs true).Complete) :
    (characterRangeConditions cs true).eval false c = some (decide (c ∈ cs)) := by
  rw [characterRangeConditions, if_pos rfl] at hcomplete ⊢
  rw [@join_eval c _ (·.any fun cond => (cond.eval false c).getD false) _ (fun _ => Bool.or_false _)
    (fun _ _ _ h h' => by rw [Cond.eval, h, h', any_cons, h]; rfl) _ (join_complete_ne_nil hcomplete)]
  · rw [Option.some_inj, Bool.eq_iff_iff, decide_eq_true_iff, ← cs.mem_charRanges_iff hc]
    simp [includedTest_eval]
  · intro cond hcond
    obtain ⟨p, -, rfl⟩ := mem_map.mp hcond
    simp only [includedTest_eval, Option.getD_some]

theorem characterRangeConditions_excluded (hc : IsChar c)
    (hcomplete : (characterRangeConditions cs false).Complete) :
    (characterRangeConditions cs false).eval false c = some (decide (c ∉ cs)) := by
  rw [characterRangeConditions, if_neg (by simp)] at hcomplete ⊢
  rw [@join_eval c _ (·.all fun cond => (cond.eval false c).getD false) _ (fun _ => Bool.and_true _)
    (fun _ _ _ h h' => by rw [Cond.eval, h, h', all_cons, h]; rfl) _ (join_complete_ne_nil hcomplete)]
  · rw [Option.some_inj, Bool.eq_iff_iff, decide_eq_true_iff, ← cs.mem_charRanges_iff hc]
    simp only [all_map, all_eq_true, Function.comp_apply, excludedTest_eval,
      Option.getD_some, decide_eq_true_eq, not_exists, not_and]
  · intro cond hcond
    obtain ⟨p, -, rfl⟩ := mem_map.mp hcond
    simp only [excludedTest_eval, Option.getD_some]

/-- The negated form leaves the null character out, which is not a character to test for. -/
theorem assertedCondition_eval (hc : IsChar c) (hpos : c ≠ 0)
    (hcomplete : (assertedCondition cs).Complete) :
    (assertedCondition cs).eval false c = some (decide (c ∈ cs)) := by
  rw [assertedCondition] at hcomplete ⊢
  split at hcomplete
  · rename_i hmax
    rw [if_pos hmax, characterRangeConditions_excluded hc hcomplete, Option.some_inj,
      decide_eq_decide, CharacterSet.mem_addChar, CharacterSet.mem_negate]
    have hend : c < endCodePoint := by
      rw [IsChar, endCodePoint] at *
      omega
    have hzero : (Char.ofNat 0).toNat = 0 := rfl
    rw [hzero]
    simp [hpos, hend]
  · rename_i hmax
    rw [if_neg hmax]
    exact characterRangeConditions_included hc hcomplete

theorem largeSetCondition_eval (hc : IsChar c)
    (hne : ¬ cs.isEmpty = true) (hranges : ∀ r ∈ cs.ranges, ∃ x, r.Has x ∧ IsChar x) :
    (largeSetCondition cs).eval false c = some (decide (c ∈ cs)) := by
  rw [largeSetCondition]
  split
  · simp only [Cond.eval, setContains_eq hc hne hranges, Bool.not_false, Option.bind_some,
      Option.map_some, Bool.true_and]
  · exact setContains_eq hc hne hranges

/-! ### Transitions -/

/-- What a large set is chosen with. -/
structure MatchSpec (largeSets : List CharacterSet) (simplified ruledOut : CharacterSet)
    (m : LargeSetMatch) : Prop where
  mem : m.largeSet ∈ largeSets
  meets : ¬ (simplified.intersection m.largeSet).isEmpty = true
  additions : m.additions = (simplified.difference m.largeSet).simplifyIgnoring ruledOut
  removals : m.removals = (simplified.remainder m.largeSet).simplifyIgnoring ruledOut

theorem considerLargeSet_spec {simplified ruledOut set : CharacterSet}
    {best : Option LargeSetMatch} (hset : set ∈ largeSets)
    (hbest : ∀ m ∈ best, MatchSpec largeSets simplified ruledOut m) :
    ∀ m ∈ considerLargeSet simplified ruledOut best set,
      MatchSpec largeSets simplified ruledOut m := by
  intro m hm
  unfold considerLargeSet at hm
  dsimp only at hm
  split at hm
  · exact hbest m hm
  · rename_i hmeets
    split at hm
    · exact hbest m hm
    · split at hm
      · split at hm
        · exact hbest m hm
        · cases hm
          exact ⟨hset, hmeets, rfl, rfl⟩
      · cases hm
        exact ⟨hset, hmeets, rfl, rfl⟩

theorem bestLargeSet_spec {simplified ruledOut : CharacterSet}
    {m : LargeSetMatch} (h : bestLargeSet largeSets simplified ruledOut = some m) :
    MatchSpec largeSets simplified ruledOut m := by
  have hfold : ∀ (sets : List CharacterSet) (best : Option LargeSetMatch), sets ⊆ largeSets →
      (∀ m ∈ best, MatchSpec largeSets simplified ruledOut m) →
      ∀ m ∈ sets.foldl (considerLargeSet simplified ruledOut) best,
        MatchSpec largeSets simplified ruledOut m := by
    intro sets
    induction sets with
    | nil => exact fun _ _ hbest => hbest
    | cons set sets ih =>
      intro best hsub hbest
      rw [cons_subset] at hsub
      exact ih _ hsub.2 (considerLargeSet_spec hsub.1 hbest)
  rw [bestLargeSet] at h
  split at h
  · exact hfold largeSets none (List.Subset.refl _) (by simp) m h
  · cases h

theorem largeSetMatchCondition_eval {m : LargeSetMatch} (hc : IsChar c) (hpos : c ≠ 0)
    (hset : (largeSetCondition m.largeSet).eval false c = some (decide (c ∈ m.largeSet)))
    (hcomplete : (largeSetMatchCondition m).Complete) :
    (largeSetMatchCondition m).eval false c =
      some (decide ((c ∈ m.largeSet ∨ c ∈ m.additions) ∧ c ∉ m.removals)) := by
  -- The additions are tested only if there are some.
  have hpositive : ∀ positive : Cond, positive =
      (if m.additions.isEmpty then largeSetCondition m.largeSet
        else .or (largeSetCondition m.largeSet) (assertedCondition m.additions)) →
      positive.Complete →
      positive.eval false c = some (decide (c ∈ m.largeSet ∨ c ∈ m.additions)) := by
    intro positive hdef hcomplete
    subst hdef
    split at hcomplete
    · rename_i hempty
      rw [if_pos hempty, hset, Option.some_inj, decide_eq_decide]
      simp [CharacterSet.isEmpty_iff _ |>.mp hempty c]
    · rename_i hempty
      rw [if_neg hempty, Cond.eval, hset, assertedCondition_eval hc hpos hcomplete.2]
      simp
  unfold largeSetMatchCondition at hcomplete ⊢
  dsimp only at hcomplete ⊢
  split at hcomplete
  · rename_i hempty
    rw [if_pos hempty, hpositive _ rfl hcomplete, Option.some_inj, decide_eq_decide]
    simp [CharacterSet.isEmpty_iff _ |>.mp hempty c]
  · rename_i hempty
    rw [if_neg hempty, Cond.eval, hpositive _ rfl hcomplete.1,
      characterRangeConditions_excluded hc hcomplete.2]
    simp

/-- **The condition of a transition tests for its characters**, if the lookahead is not ruled
out, and some character of the transition is not. -/
theorem transitionCondition_eval {ruledOut chars : CharacterSet}
    (hlarge : ∀ set ∈ largeSets, ∀ r ∈ set.ranges, ∃ x, r.Has x ∧ IsChar x)
    (hc : IsChar c) (hpos : c ≠ 0) (hruled : c ∉ ruledOut) (hnew : ∃ x ∈ chars, x ∉ ruledOut) :
    ∃ cond, transitionCondition largeSets ruledOut chars = some cond ∧
      (cond.Complete → cond.eval false c = some (decide (c ∈ chars))) := by
  have hsimplified : c ∈ chars.simplifyIgnoring ruledOut ↔ c ∈ chars :=
    chars.mem_simplifyIgnoring hruled
  rw [transitionCondition]
  cases hbest : bestLargeSet largeSets (chars.simplifyIgnoring ruledOut) ruledOut with
  | none =>
    have hne : ¬ (chars.simplifyIgnoring ruledOut).isEmpty = true := by
      obtain ⟨x, hx, hx'⟩ := hnew
      rw [CharacterSet.isEmpty_iff]
      exact fun h => h x ((chars.mem_simplifyIgnoring hx').mpr hx)
    refine ⟨assertedCondition (chars.simplifyIgnoring ruledOut), by simp only [if_neg hne],
      fun hcomplete => ?_⟩
    rw [assertedCondition_eval hc hpos hcomplete, Option.some_inj, decide_eq_decide]
    exact hsimplified
  | some m =>
    obtain ⟨hmem, hmeets, hadd, hremove⟩ := bestLargeSet_spec hbest
    refine ⟨_, rfl, fun hcomplete => ?_⟩
    have hnonempty : ¬ m.largeSet.isEmpty = true := by
      intro hempty
      rw [CharacterSet.isEmpty_iff] at hempty
      rw [CharacterSet.isEmpty_iff] at hmeets
      exact hmeets fun x hx => hempty x ((CharacterSet.mem_intersection _ _ x).mp hx).2
    have hset := largeSetCondition_eval hc hnonempty (hlarge _ hmem)
    have hadditions : c ∈ m.additions ↔ c ∈ chars ∧ c ∉ m.largeSet := by
      rw [hadd, CharacterSet.mem_simplifyIgnoring _ hruled, CharacterSet.mem_difference,
        hsimplified]
    have hremovals : c ∈ m.removals ↔ c ∈ m.largeSet ∧ c ∉ chars := by
      rw [hremove, CharacterSet.mem_simplifyIgnoring _ hruled, CharacterSet.mem_remainder,
        hsimplified]
    rw [largeSetMatchCondition_eval hc hpos hset hcomplete, Option.some_inj, decide_eq_decide,
      hadditions, hremovals]
    tauto

end Conditions

/-! ### States -/

/-- No character is in two of the sets. -/
def DisjointTransitions (actions : List (CharacterSet × AdvanceAction)) : Prop :=
  actions.Pairwise fun a b => ∀ x, ¬ (x ∈ a.1 ∧ x ∈ b.1)

def pickTransition (actions : List (CharacterSet × AdvanceAction)) (c : Nat) :
    Option AdvanceAction :=
  (actions.find? fun a => decide (c ∈ a.1)).map Prod.snd

theorem pickTransition_append (actions rest : List (CharacterSet × AdvanceAction)) (c : Nat) :
    pickTransition (actions ++ rest) c = (pickTransition actions c).or (pickTransition rest c) := by
  rw [pickTransition, find?_append, pickTransition, pickTransition]
  cases actions.find? fun a => decide (c ∈ a.1) <;> rfl

section States

variable {c : Nat} {largeSets : List CharacterSet}
  (hlarge : ∀ set ∈ largeSets, ∀ r ∈ set.ranges, ∃ x, r.Has x ∧ IsChar x)

include hlarge in
/-- The tests one by one. Where the code comes to a transition, the lookahead is not in the
sets before it, and as the sets are disjoint, neither is any character of the transition. -/
theorem transitionStmts_run (hc : IsChar c) (hpos : c ≠ 0)
    (actions : List (CharacterSet × AdvanceAction)) : ∀ {ruledOut : CharacterSet},
      c ∉ ruledOut → DisjointTransitions actions → (∀ a ∈ actions, ∃ x ∈ a.1, x ∉ ruledOut) →
      Complete (transitionStmts largeSets ruledOut actions) →
      runCode false c (transitionStmts largeSets ruledOut actions) =
        some (pickTransition actions c) := by
  induction actions with
  | nil => exact fun _ _ _ _ => rfl
  | cons a rest ih =>
    intro ruledOut hruled hdisjoint hnew hcomplete
    obtain ⟨hhead, hrest⟩ := pairwise_cons.mp hdisjoint
    obtain ⟨cond, hcond, heval⟩ :=
      transitionCondition_eval hlarge hc hpos hruled (hnew a mem_cons_self)
    rw [transitionStmts, hcond] at hcomplete ⊢
    rw [runCode, heval (hcomplete cond a.2 mem_cons_self), Option.bind_some]
    by_cases hmem : c ∈ a.1
    · rw [decide_eq_true hmem, if_pos rfl, pickTransition,
        find?_cons_of_pos (by simpa using hmem), Option.map_some]
    · rw [decide_eq_false hmem, if_neg (by simp), pickTransition,
        find?_cons_of_neg (by simpa using hmem)]
      refine ih ?_ hrest (fun b hb => ?_)
        fun cond action h => hcomplete cond action (mem_cons_of_mem _ h)
      · rw [CharacterSet.mem_add]
        exact fun h => h.elim hruled hmem
      · obtain ⟨x, hx, hx'⟩ := hnew b (mem_cons_of_mem _ hb)
        refine ⟨x, hx, fun h => ?_⟩
        rcases (CharacterSet.mem_add _ _ x).mp h with h | h
        · exact hx' h
        · exact hhead b hb x ⟨h, hx⟩

theorem mem_advanceMapEntries {a : CharacterSet × AdvanceAction} (hc : IsChar c)
    (hsimple : isSimpleTransition a = true) {state : Nat} :
    (c, state) ∈ advanceMapEntries a ↔ state = a.2.state ∧ c ∈ a.1 := by
  rw [isSimpleTransition, Bool.and_eq_true, all_eq_true] at hsimple
  rw [advanceMapEntries, mem_flatMap, ← a.1.mem_charRanges_iff hc]
  constructor
  · intro ⟨p, hp, hmem⟩
    have hle := a.1.le_of_mem_charRanges hp
    rcases mem_cons.mp hmem with heq | hmem
    · cases heq
      exact ⟨rfl, p, hp, le_rfl, hle⟩
    · split at hmem
      · cases mem_singleton.mp hmem
        exact ⟨rfl, p, hp, hle, le_rfl⟩
      · cases hmem
  · rintro ⟨rfl, p, hp, h₁, h₂⟩
    refine ⟨p, hp, ?_⟩
    have hnext := hsimple.2 p hp
    rw [Bool.and_eq_true, decide_eq_true_eq] at hnext
    -- A range of one or two characters has no others.
    rcases Nat.eq_or_lt_of_le h₁ with heq | hlt
    · rw [heq]
      exact mem_cons_self
    · have heq : c = p.2 := by omega
      rw [if_pos (by omega), heq]
      exact mem_cons_of_mem _ mem_cons_self

theorem find?_advanceMap (hc : IsChar c) (leading : List (CharacterSet × AdvanceAction))
    (hsimple : ∀ a ∈ leading, isSimpleTransition a = true) :
    ((leading.flatMap advanceMapEntries).find? fun p => p.1 == c).map
      (fun p => AdvanceAction.mk p.2 true) = pickTransition leading c := by
  induction leading with
  | nil => rfl
  | cons a rest ih =>
    have ha := hsimple a mem_cons_self
    have hmain : a.2.inMainToken = true := (Bool.and_eq_true _ _ ▸ ha).1
    rw [flatMap_cons, find?_append]
    cases hfind : (advanceMapEntries a).find? fun p => p.1 == c with
    | some p =>
      obtain ⟨hmem, hp⟩ : p ∈ advanceMapEntries a ∧ p.1 = c :=
        ⟨mem_of_find?_eq_some hfind, by simpa using find?_some hfind⟩
      obtain ⟨x, state⟩ := p
      obtain rfl : x = c := hp
      obtain ⟨rfl, hchar⟩ := (mem_advanceMapEntries hc ha).mp hmem
      rw [pickTransition, find?_cons_of_pos (by simpa using hchar), Option.map_some,
        Option.some_or, Option.map_some, Option.some_inj, ← hmain]
    | none =>
      have hchar : c ∉ a.1 := fun hchar =>
        find?_eq_none.mp hfind _ ((mem_advanceMapEntries hc ha).mpr ⟨rfl, hchar⟩)
          (by simp)
      rw [Option.none_or, ih fun b hb => hsimple b (mem_cons_of_mem _ hb),
        pickTransition, pickTransition, find?_cons_of_neg (by simpa using hchar)]

theorem mem_foldl_add (leading : List (CharacterSet × AdvanceAction)) (x : Nat) :
    ∀ ruledOut : CharacterSet,
      x ∈ leading.foldl (fun ruledOut transition => ruledOut.add transition.1) ruledOut ↔
        x ∈ ruledOut ∨ ∃ a ∈ leading, x ∈ a.1 := by
  induction leading with
  | nil => simp
  | cons a rest ih =>
    intro ruledOut
    rw [foldl_cons, ih, CharacterSet.mem_add]
    simp [or_assoc]

variable {actions : List (CharacterSet × AdvanceAction)}

theorem isSimple_of_mem_leading :
    ∀ a ∈ actions.take (leadingSimpleTransitionCount actions), isSimpleTransition a = true := by
  intro a ha
  rw [leadingSimpleTransitionCount] at ha
  split at ha
  · rw [← prefix_iff_eq_take.mp (List.takeWhile_prefix _)] at ha
    exact mem_takeWhile_imp ha
  · simp at ha

theorem runCode_eofAction (action : Option AdvanceAction) (code : List LexStmt) :
    runCode false c
      ((action.map fun action => LexStmt.branch (some .eof) ⟨action.state, true⟩).toList ++ code) =
        runCode false c code := by
  cases action with
  | none => rfl
  | some action => rfl

theorem runCode_advanceMap (hc : IsChar c) (actions : List (CharacterSet × AdvanceAction))
    (code : List LexStmt) :
    let count := leadingSimpleTransitionCount actions
    runCode false c
      ((if count = 0 then []
        else [.advanceMap ((actions.take count).flatMap advanceMapEntries)]) ++ code) =
      match pickTransition (actions.take count) c with
      | some action => some (some action)
      | none => runCode false c code := by
  intro count
  by_cases hcount : count = 0
  · rw [if_pos hcount, hcount]
    rfl
  · rw [if_neg hcount, singleton_append, runCode, ← find?_advanceMap hc _ isSimple_of_mem_leading]
    cases ((actions.take count).flatMap advanceMapEntries).find? fun p => p.1 == c <;> rfl

theorem pickTransition_eq_none : pickTransition actions c = none ↔ ∀ a ∈ actions, c ∉ a.1 := by
  simp [pickTransition]

include hlarge in
/-- **The code of a lex state picks the transition of the state.** For transitions with
disjoint sets that are not empty, and a lookahead that is a character other than the null
character, not at the end of the file. -/
theorem lexStateCode_run {state : LexState} (hdisjoint : DisjointTransitions state.advanceActions)
    (hne : ∀ a ∈ state.advanceActions, ∃ x, x ∈ a.1) (hc : IsChar c) (hpos : c ≠ 0)
    (hcomplete : Complete (lexStateCode largeSets state)) :
    runCode false c (lexStateCode largeSets state) = some (state.advanceOn c) := by
  unfold lexStateCode at hcomplete ⊢
  dsimp only at hcomplete ⊢
  have hsplit := take_append_drop (leadingSimpleTransitionCount state.advanceActions)
    state.advanceActions
  have hpick : state.advanceOn c = pickTransition state.advanceActions c := rfl
  rw [append_assoc, runCode_eofAction, runCode_advanceMap hc, hpick]
  generalize leadingSimpleTransitionCount state.advanceActions = count at *
  rw [← hsplit] at hdisjoint
  obtain ⟨-, hrest, hbetween⟩ := pairwise_append.mp hdisjoint
  rw [← congrArg (pickTransition · c) hsplit]
  show _ = some (pickTransition (_ ++ _) c)
  rw [pickTransition_append]
  cases hlead : pickTransition (state.advanceActions.take count) c with
  | some action => rfl
  | none =>
    rw [pickTransition_eq_none] at hlead
    refine transitionStmts_run hlarge hc hpos _ ?_ hrest (fun a ha => ?_)
      fun cond action h => hcomplete cond action (mem_append_right _ h)
    · rw [mem_foldl_add]
      rintro (h | ⟨a, ha, h⟩)
      · exact CharacterSet.not_mem_empty c h
      · exact hlead a ha h
    · obtain ⟨x, hx⟩ := hne a (mem_of_mem_drop ha)
      refine ⟨x, hx, fun h => ?_⟩
      rcases (mem_foldl_add _ x _).mp h with h | ⟨b, hb, h⟩
      · exact CharacterSet.not_mem_empty x h
      · exact hbetween b hb a ha x ⟨h, hx⟩

end States

/-- Two letters, the second of which is skipped. -/
def letterState : LexState :=
  { advanceActions := [(.fromChar 'a', ⟨1, true⟩), (.fromChar 'b', ⟨2, false⟩)] }

theorem lexStateCode_run_letters :
    Complete (lexStateCode [] letterState) ∧
      runCode false 98 (lexStateCode [] letterState) = some (some ⟨2, false⟩) := by
  have hcomplete : Complete (lexStateCode [] letterState) := by
    intro cond action hmem
    have hcode : lexStateCode [] letterState =
        [.branch (some (.eq 97)) ⟨1, true⟩, .branch (some (.eq 98)) ⟨2, false⟩] := rfl
    rw [hcode] at hmem
    fin_cases hmem <;> trivial
  refine ⟨hcomplete, ?_⟩
  rw [lexStateCode_run (by simp) ?_ ?_ (by decide) (by decide) hcomplete]
  · decide
  · simp [DisjointTransitions, letterState]
  · simp [letterState]

/-- A set that ends with surrogates. -/
def surrogateState : LexState :=
  { advanceActions := [(⟨[⟨0xD7FF, 0xE000⟩], by decide⟩, ⟨1, true⟩)] }

/-- The tests are on characters, so the code does not advance over a surrogate; and without a
character to test for, it advances over everything. -/
theorem lexStateCode_run_differs :
    (DisjointTransitions surrogateState.advanceActions ∧
      surrogateState.advanceOn 0xD800 = some ⟨1, true⟩ ∧
      runCode false 0xD800 (lexStateCode [] surrogateState) = some none) ∧
    DisjointTransitions [(CharacterSet.empty, (⟨1, true⟩ : AdvanceAction))] ∧
      LexState.advanceOn { advanceActions := [(.empty, ⟨1, true⟩)] } 97 = none ∧
      runCode false 97 (lexStateCode [] { advanceActions := [(.empty, ⟨1, true⟩)] }) =
        some (some ⟨1, true⟩) :=
  ⟨⟨pairwise_singleton _ _, by decide, by decide⟩, pairwise_singleton _ _, by decide,
    by decide⟩

end TreeSitter.Generate
