import TreeSitter.Generate.NfaCursor
import TreeSitter.Generate.CharacterSetSpec

/-!
# TreeSitter.Generate.NfaCursorSound

**Grouping transitions is exact**: the groups are disjoint, and each holds the code points whose
raw transitions have the same targets, separator flag and precedence (`groupTransitions_spec`).

The loops rewrite a vector in place. What matters of it does not depend on its order, so the
invariants (`Grouped`, `Splitting`) are carried over permutations, and a step is looked at with
the transition it works on in front.
-/

namespace TreeSitter.Generate

open List

/-! ### Labels -/

/-- The states, the precedence and the flag of `t` are those of the raw transitions with `c`. -/
structure Labels (raws : List RawTransition) (c : Nat) (t : NfaTransition) : Prop where
  sorted : t.states.Pairwise (· < ·)
  states : ∀ s, s ∈ t.states ↔ ∃ r ∈ raws, c ∈ r.chars ∧ r.state = s
  precedence : ∃ r ∈ raws, c ∈ r.chars ∧ r.precedence = t.precedence
  precedence_le : ∀ r ∈ raws, c ∈ r.chars → r.precedence ≤ t.precedence
  isSeparator : t.isSeparator = true ↔ ∀ r ∈ raws, c ∈ r.chars → r.isSep = true

/-- What two transitions are joined for. -/
def NfaTransition.label (t : NfaTransition) : List Nat × Bool × Int :=
  (t.states, t.isSeparator, t.precedence)

theorem insertSorted_sorted {x : Nat} {xs : List Nat} (h : xs.Pairwise (· < ·)) :
    (insertSorted x xs).Pairwise (· < ·) := by
  unfold insertSorted
  split
  · exact h
  · rename_i hx
    have hperm := perm_orderedInsert (· ≤ ·) x xs
    have hnodup : (xs.orderedInsert (· ≤ ·) x).Nodup :=
      hperm.nodup_iff.mpr (nodup_cons.mpr ⟨hx, h.imp fun hlt => Nat.ne_of_lt hlt⟩)
    have hle : (xs.orderedInsert (· ≤ ·) x).Pairwise (· ≤ ·) :=
      (h.imp fun hlt => Nat.le_of_lt hlt).orderedInsert x xs
    exact hle.imp₂ (fun a b hab hne => Nat.lt_of_le_of_ne hab hne) hnodup

theorem mem_insertSorted {x y : Nat} {xs : List Nat} : y ∈ insertSorted x xs ↔ y = x ∨ y ∈ xs := by
  unfold insertSorted
  split
  · rename_i hx
    exact ⟨Or.inr, fun h => h.elim (fun h => h ▸ hx) id⟩
  · exact mem_orderedInsert _

section Labels

variable {raws : List RawTransition} {raw : RawTransition} {c : Nat} {t u : NfaTransition}

theorem Labels.congr (h : Labels raws c t) (heq : u.label = t.label) : Labels raws c u := by
  obtain ⟨chars, sep, prec, states⟩ := t
  obtain ⟨chars', sep', prec', states'⟩ := u
  simp only [NfaTransition.label, Prod.mk.injEq] at heq
  obtain ⟨rfl, rfl, rfl⟩ := heq
  exact ⟨h.sorted, h.states, h.precedence, h.precedence_le, h.isSeparator⟩

theorem Labels.label_eq (ht : Labels raws c t) (hu : Labels raws c u) : t.label = u.label := by
  have hstates : t.states = u.states :=
    (perm_ext_iff_of_nodup (ht.sorted.imp Nat.ne_of_lt) (hu.sorted.imp Nat.ne_of_lt)).mpr
      (fun s => (ht.states s).trans (hu.states s).symm) |>.eq_of_pairwise
      (fun a b _ _ hab hba => absurd hba (Nat.lt_asymm hab)) ht.sorted hu.sorted
  have hprec : t.precedence = u.precedence := by
    obtain ⟨r, hr, hc, hrp⟩ := ht.precedence
    obtain ⟨q, hq, hc', hqp⟩ := hu.precedence
    have := hu.precedence_le r hr hc
    have := ht.precedence_le q hq hc'
    omega
  have hsep : t.isSeparator = u.isSeparator :=
    Bool.eq_iff_iff.mpr (ht.isSeparator.trans hu.isSeparator.symm)
  rw [NfaTransition.label, NfaTransition.label, hstates, hprec, hsep]

theorem Labels.of_mem_iff {raws' : List RawTransition} (h : Labels raws c t)
    (hmem : ∀ r, r ∈ raws' ↔ r ∈ raws) : Labels raws' c t := by
  refine ⟨h.sorted, fun s => ?_, ?_, fun r hr => h.precedence_le r ((hmem r).mp hr), ?_⟩
  · simpa only [hmem] using h.states s
  · simpa only [hmem] using h.precedence
  · simpa only [hmem] using h.isSeparator

theorem Labels.skip (h : Labels raws c t) (hc : c ∉ raw.chars) : Labels (raws ++ [raw]) c t := by
  have hmem : ∀ r, r ∈ raws ++ [raw] ∧ c ∈ r.chars ↔ r ∈ raws ∧ c ∈ r.chars := by
    intro r
    refine and_congr_left fun hr => ?_
    rw [mem_append, mem_singleton, or_iff_left]
    rintro rfl
    exact hc hr
  refine ⟨h.sorted, fun s => ?_, ?_, fun r hr hcr => ?_, ?_⟩
  · simp only [← and_assoc, hmem]
    simpa only [and_assoc] using h.states s
  · simp only [← and_assoc, hmem]
    simpa only [and_assoc] using h.precedence
  · exact h.precedence_le r ((hmem r).mp ⟨hr, hcr⟩).1 hcr
  · rw [h.isSeparator]
    simp only [← and_imp, hmem]

theorem Labels.common (h : Labels raws c t) (hc : c ∈ raw.chars) (cs : CharacterSet) :
    Labels (raws ++ [raw]) c
      { characters := cs
        isSeparator := t.isSeparator && raw.isSep
        precedence := max t.precedence raw.precedence
        states := insertSorted raw.state t.states } := by
  refine ⟨insertSorted_sorted h.sorted, fun s => ?_, ?_, fun r hr hcr => ?_, ?_⟩
  · rw [mem_insertSorted, h.states]
    simp only [mem_append, mem_singleton, or_and_right, exists_or, exists_eq_left, hc,
      true_and]
    rw [or_comm, eq_comm (a := s)]
  · dsimp only
    obtain ⟨r, hr, hcr, hprec⟩ := h.precedence
    rcases le_total t.precedence raw.precedence with hle | hle
    · exact ⟨raw, by simp, hc, (max_eq_right hle).symm⟩
    · exact ⟨r, by simp [hr], hcr, by rw [hprec, max_eq_left hle]⟩
  · dsimp only
    rcases mem_append.mp hr with hr | hr
    · exact (h.precedence_le r hr hcr).trans (le_max_left _ _)
    · rw [mem_singleton.mp hr]
      exact le_max_right _ _
  · dsimp only
    rw [Bool.and_eq_true, h.isSeparator]
    constructor
    · rintro ⟨hall, hsep⟩ r hr hcr
      rcases mem_append.mp hr with hr | hr
      · exact hall r hr hcr
      · rwa [mem_singleton.mp hr]
    · intro hall
      exact ⟨fun r hr => hall r (mem_append_left _ hr), hall raw (by simp) hc⟩

theorem Labels.first (hnone : ∀ r ∈ raws, c ∉ r.chars) (hc : c ∈ raw.chars) (cs : CharacterSet) :
    Labels (raws ++ [raw]) c ⟨cs, raw.isSep, raw.precedence, [raw.state]⟩ := by
  have hmem : ∀ r, r ∈ raws ++ [raw] ∧ c ∈ r.chars ↔ r = raw := by
    intro r
    rw [mem_append, mem_singleton]
    constructor
    · rintro ⟨hr | hr, hcr⟩
      · exact absurd hcr (hnone r hr)
      · exact hr
    · rintro rfl
      exact ⟨Or.inr rfl, hc⟩
  refine ⟨pairwise_singleton _ _, fun s => ?_, ⟨raw, by simp, hc, rfl⟩, fun r hr hcr => ?_, ?_⟩
  · simp only [← and_assoc, hmem, exists_eq_left, mem_singleton]
    exact eq_comm
  · rw [(hmem r).mp ⟨hr, hcr⟩]
  · simp only [← and_imp, hmem, forall_eq]

end Labels

/-! ### Splitting -/

/-- No two transitions have a code point in common. -/
def DisjointGroups (result : List NfaTransition) : Prop :=
  result.Pairwise fun t u => ∀ c, ¬ (c ∈ t.characters ∧ c ∈ u.characters)

/-- The groups of some raw transitions. -/
structure Grouped (raws : List RawTransition) (result : List NfaTransition) : Prop where
  nonempty : ∀ t ∈ result, ∃ c, c ∈ t.characters
  disjoint : DisjointGroups result
  covers : ∀ c, (∃ t ∈ result, c ∈ t.characters) ↔ ∃ r ∈ raws, c ∈ r.chars
  labels : ∀ t ∈ result, ∀ c ∈ t.characters, Labels raws c t

/-- The groups while `raw` is being added, of which `chars` is left. -/
structure Splitting (raws : List RawTransition) (raw : RawTransition)
    (result : List NfaTransition) (chars : CharacterSet) : Prop where
  nonempty : ∀ t ∈ result, ∃ c, c ∈ t.characters
  disjoint : DisjointGroups result
  covers : ∀ c, (∃ t ∈ result, c ∈ t.characters) ∨ c ∈ chars ↔ ∃ r ∈ raws ++ [raw], c ∈ r.chars
  rest : ∀ c ∈ chars, c ∈ raw.chars
  before : ∀ t ∈ result, ∀ c ∈ t.characters, c ∈ chars → Labels raws c t
  after : ∀ t ∈ result, ∀ c ∈ t.characters, c ∉ chars → Labels (raws ++ [raw]) c t
  /-- What is left and in no group is not in the raw transitions before. -/
  first : ∀ c ∈ chars, (∀ t ∈ result, c ∉ t.characters) → ∀ r ∈ raws, c ∉ r.chars

variable {result : List NfaTransition}

theorem DisjointGroups.perm {result' : List NfaTransition} (h : DisjointGroups result)
    (hperm : result.Perm result') : DisjointGroups result' :=
  hperm.pairwise h fun hab c hc => hab c ⟨hc.2, hc.1⟩

section Splitting

variable {raws : List RawTransition} {raw : RawTransition} {result result' : List NfaTransition}
  {chars : CharacterSet}

theorem Grouped.perm (h : Grouped raws result) (hperm : result.Perm result') :
    Grouped raws result' where
  nonempty t ht := h.nonempty t (hperm.mem_iff.mpr ht)
  disjoint := h.disjoint.perm hperm
  covers c := by simpa only [hperm.mem_iff] using h.covers c
  labels t ht := h.labels t (hperm.mem_iff.mpr ht)

theorem Splitting.perm (h : Splitting raws raw result chars) (hperm : result.Perm result') :
    Splitting raws raw result' chars where
  nonempty t ht := h.nonempty t (hperm.mem_iff.mpr ht)
  disjoint := h.disjoint.perm hperm
  covers c := by simpa only [hperm.mem_iff] using h.covers c
  rest := h.rest
  before t ht := h.before t (hperm.mem_iff.mpr ht)
  after t ht := h.after t (hperm.mem_iff.mpr ht)
  first c hc hnone := h.first c hc fun t ht => hnone t (hperm.mem_iff.mp ht)

theorem Grouped.splitting (h : Grouped raws result) : Splitting raws raw result raw.chars where
  nonempty := h.nonempty
  disjoint := h.disjoint
  covers c := by
    simp only [h.covers c, mem_append, mem_singleton, or_and_right, exists_or,
      exists_eq_left]
  rest _ hc := hc
  before t ht c hc _ := h.labels t ht c hc
  after t ht c hc hout := (h.labels t ht c hc).skip hout
  first c _ hnone r hr hcr := by
    obtain ⟨t, ht, hct⟩ := (h.covers c).mpr ⟨r, hr, hcr⟩
    exact hnone t ht hct

variable {t : NfaTransition}

/-- One transition is cut into pieces, and what it has in common with `chars` is taken out. -/
theorem Splitting.cut {others pieces : List NfaTransition}
    (h : Splitting raws raw (t :: others) chars) (hne : ∀ p ∈ pieces, ∃ c, c ∈ p.characters)
    (hdisjoint : DisjointGroups pieces)
    (hcover : ∀ c, (∃ p ∈ pieces, c ∈ p.characters) ↔ c ∈ t.characters)
    (hlabel : ∀ p ∈ pieces, ∀ c ∈ p.characters, Labels (raws ++ [raw]) c p) :
    Splitting raws raw (pieces ++ others) (t.characters.remainder chars) := by
  obtain ⟨htdisjoint, hothers⟩ := pairwise_cons.mp h.disjoint
  have hmem : ∀ c, c ∈ t.characters.remainder chars ↔ c ∈ chars ∧ c ∉ t.characters :=
    fun c => CharacterSet.mem_remainder _ _ c
  have hsub : ∀ p ∈ pieces, ∀ c ∈ p.characters, c ∈ t.characters :=
    fun p hp c hc => (hcover c).mp ⟨p, hp, hc⟩
  refine ⟨fun p hp => ?_, ?_, fun c => ?_, fun c hc => ?_, fun p hp c hc hleft => ?_,
    fun p hp c hc hleft => ?_, fun c hc hnone => ?_⟩
  · rcases mem_append.mp hp with hp | hp
    · exact hne p hp
    · exact h.nonempty p (mem_cons_of_mem _ hp)
  · refine pairwise_append.mpr ⟨hdisjoint, hothers, fun p hp u hu c hc => ?_⟩
    exact htdisjoint u hu c ⟨hsub p hp c hc.1, hc.2⟩
  · rw [← h.covers c, hmem]
    simp only [mem_append, mem_cons, or_and_right, exists_or, exists_eq_left, hcover]
    by_cases hct : c ∈ t.characters
    · simp only [hct, true_or]
    · simp only [hct, false_or, not_false_eq_true, and_true]
  · exact h.rest c ((hmem c).mp hc).1
  · obtain ⟨hleft, hout⟩ := (hmem c).mp hleft
    rcases mem_append.mp hp with hp | hp
    · exact absurd (hsub p hp c hc) hout
    · exact h.before p (mem_cons_of_mem _ hp) c hc hleft
  · rcases mem_append.mp hp with hp | hp
    · exact hlabel p hp c hc
    · refine h.after p (mem_cons_of_mem _ hp) c hc fun hin => hleft ?_
      exact (hmem c).mpr ⟨hin, fun ht => htdisjoint p hp c ⟨ht, hc⟩⟩
  · obtain ⟨hleft, hout⟩ := (hmem c).mp hc
    refine h.first c hleft fun u hu => ?_
    rcases mem_cons.mp hu with rfl | hu
    · exact hout
    · exact hnone u (mem_append_right _ hu)

def commonTransition (raw : RawTransition) (t : NfaTransition) (chars : CharacterSet) :
    NfaTransition where
  characters := t.characters.intersection chars
  isSeparator := t.isSeparator && raw.isSep
  precedence := max t.precedence raw.precedence
  states := insertSorted raw.state t.states

/-- The pieces that one turn of the loop cuts a transition into: the first one takes its place,
and a second one is pushed. -/
def cutTransition (raw : RawTransition) (t : NfaTransition) (chars : CharacterSet) :
    NfaTransition × List NfaTransition :=
  if (t.characters.intersection chars).isEmpty then
    ({ t with characters := t.characters.difference chars }, [])
  else if (t.characters.difference chars).isEmpty then (commonTransition raw t chars, [])
  else ({ t with characters := t.characters.difference chars }, [commonTransition raw t chars])

theorem splitTransitions_succ (fuel i : Nat) (ht : result[i]? = some t)
    (hchars : ¬ chars.isEmpty = true) :
    splitTransitions raw (fuel + 1) i result chars =
      splitTransitions raw fuel (i + 1)
        (result.set i (cutTransition raw t chars).1 ++ (cutTransition raw t chars).2)
        (t.characters.remainder chars) := by
  rw [splitTransitions, ht]
  simp only [if_neg hchars, cutTransition, commonTransition]
  split_ifs <;> simp

theorem exists_mem_of_not_isEmpty {cs : CharacterSet} (h : ¬ cs.isEmpty = true) :
    ∃ c, c ∈ cs := by
  rw [CharacterSet.isEmpty_iff] at h
  push Not at h
  exact h

/-- **One turn of the loop.** -/
theorem Splitting.cutTransition {others : List NfaTransition}
    (h : Splitting raws raw (t :: others) chars) :
    Splitting raws raw
      (((cutTransition raw t chars).1 :: (cutTransition raw t chars).2) ++ others)
      (t.characters.remainder chars) := by
  have hin : ∀ c, c ∈ t.characters.intersection chars ↔ c ∈ t.characters ∧ c ∈ chars :=
    fun c => CharacterSet.mem_intersection _ _ c
  have hout : ∀ c, c ∈ t.characters.difference chars ↔ c ∈ t.characters ∧ c ∉ chars :=
    fun c => CharacterSet.mem_difference _ _ c
  have hcommon : ∀ c ∈ (commonTransition raw t chars).characters,
      Labels (raws ++ [raw]) c (commonTransition raw t chars) := fun c hc =>
    have hc := (hin c).mp hc
    (h.before t mem_cons_self c hc.1 hc.2).common (h.rest c hc.2) _
  have hrest : ∀ c ∈ t.characters.difference chars,
      Labels (raws ++ [raw]) c { t with characters := t.characters.difference chars } :=
    fun c hc =>
      have hc := (hout c).mp hc
      (h.after t mem_cons_self c hc.1 hc.2).congr rfl
  unfold Generate.cutTransition
  split
  · rename_i hempty
    rw [CharacterSet.isEmpty_iff] at hempty
    have hall : ∀ c, c ∈ t.characters.difference chars ↔ c ∈ t.characters := fun c => by
      rw [hout]
      exact and_iff_left_of_imp fun ht hc => hempty c ((hin c).mpr ⟨ht, hc⟩)
    refine h.cut ?_ (pairwise_singleton _ _) ?_ ?_
    · simpa [hall] using h.nonempty t mem_cons_self
    · simp [hall]
    · simpa using hrest
  · rename_i hne
    split
    · rename_i hempty
      rw [CharacterSet.isEmpty_iff] at hempty
      have hall : ∀ c, c ∈ t.characters.intersection chars ↔ c ∈ t.characters := fun c => by
        rw [hin]
        refine and_iff_left_of_imp fun ht => ?_
        by_contra hc
        exact hempty c ((hout c).mpr ⟨ht, hc⟩)
      refine h.cut ?_ (pairwise_singleton _ _) ?_ ?_
      · simpa [commonTransition] using exists_mem_of_not_isEmpty hne
      · simp [commonTransition, hall]
      · simpa using hcommon
    · rename_i hne'
      refine h.cut ?_ (pairwise_pair.mpr fun c hc => ?_) (fun c => ?_) ?_
      · exact forall_mem_cons.mpr ⟨exists_mem_of_not_isEmpty hne',
          forall_mem_singleton.mpr (exists_mem_of_not_isEmpty hne)⟩
      · exact ((hout c).mp hc.1).2 ((hin c).mp hc.2).2
      · simp only [mem_cons, not_mem_nil, or_false, exists_eq_or_imp, exists_eq_left,
          commonTransition, hin, hout, ← and_or_left]
        exact and_iff_left (Classical.em _).symm
      · exact forall_mem_cons.mpr ⟨hrest, forall_mem_singleton.mpr hcommon⟩

/-- No transition before `i`, and none that was pushed, has a character that is left. -/
def Passed (n i : Nat) (result : List NfaTransition) (chars : CharacterSet) : Prop :=
  ∀ (j : Nat) (t : NfaTransition), result[j]? = some t → j < i ∨ n ≤ j →
    ∀ c ∈ t.characters, c ∉ chars

theorem cutTransition_sub {p : NfaTransition}
    (hp : p ∈ (cutTransition raw t chars).1 :: (cutTransition raw t chars).2) :
    ∀ c ∈ p.characters, c ∈ t.characters := by
  intro c hc
  have hin := CharacterSet.mem_intersection t.characters chars c
  have hout := CharacterSet.mem_difference t.characters chars c
  unfold cutTransition at hp
  split_ifs at hp <;> simp only [mem_cons, not_mem_nil, or_false] at hp
  · subst hp
    exact (hout.mp hc).1
  · subst hp
    exact (hin.mp hc).1
  · rcases hp with rfl | rfl
    · exact (hout.mp hc).1
    · exact (hin.mp hc).1

/-- At most one piece is pushed, and none if there is nothing in common. -/
theorem cutTransition_length (t : NfaTransition) : (cutTransition raw t chars).2.length ≤ 1 ∧
    ((∀ c ∈ t.characters, c ∉ chars) → (cutTransition raw t chars).2 = []) := by
  unfold cutTransition
  split_ifs with hempty
  · exact ⟨Nat.zero_le _, fun _ => rfl⟩
  · exact ⟨Nat.zero_le _, fun _ => rfl⟩
  · refine ⟨le_rfl, fun hout => absurd ?_ hempty⟩
    rw [CharacterSet.isEmpty_iff]
    intro c hc
    have hc := (CharacterSet.mem_intersection _ _ c).mp hc
    exact hout c hc.1 hc.2

theorem Passed.cutTransition {n i : Nat} (h : Passed n i result chars) (ht : result[i]? = some t) :
    Passed n (i + 1)
      (result.set i (cutTransition raw t chars).1 ++ (cutTransition raw t chars).2)
      (t.characters.remainder chars) := by
  intro j u hu hj c hc hleft
  obtain ⟨hleft, hout⟩ := (CharacterSet.mem_remainder _ _ c).mp hleft
  have hlt := (List.getElem?_eq_some_iff.mp ht).1
  rcases Nat.lt_or_ge j result.length with hjlt | hjge
  · rw [getElem?_append_left (by simpa using hjlt), getElem?_set] at hu
    split at hu
    · obtain rfl := Option.some_inj.mp hu
      exact hout (cutTransition_sub mem_cons_self c hc)
    · exact h j u hu (by omega) c hc hleft
  · rw [getElem?_append_right (by simpa using hjge)] at hu
    exact hout (cutTransition_sub (mem_cons_of_mem _ (mem_of_getElem? hu)) c hc)

theorem Splitting.set {i : Nat} (h : Splitting raws raw result chars) (ht : result[i]? = some t) :
    Splitting raws raw
      (result.set i (Generate.cutTransition raw t chars).1 ++
        (Generate.cutTransition raw t chars).2) (t.characters.remainder chars) := by
  obtain ⟨hlt, rfl⟩ := List.getElem?_eq_some_iff.mp ht
  have hfront := h.perm (List.getElem_cons_eraseIdx_perm hlt).symm
  refine hfront.cutTransition.perm ?_
  rw [cons_append]
  refine (List.Perm.cons _ perm_append_comm).trans ?_
  exact (set_perm_cons_eraseIdx hlt _).symm.append_right _

/-- **The loop takes out all that the transitions have in common with the raw one.** The fuel is
enough, since only the first `n` transitions can be cut, and each is cut once. -/
theorem splitTransitions_spec {n : Nat} : ∀ {fuel i : Nat} {result : List NfaTransition}
    {chars : CharacterSet}, Splitting raws raw result chars → Passed n i result chars →
      result.length ≤ n + min i n → 2 * n < fuel + i →
      Splitting raws raw (splitTransitions raw fuel i result chars).1
        (splitTransitions raw fuel i result chars).2 ∧
      ∀ t ∈ (splitTransitions raw fuel i result chars).1, ∀ c ∈ t.characters,
        c ∉ (splitTransitions raw fuel i result chars).2 := by
  intro fuel
  induction fuel with
  | zero =>
    intro i result chars h hpassed hlen hfuel
    refine ⟨h, fun t ht => ?_⟩
    obtain ⟨j, hj⟩ := mem_iff_getElem?.mp ht
    have hlt : j < result.length := (List.getElem?_eq_some_iff.mp hj).1
    exact hpassed j t hj (Or.inl (by omega))
  | succ fuel ih =>
    intro i result chars h hpassed hlen hfuel
    cases hi : result[i]? with
    | none =>
      rw [splitTransitions, hi]
      refine ⟨h, fun t ht => ?_⟩
      obtain ⟨j, hj⟩ := mem_iff_getElem?.mp ht
      have hlt : j < result.length := (List.getElem?_eq_some_iff.mp hj).1
      have hle := List.getElem?_eq_none_iff.mp hi
      exact hpassed j t hj (Or.inl (by omega))
    | some t =>
      by_cases hchars : chars.isEmpty = true
      · rw [splitTransitions, hi]
        simp only [if_pos hchars]
        rw [CharacterSet.isEmpty_iff] at hchars
        exact ⟨h, fun _ _ c _ => hchars c⟩
      rw [splitTransitions_succ fuel i hi hchars]
      refine ih (h.set hi) (hpassed.cutTransition hi) ?_ (by omega)
      obtain ⟨hone, hnone⟩ := @cutTransition_length raw chars t
      rw [length_append, length_set]
      rcases Nat.lt_or_ge i n with hlt | hge
      · omega
      · rw [hnone (hpassed i t hi (Or.inr hge)), length_nil]
        omega

/-- **One raw transition is added.** -/
theorem Grouped.addTransition (h : Grouped raws result) (raw : RawTransition) :
    Grouped (raws ++ [raw]) (addTransition result raw) := by
  have hpassed : Passed result.length 0 result raw.chars := by
    intro j t ht hj
    have hlt := (List.getElem?_eq_some_iff.mp ht).1
    omega
  unfold Generate.addTransition
  dsimp only
  obtain ⟨p, hp⟩ : ∃ p, p = splitTransitions raw (2 * result.length + 1) 0 result raw.chars :=
    ⟨_, rfl⟩
  obtain ⟨hsplit, hout⟩ : Splitting raws raw p.1 p.2 ∧ ∀ t ∈ p.1, ∀ c ∈ t.characters, c ∉ p.2 :=
    hp ▸ splitTransitions_spec h.splitting hpassed (by omega) (by omega)
  rw [← hp]
  split
  · rename_i hempty
    rw [CharacterSet.isEmpty_iff] at hempty
    refine ⟨hsplit.nonempty, hsplit.disjoint, fun c => ?_,
      fun t ht c hc => hsplit.after t ht c hc (hempty c)⟩
    rw [← hsplit.covers c, or_iff_left (hempty c)]
  · rename_i hne
    refine ⟨fun t ht => ?_, pairwise_append.mpr ⟨hsplit.disjoint, pairwise_singleton _ _,
      fun t ht u hu c hc => ?_⟩, fun c => ?_, fun t ht c hc => ?_⟩
    · rcases mem_append.mp ht with ht | ht
      · exact hsplit.nonempty t ht
      · rw [mem_singleton.mp ht]
        exact exists_mem_of_not_isEmpty hne
    · rw [mem_singleton.mp hu] at hc
      exact hout t ht c hc.1 hc.2
    · rw [← hsplit.covers c]
      simp only [mem_append, mem_singleton, or_and_right, exists_or, exists_eq_left]
    · rcases mem_append.mp ht with ht | ht
      · exact hsplit.after t ht c hc (hout t ht c hc)
      · rw [mem_singleton.mp ht] at hc ⊢
        refine .first (hsplit.first c hc fun u hu hcu => ?_) (hsplit.rest c hc) _
        exact hout u hu c hcu hc

theorem grouped_foldl : ∀ (more raws : List RawTransition) {result : List NfaTransition},
    Grouped raws result → Grouped (raws ++ more) (more.foldl Generate.addTransition result)
  | [], raws, _, h => by simpa using h
  | raw :: more, raws, _, h => by
    have := grouped_foldl more (raws ++ [raw]) (h.addTransition raw)
    rwa [append_assoc] at this

end Splitting

/-! ### Joining -/

variable {α : Type*} {i : Nat}

theorem swapRemove_perm {xs : List α} (hi : i < xs.length) :
    (swapRemove xs i).Perm (xs.eraseIdx i) := by
  rcases eq_nil_or_concat' xs with rfl | ⟨ys, last, rfl⟩
  · cases hi
  · rw [swapRemove, getLast?_concat]
    dsimp only
    rcases Nat.lt_or_ge i ys.length with hlt | hge
    · rw [set_append_left _ _ hlt, dropLast_concat, eraseIdx_append_of_lt_length hlt]
      exact (set_perm_cons_eraseIdx hlt last).trans (perm_append_singleton _ _).symm
    · obtain rfl : i = ys.length := by
        rw [length_append, length_singleton] at hi
        omega
      rw [set_append_right _ _ le_rfl, Nat.sub_self, set_cons_zero, dropLast_concat,
        eraseIdx_append_of_length_le le_rfl, Nat.sub_self, eraseIdx_cons_zero,
        append_nil]

theorem take_swapRemove {xs : List α} (hi : i < xs.length) :
    (swapRemove xs i).take i = xs.take i := by
  rcases eq_nil_or_concat' xs with rfl | ⟨ys, last, rfl⟩
  · cases hi
  · rw [swapRemove, getLast?_concat]
    dsimp only
    rw [length_append, length_singleton] at hi
    rw [dropLast_eq_take, take_take, length_set, length_append,
      length_singleton, Nat.add_sub_cancel, min_eq_left (by omega), take_set_of_le le_rfl]

theorem modify_eq_set_of_lt {xs : List α} (hi : i < xs.length) (f : α → α) :
    xs.modify i f = xs.set i (f xs[i]) := by
  refine ext_getElem (by simp) fun k hk hk' => ?_
  rw [getElem_modify, getElem_set]
  split
  · rename_i heq
    subst heq
    rfl
  · rfl

variable {raws : List RawTransition}

theorem Grouped.join {t u : NfaTransition} {others : List NfaTransition}
    (h : Grouped raws (u :: t :: others)) (heq : u.label = t.label) :
    Grouped raws ({ u with characters := u.characters.add t.characters } :: others) := by
  obtain ⟨hu, hrest⟩ := pairwise_cons.mp h.disjoint
  obtain ⟨ht, hothers⟩ := pairwise_cons.mp hrest
  have hmem : ∀ c, c ∈ u.characters.add t.characters ↔ c ∈ u.characters ∨ c ∈ t.characters :=
    fun c => CharacterSet.mem_add _ _ c
  refine ⟨forall_mem_cons.mpr ⟨?_, fun s hs => h.nonempty s (by simp [hs])⟩,
    pairwise_cons.mpr ⟨fun s hs c hc => ?_, hothers⟩, fun c => ?_,
    forall_mem_cons.mpr ⟨fun c hc => ?_, fun s hs => h.labels s (by simp [hs])⟩⟩
  · obtain ⟨c, hc⟩ := h.nonempty u (by simp)
    exact ⟨c, (hmem c).mpr (Or.inl hc)⟩
  · rcases (hmem c).mp hc.1 with hc' | hc'
    · exact hu s (mem_cons_of_mem _ hs) c ⟨hc', hc.2⟩
    · exact ht s hs c ⟨hc', hc.2⟩
  · rw [← h.covers c]
    simp only [mem_cons, or_and_right, exists_or, exists_eq_left, hmem, or_assoc]
  · rcases (hmem c).mp hc with hc | hc
    · exact (h.labels u (by simp) c hc).congr rfl
    · exact (h.labels t (by simp) c hc).congr heq

theorem map_label_modify (result : List NfaTransition) (j : Nat) (cs : CharacterSet) :
    (result.modify j fun u => { u with characters := u.characters.add cs }).map
      NfaTransition.label = result.map NfaTransition.label := by
  refine ext_getElem (by simp) fun k hk hk' => ?_
  rw [getElem_map, getElem_map, getElem_modify]
  split <;> rfl

/-- One turn of the loop that joins transitions, up to the order of the vector. -/
theorem Grouped.swapRemove {j : Nat} (h : Grouped raws result) (hi : i < result.length)
    (hji : j < i) (heq : result[j].label = result[i].label) :
    Grouped raws (swapRemove (result.modify j fun u =>
      { u with characters := u.characters.add result[i].characters }) i) := by
  have hlt : j < (result.eraseIdx i).length := by
    rw [length_eraseIdx_of_lt hi]
    omega
  have hget : (result.eraseIdx i)[j] = result[j] := getElem_eraseIdx_of_lt hlt hji
  have hfront : Grouped raws (result[j] :: result[i] :: (result.eraseIdx i).eraseIdx j) := by
    refine h.perm (List.Perm.symm ?_)
    have hperm := (List.getElem_cons_eraseIdx_perm hlt).cons result[i]
    rw [hget] at hperm
    exact ((List.Perm.swap _ _ _).trans hperm).trans (List.getElem_cons_eraseIdx_perm hi)
  refine (hfront.join heq).perm ?_
  rw [modify_eq_set_of_lt (by omega)]
  refine List.Perm.trans ?_ (swapRemove_perm (by simpa using hi)).symm
  rw [eraseIdx_set_gt hji]
  exact (set_perm_cons_eraseIdx hlt _).symm

/-- **The loop joins all transitions that can be joined.** -/
theorem joinTransitions_spec : ∀ {fuel i : Nat}
    {result : List NfaTransition}, Grouped raws result →
      ((result.take i).map NfaTransition.label).Nodup → result.length ≤ fuel + i →
      Grouped raws (joinTransitions fuel i result) ∧
        ((joinTransitions fuel i result).map NfaTransition.label).Nodup := by
  intro fuel
  induction fuel with
  | zero =>
    intro i result h hnodup hlen
    rw [take_of_length_le (by omega)] at hnodup
    exact ⟨h, hnodup⟩
  | succ fuel ih =>
    intro i result h hnodup hlen
    rw [joinTransitions]
    cases hi : result[i]? with
    | none =>
      rw [take_of_length_le (List.getElem?_eq_none_iff.mp hi)] at hnodup
      exact ⟨h, hnodup⟩
    | some t =>
      obtain ⟨hlt, hget⟩ := List.getElem?_eq_some_iff.mp hi
      dsimp only
      split
      · rename_i hnone
        refine ih h ?_ (by omega)
        rw [take_succ_eq_append_getElem hlt, map_append, map_singleton,
          ← concat_eq_append]
        refine hnodup.concat fun hmem => ?_
        obtain ⟨u, hu, heq⟩ := mem_map.mp hmem
        have hne := findIdx?_eq_none_iff.mp hnone u hu
        simp only [NfaTransition.label, Prod.mk.injEq, hget] at heq
        simp [heq] at hne
      · rename_i j hj
        obtain ⟨hjlt, hsame, -⟩ := findIdx?_eq_some_iff_getElem.mp hj
        rw [length_take] at hjlt
        have heq : result[j].label = result[i].label := by
          rw [getElem_take] at hsame
          simp only [Bool.and_eq_true, beq_iff_eq] at hsame
          rw [NfaTransition.label, NfaTransition.label, hget, hsame.1.1, hsame.1.2, hsame.2]
        subst hget
        refine ih (h.swapRemove hlt (by omega) heq) ?_ ?_
        · rw [take_swapRemove (by simpa using hlt), map_take, map_label_modify,
            ← map_take]
          exact hnodup
        · rw [(swapRemove_perm (by simpa using hlt)).length_eq, length_eraseIdx_of_lt
            (by simpa using hlt), length_modify]
          omega

/-! ### Sorting -/

/-- The numbers that the comparison of ranges looks at, in turn. -/
def rangesKey (rs : List CodeRange) : List Nat := rs.flatMap fun r => [r.len, r.start]

theorem key_cons_le_cons (a b : Nat) (xs ys : List Nat) :
    a :: xs ≤ b :: ys ↔ a < b ∨ a = b ∧ xs ≤ ys := by
  have hlex := @List.cons_lex_cons_iff Nat (· < ·) b ys a xs
  rw [← not_lt, ← not_lt]
  show ¬ List.Lex (· < ·) (b :: ys) (a :: xs) ↔ a < b ∨ a = b ∧ ¬ List.Lex (· < ·) ys xs
  rw [hlex]
  rcases Nat.lt_trichotomy a b with hlt | rfl | hlt
  · simp [hlt, hlt.le, hlt.ne']
  · simp
  · simp [hlt, hlt.le, hlt.ne']

theorem compareRanges_isLE : ∀ {lo lo' : Nat} {rs ss : List CodeRange}, SortedFrom lo rs →
    SortedFrom lo' ss → (rs.map CodeRange.len).sum = (ss.map CodeRange.len).sum →
    ((compareRanges rs ss).isLE = true ↔ rangesKey rs ≤ rangesKey ss)
  | _, _, [], [], _, _, _ => by simp [compareRanges, rangesKey]
  | _, _, [], s :: ss, _, hs, hsum => by
    have := hs.2.1
    simp [CodeRange.len] at hsum
    omega
  | _, _, r :: rs, [], hr, _, hsum => by
    have := hr.2.1
    simp [CodeRange.len] at hsum
    omega
  | _, _, r :: rs, s :: ss, hr, hs, hsum => by
    rw [map_cons, sum_cons, map_cons, sum_cons] at hsum
    have hkey : ∀ (q : CodeRange) (qs : List CodeRange),
        rangesKey (q :: qs) = q.len :: q.start :: rangesKey qs := fun _ _ => rfl
    rw [compareRanges, Ordering.isLE_then_iff_or, Ordering.isLE_then_iff_or, hkey, hkey,
      key_cons_le_cons, key_cons_le_cons, compare_lt_iff_lt, compare_lt_iff_lt,
      compare_eq_iff_eq, compare_eq_iff_eq]
    refine or_congr_right (and_congr_right fun hlen => or_congr_right (and_congr_right fun _ => ?_))
    exact compareRanges_isLE hr.2.2.2 hs.2.2.2 (by omega)

theorem rangesKey_injective : ∀ {lo lo' : Nat} {rs ss : List CodeRange}, SortedFrom lo rs →
    SortedFrom lo' ss → rangesKey rs = rangesKey ss → rs = ss
  | _, _, [], [], _, _, _ => rfl
  | _, _, [], _ :: _, _, _, h | _, _, _ :: _, [], _, _, h => by simp [rangesKey] at h
  | _, _, r :: rs, s :: ss, hr, hs, h => by
    simp only [rangesKey, flatMap_cons, cons_append, nil_append,
      List.cons.injEq] at h
    obtain ⟨hlen, hstart, hrest⟩ := h
    have hr₁ := hr.2.1
    have hs₁ := hs.2.1
    have hstop : r.stop = s.stop := by
      rw [CodeRange.len, CodeRange.len] at hlen
      omega
    obtain ⟨a, b⟩ := r
    obtain ⟨a', b'⟩ := s
    obtain rfl : a = a' := hstart
    obtain rfl : b = b' := hstop
    rw [rangesKey_injective hr.2.2.2 hs.2.2.2 hrest]

namespace CharacterSet

/-- Everything that `cmp` looks at. -/
def key (cs : CharacterSet) : Nat ×ₗ List Nat :=
  toLex ((cs.ranges.map CodeRange.len).sum, rangesKey cs.ranges)

/-- **`cmp` is the order of a key**, and so a total order. -/
theorem cmp_isLE (a b : CharacterSet) : (a.cmp b).isLE = true ↔ a.key ≤ b.key := by
  rw [cmp, Ordering.isLE_then_iff_or, key, key, Prod.Lex.toLex_le_toLex, compare_lt_iff_lt,
    compare_eq_iff_eq]
  exact or_congr_right (and_congr_right fun h => compareRanges_isLE a.canonical b.canonical h)

theorem key_injective {a b : CharacterSet} (h : a.key = b.key) : a = b := by
  have hkey : rangesKey a.ranges = rangesKey b.ranges := congrArg (fun k => (ofLex k).2) h
  obtain ⟨rs, hrs⟩ := a
  obtain ⟨ss, hss⟩ := b
  obtain rfl := rangesKey_injective hrs hss hkey
  rfl

end CharacterSet

/-- The order of the groups. -/
def cmpLE (t u : NfaTransition) : Prop := (t.characters.cmp u.characters).isLE = true

instance (t u : NfaTransition) : Decidable (cmpLE t u) := inferInstanceAs (Decidable (_ = true))

instance : Std.Total cmpLE where
  total t u := by
    unfold cmpLE
    rw [CharacterSet.cmp_isLE, CharacterSet.cmp_isLE]
    exact le_total _ _

instance : IsTrans NfaTransition cmpLE where
  trans t u v := by
    unfold cmpLE
    rw [CharacterSet.cmp_isLE, CharacterSet.cmp_isLE, CharacterSet.cmp_isLE]
    exact le_trans

/-! ### The result -/

theorem Grouped.mem_of_mem {result' : List NfaTransition} (h : Grouped raws result)
    (h' : Grouped raws result') (hnodup : (result.map NfaTransition.label).Nodup)
    (hnodup' : (result'.map NfaTransition.label).Nodup) {t : NfaTransition} (ht : t ∈ result) :
    t ∈ result' := by
  have hinj := inj_on_of_nodup_map hnodup
  have hinj' := inj_on_of_nodup_map hnodup'
  obtain ⟨c, hc⟩ := h.nonempty t ht
  obtain ⟨u, hu, hcu⟩ := (h'.covers c).mpr ((h.covers c).mp ⟨t, ht, hc⟩)
  have hlabel : t.label = u.label := (h.labels t ht c hc).label_eq (h'.labels u hu c hcu)
  have hchars : t.characters = u.characters := by
    refine CharacterSet.ext_mem fun x => ⟨fun hx => ?_, fun hx => ?_⟩
    · obtain ⟨v, hv, hxv⟩ := (h'.covers x).mpr ((h.covers x).mp ⟨t, ht, hx⟩)
      have hvu := (h'.labels v hv x hxv).label_eq (h.labels t ht x hx)
      rwa [← hinj' hv hu (hvu.trans hlabel)]
    · obtain ⟨v, hv, hxv⟩ := (h.covers x).mpr ((h'.covers x).mp ⟨u, hu, hx⟩)
      have hvt := (h.labels v hv x hxv).label_eq (h'.labels u hu x hx)
      rwa [← hinj hv ht (hvt.trans hlabel.symm)]
  have heq : t = u := by
    obtain ⟨chars, sep, prec, states⟩ := t
    obtain ⟨chars', sep', prec', states'⟩ := u
    simp only [NfaTransition.label, Prod.mk.injEq] at hlabel
    obtain ⟨rfl, rfl, rfl⟩ := hlabel
    obtain rfl : chars = chars' := hchars
    rfl
  exact heq ▸ hu

theorem groupTransitions_grouped (raws : List RawTransition) :
    Grouped raws (groupTransitions raws) ∧
      ((groupTransitions raws).map NfaTransition.label).Nodup ∧
      (groupTransitions raws).Pairwise cmpLE := by
  have hfold : Grouped raws (raws.foldl addTransition []) :=
    grouped_foldl raws [] ⟨by simp, List.Pairwise.nil, by simp, by simp⟩
  obtain ⟨hjoin, hnodup⟩ := joinTransitions_spec hfold (i := 0) (by simp) (Nat.le_succ _)
  have hperm := perm_insertionSort cmpLE
    (joinTransitions ((raws.foldl addTransition []).length + 1) 0 (raws.foldl addTransition []))
  exact ⟨hjoin.perm hperm.symm, (hperm.map _).nodup_iff.mpr hnodup,
    pairwise_insertionSort cmpLE _⟩

/-- **Grouping is exact, and does not depend on the order of the raw transitions.** -/
theorem groupTransitions_spec (raws : List RawTransition) :
    Grouped raws (groupTransitions raws) ∧
      ((groupTransitions raws).map NfaTransition.label).Nodup ∧
      ∀ raws' : List RawTransition, raws.Perm raws' →
        groupTransitions raws' = groupTransitions raws := by
  obtain ⟨hgroup, hnodup, hsorted⟩ := groupTransitions_grouped raws
  refine ⟨hgroup, hnodup, fun raws' hperm => ?_⟩
  obtain ⟨hgroup', hnodup', hsorted'⟩ := groupTransitions_grouped raws'
  have hsame : Grouped raws (groupTransitions raws') :=
    ⟨hgroup'.nonempty, hgroup'.disjoint, fun c => by simpa only [hperm.mem_iff] using hgroup'.covers c,
      fun t ht c hc => (hgroup'.labels t ht c hc).of_mem_iff fun r => hperm.mem_iff⟩
  refine List.Perm.eq_of_pairwise (fun t u ht hu htu hut => ?_) hsorted' hsorted ?_
  · have hkey := le_antisymm ((CharacterSet.cmp_isLE _ _).mp htu) ((CharacterSet.cmp_isLE _ _).mp hut)
    have hchars := CharacterSet.key_injective hkey
    have ht := hsame.mem_of_mem hgroup hnodup' hnodup ht
    obtain ⟨c, hc⟩ := hgroup.nonempty t ht
    exact inj_on_of_nodup_map hnodup ht hu
      ((hgroup.labels t ht c hc).label_eq (hgroup.labels u hu c (hchars ▸ hc)))
  · refine (perm_ext_iff_of_nodup hnodup'.of_map hnodup.of_map).mpr fun t => ?_
    exact ⟨hsame.mem_of_mem hgroup hnodup' hnodup, hgroup.mem_of_mem hsame hnodup hnodup'⟩

end TreeSitter.Generate
