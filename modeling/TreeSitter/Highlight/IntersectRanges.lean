import TreeSitter.Highlight.Layer

/-!
# TreeSitter.Highlight.IntersectRanges

**The ranges of an injection** are the bytes that its content nodes have in the ranges of the parent
layer, without those of the nodes' children (`intersectRanges_spec`).

The function walks over the gaps between the children of all nodes, and over the parent ranges with
them. Each step leaves the parent ranges that later gaps may still meet, or none. What is left is as
good as all parent ranges for positions behind the gap (`Walked`), and this is the invariant of the
three loops.
-/

namespace TreeSitter.Highlighter

open List

/-! ### Ranges in order -/

def Range.Has (range : Range) (p : Nat) : Prop := range.startByte ≤ p ∧ p < range.endByte

def HasByte (ranges : List Range) (p : Nat) : Prop := ∃ range ∈ ranges, range.Has p

/-- The ranges are sorted and disjoint. -/
def RangesApart (ranges : List Range) : Prop :=
  (∀ range ∈ ranges, range.startByte ≤ range.endByte) ∧
    ranges.Pairwise fun range next => range.endByte ≤ next.startByte

theorem hasByte_nil (p : Nat) : ¬ HasByte [] p :=
  fun ⟨_, hrange, _⟩ => absurd hrange not_mem_nil

variable {ranges : List Range} {p : Nat} {parent : Range} {wanted wanted' : Nat → Prop}

theorem hasByte_cons {range : Range} :
    HasByte (range :: ranges) p ↔ range.Has p ∨ HasByte ranges p := by
  simp only [HasByte, mem_cons, or_and_right, exists_or, exists_eq_left]

theorem hasByte_append {ranges ranges' : List Range} :
    HasByte (ranges ++ ranges') p ↔ HasByte ranges p ∨ HasByte ranges' p := by
  simp only [HasByte, mem_append, or_and_right, exists_or]

theorem hasByte_singleton {range : Range} : HasByte [range] p ↔ range.Has p := by
  rw [hasByte_cons, or_iff_left (hasByte_nil p)]

theorem RangesApart.tail {range : Range} (h : RangesApart (range :: ranges)) : RangesApart ranges :=
  ⟨fun other hother => h.1 other (mem_cons_of_mem _ hother), (pairwise_cons.mp h.2).2⟩

theorem RangesApart.suffix {ranges ranges' : List Range} (h : RangesApart ranges)
    (hsuffix : ranges' <:+ ranges) : RangesApart ranges' :=
  ⟨fun range hrange => h.1 range (hsuffix.subset hrange), h.2.sublist hsuffix.sublist⟩

theorem RangesApart.le_of_hasByte {range : Range}
    (h : RangesApart (range :: ranges)) (hp : HasByte ranges p) : range.endByte ≤ p := by
  obtain ⟨other, hother, hhas⟩ := hp
  exact ((pairwise_cons.mp h.2).1 other hother).trans hhas.1

/-! ### The parts of a piece of the source -/

/-- The pieces are not empty, are in order, and lie between two positions. -/
structure PartsOf (start stop : Nat) (parts : List Range) : Prop where
  nonempty {part : Range} (h : part ∈ parts) : part.startByte < part.endByte
  sorted : parts.Pairwise fun part next => part.endByte ≤ next.startByte
  between {part : Range} (h : part ∈ parts) : start ≤ part.startByte ∧ part.endByte ≤ stop

theorem PartsOf.nil (start stop : Nat) : PartsOf start stop [] :=
  ⟨fun h => absurd h not_mem_nil, .nil, fun h => absurd h not_mem_nil⟩

variable {parts : List Range}

theorem PartsOf.mono {start stop start' stop' : Nat} (h : PartsOf start stop parts)
    (hstart : start' ≤ start) (hstop : stop ≤ stop') :
    PartsOf start' stop' parts :=
  ⟨h.nonempty, h.sorted, fun hpart =>
    ⟨hstart.trans (h.between hpart).1, (h.between hpart).2.trans hstop⟩⟩

variable {middle : Nat}

theorem PartsOf.append {start stop : Nat} {parts' : List Range} (h : PartsOf start middle parts)
    (h' : PartsOf middle stop parts') (hstart : start ≤ middle) (hstop : middle ≤ stop) :
    PartsOf start stop (parts ++ parts') := by
  refine ⟨fun {part} hpart => ?_, pairwise_append.mpr ⟨h.sorted, h'.sorted, ?_⟩,
    fun {part} hpart => ?_⟩
  · exact (mem_append.mp hpart).elim h.nonempty h'.nonempty
  · exact fun part hpart next hnext => (h.between hpart).2.trans (h'.between hnext).1
  · rcases mem_append.mp hpart with hpart | hpart
    · exact (h.mono (le_refl _) hstop).between hpart
    · exact (h'.mono hstart (le_refl _)).between hpart

theorem PartsOf.singleton {range : Range} (h : range.startByte < range.endByte) :
    PartsOf range.startByte range.endByte [range] :=
  ⟨fun hpart => mem_singleton.mp hpart ▸ h, pairwise_singleton _ _,
    fun hpart => mem_singleton.mp hpart ▸ ⟨le_refl _, le_refl _⟩⟩

/-- The parent ranges at which a loop stops. -/
def parentsLeft (rest : Option (Range × List Range)) : List Range :=
  rest.elim [] fun (parent, parents) => parent :: parents

/-- **The state behind a position**: the parts are those bytes of the parent ranges that are wanted,
and for bytes behind the position the parent ranges that are left are as good as all of them. -/
structure Walked (parents : List Range) (start stop : Nat) (wanted : Nat → Prop)
    (result : List Range × Option (Range × List Range)) : Prop where
  parts : PartsOf start stop result.1
  hasByte {p : Nat} : HasByte result.1 p ↔ wanted p ∧ HasByte parents p
  suffix : parentsLeft result.2 <:+ parents
  behind {p : Nat} (hp : stop ≤ p) : HasByte (parentsLeft result.2) p ↔ HasByte parents p

variable {result : List Range × Option (Range × List Range)}

/-- The first parent range has been passed, and its part of the piece is known. -/
theorem Walked.cons {parents : List Range} {start stop : Nat} {part : List Range}
    (hstart : start ≤ middle) (hstop : middle ≤ stop) (hpart : PartsOf start middle part)
    (hend : parent.endByte ≤ middle)
    (hhas : ∀ p, HasByte part p ↔ (start ≤ p ∧ p < stop) ∧ parent.Has p)
    (hgap : ∀ p, start ≤ p → p < middle → ¬ HasByte parents p)
    (h : Walked parents middle stop (fun p => middle ≤ p ∧ p < stop) result) :
    Walked (parent :: parents) start stop (fun p => start ≤ p ∧ p < stop)
      (part ++ result.1, result.2) := by
  refine ⟨hpart.append h.parts hstart hstop, fun {p} => ?_, h.suffix.trans (suffix_cons ..),
    fun {p} hp => ?_⟩
  · rw [hasByte_append, hasByte_cons, hhas, h.hasByte, and_or_left]
    refine or_congr_right ⟨fun hp => ⟨⟨hstart.trans hp.1.1, hp.1.2⟩, hp.2⟩, fun hp => ?_⟩
    refine ⟨⟨?_, hp.1.2⟩, hp.2⟩
    by_contra hlt
    exact hgap p hp.1.1 (not_le.mp hlt) hp.2
  · rw [h.behind hp, hasByte_cons, or_iff_right]
    exact fun hhere => absurd hhere.2 (not_lt.mpr (hend.trans (hstop.trans hp)))

/-- The piece ends before the first parent range does, and the loop stops there. -/
theorem Walked.stay {parents : List Range} {range : Range} {start : Nat}
    (hparents : RangesApart (parent :: parents)) (hend : range.endByte ≤ parent.endByte)
    (hstart : start ≤ range.startByte)
    (hhas : ∀ p, (start ≤ p ∧ p < range.endByte) ∧ parent.Has p ↔ range.Has p) :
    Walked (parent :: parents) start range.endByte (fun p => start ≤ p ∧ p < range.endByte)
      (if range.startByte < range.endByte then [range] else [], some (parent, parents)) := by
  refine ⟨?_, fun {p} => ?_, suffix_refl _, fun _ => Iff.rfl⟩
  · split
    · next hlt => exact (PartsOf.singleton hlt).mono hstart (le_refl _)
    · exact .nil _ _
  · have hfirst : ((start ≤ p ∧ p < range.endByte) ∧ HasByte (parent :: parents) p) ↔
        range.Has p := by
      rw [hasByte_cons, and_or_left, hhas, or_iff_left]
      intro hp
      have hle := hparents.le_of_hasByte hp.2
      omega
    rw [hfirst]
    split
    · exact hasByte_singleton
    · next hge =>
      refine iff_of_false (hasByte_nil p) fun hp => hge ?_
      exact hp.1.trans_lt hp.2

/-- The loop goes on to the next parent range, if there is one. -/
def nextParent (range : Range) (part : List Range) :
    List Range → List Range × Option (Range × List Range)
  | [] => (part, none)
  | next :: parents =>
    (part ++ (intersectRange range next parents).1, (intersectRange range next parents).2)

theorem intersectRange_eq (range parent : Range) (parents : List Range) :
    intersectRange range parent parents =
      if parent.startByte ≤ range.endByte then
        if parent.endByte > range.startByte then
          let range :=
            if range.startByte < parent.startByte then
              { range with startByte := parent.startByte, startPoint := parent.startPoint }
            else range
          if parent.endByte < range.endByte then
            nextParent { range with startByte := parent.endByte, startPoint := parent.endPoint }
              (if range.startByte < parent.endByte then
                [{ range with endByte := parent.endByte, endPoint := parent.endPoint }]
              else []) parents
          else (if range.startByte < range.endByte then [range] else [], some (parent, parents))
        else nextParent range [] parents
      else ([], some (parent, parents)) := by
  cases parents <;> rfl

theorem Walked.nextParent {parent range : Range} {parents : List Range}
    (hnext : ∀ next rest, parents = next :: rest → Walked parents range.startByte range.endByte
      range.Has (intersectRange range next rest))
    {start : Nat} {part : List Range} (hstart : start ≤ range.startByte)
    (hrange : range.startByte ≤ range.endByte) (hpart : PartsOf start range.startByte part)
    (hend : parent.endByte ≤ range.startByte)
    (hhas : ∀ p, HasByte part p ↔ (start ≤ p ∧ p < range.endByte) ∧ parent.Has p)
    (hgap : ∀ p, start ≤ p → p < range.startByte → ¬ HasByte parents p) :
    Walked (parent :: parents) start range.endByte (fun p => start ≤ p ∧ p < range.endByte)
      (nextParent range part parents) := by
  cases parents with
  | nil =>
    have hnil : Walked [] range.startByte range.endByte
        (fun p => range.startByte ≤ p ∧ p < range.endByte) ([], none) :=
      ⟨.nil _ _, fun {p} => iff_of_false (hasByte_nil p) fun hp => hasByte_nil p hp.2,
        suffix_refl _, fun _ => Iff.rfl⟩
    have hwalked := hnil.cons hstart hrange hpart hend hhas hgap
    rwa [append_nil] at hwalked
  | cons next rest => exact (hnext next rest rfl).cons hstart hrange hpart hend hhas hgap

theorem intersectRange_step {range parent : Range} {parents : List Range}
    (hparents : RangesApart (parent :: parents)) (hrange : range.startByte ≤ range.endByte)
    (hnext : ∀ range : Range, range.startByte ≤ range.endByte → ∀ next rest,
      parents = next :: rest → Walked parents range.startByte range.endByte range.Has
        (intersectRange range next rest)) :
    Walked (parent :: parents) range.startByte range.endByte range.Has
      (intersectRange range parent parents) := by
  have hparent := hparents.1 parent (mem_cons_self ..)
  rw [intersectRange_eq]
  split
  · split
    · next hends =>
      -- The piece begins where the parent range does, if it began before.
      generalize hclipped : (if range.startByte < parent.startByte then
        { range with startByte := parent.startByte, startPoint := parent.startPoint }
        else range : Range) = clipped
      have hstartByte : clipped.startByte = max range.startByte parent.startByte := by
        rw [← hclipped]
        split
        · next hlt => exact (max_eq_right (le_of_lt hlt)).symm
        · next hge => exact (max_eq_left (not_lt.mp hge)).symm
      have hendByte : clipped.endByte = range.endByte := by
        rw [← hclipped]
        split <;> rfl
      obtain ⟨start, stop, startPoint, endPoint⟩ := clipped
      dsimp only at hstartByte hendByte ⊢
      subst hendByte
      split
      · next hlt =>
        refine @Walked.nextParent parent ⟨parent.endByte, range.endByte, parent.endPoint, endPoint⟩
          parents (hnext _ (le_of_lt hlt)) range.startByte _ (le_of_lt hends) (le_of_lt hlt) ?_
          (le_refl _) (fun p => ?_) fun p _ hp hhas => ?_
        · split
          · next hpart => exact (PartsOf.singleton hpart).mono (by dsimp only; omega) (le_refl _)
          · exact .nil _ _
        · split
          · rw [hasByte_singleton, Range.Has, Range.Has]
            dsimp only
            omega
          · refine iff_of_false (hasByte_nil p) fun hp => ?_
            have hstart := hp.2.1
            have hend := hp.2.2
            omega
        · have hle := hparents.le_of_hasByte hhas
          dsimp only at hp
          omega
      · next hge =>
        refine @Walked.stay parent parents ⟨start, range.endByte, startPoint, endPoint⟩
          range.startByte hparents (not_lt.mp hge) (by dsimp only; omega) fun p => ?_
        rw [Range.Has, Range.Has]
        dsimp only
        omega
    · next hends =>
      rw [not_lt] at hends
      refine Walked.nextParent (hnext range hrange) (le_refl _) hrange (.nil _ _) hends
        (fun p => iff_of_false (hasByte_nil p) fun hp => ?_) fun p hp hlt => ?_
      · have hlt := hp.2.2
        omega
      · omega
  · next hafter =>
    refine ⟨.nil _ _, fun {p} => iff_of_false (hasByte_nil p) fun hp => ?_, suffix_refl _,
      fun _ => Iff.rfl⟩
    have hlt := hp.1.2
    rcases hasByte_cons.mp hp.2 with hhas | hhas
    · have hle := hhas.1
      omega
    · have hle := hparents.le_of_hasByte hhas
      omega

/-- **The parent ranges over one gap.** -/
theorem intersectRange_spec {range parent : Range} {parents : List Range}
    (hparents : RangesApart (parent :: parents)) (hrange : range.startByte ≤ range.endByte) :
    Walked (parent :: parents) range.startByte range.endByte range.Has
      (intersectRange range parent parents) := by
  induction parents generalizing range parent with
  | nil => exact intersectRange_step hparents hrange fun _ _ next rest h => by cases h
  | cons next parents ih =>
    refine intersectRange_step hparents hrange fun range' hrange' other rest h => ?_
    cases h
    exact ih hparents.tail hrange'

/-! ### The gaps of a node -/

/-- The ranges are in order behind a position. Where the last one ends does not matter. -/
def ExcludedFrom : Nat → List Range → Prop
  | _, [] => True
  | start, range :: ranges =>
    start ≤ range.startByte ∧ (ranges ≠ [] → range.startByte ≤ range.endByte) ∧
      ExcludedFrom range.endByte ranges

/-- The byte is between two of the ranges, or in front of the first one. -/
def InGap : Nat → List Range → Nat → Prop
  | _, [], _ => False
  | start, range :: ranges, p => start ≤ p ∧ p < range.startByte ∨ InGap range.endByte ranges p

def lastGapEnd : Nat → List Range → Nat
  | start, [] => start
  | _, [range] => range.startByte
  | _, range :: next :: ranges => lastGapEnd range.endByte (next :: ranges)

theorem ExcludedFrom.le_lastGapEnd {start : Nat}
    (h : ExcludedFrom start ranges) : start ≤ lastGapEnd start ranges := by
  induction ranges generalizing start with
  | nil => exact le_refl _
  | cons range ranges ih =>
    obtain ⟨hstart, hrange, hrest⟩ := h
    cases ranges with
    | nil => exact hstart
    | cons next rest =>
      exact (hstart.trans (hrange (cons_ne_nil _ _))).trans (ih hrest)

theorem InGap.between {start : Nat}
    (hranges : ExcludedFrom start ranges) (h : InGap start ranges p) :
    start ≤ p ∧ p < lastGapEnd start ranges := by
  induction ranges generalizing start with
  | nil => exact h.elim
  | cons range ranges ih =>
    obtain ⟨hstart, hrange, hrest⟩ := hranges
    cases ranges with
    | nil => exact h.resolve_right id
    | cons next rest =>
      have hle := hrest.le_lastGapEnd
      have hrange' := hrange (cons_ne_nil _ _)
      rcases h with h | h
      · exact ⟨h.1, (h.2.trans_le hrange').trans_le hle⟩
      · have hbetween := ih hrest h
        exact ⟨(hstart.trans hrange').trans hbetween.1, hbetween.2⟩

theorem Walked.of_none {parents : List Range} {start stop stop' : Nat}
    (h : Walked parents start stop wanted result)
    (hresult : result.2 = none) (hle : stop ≤ stop')
    (hwanted : ∀ p, p < stop → (wanted' p ↔ wanted p)) :
    Walked parents start stop' wanted' result := by
  have hempty {p : Nat} (hp : stop ≤ p) : ¬ HasByte parents p := by
    rw [← h.behind hp, hresult]
    exact hasByte_nil p
  refine ⟨h.parts.mono (le_refl _) hle, fun {p} => ?_, h.suffix, fun hp => h.behind (hle.trans hp)⟩
  rw [h.hasByte]
  refine and_congr_left fun hhas => ?_
  rcases Nat.lt_or_ge p stop with hlt | hge
  · exact (hwanted p hlt).symm
  · exact absurd hhas (hempty hge)

theorem Walked.append {parents : List Range} {start middle' stop : Nat} {left : Range × List Range}
    (h : Walked parents start middle wanted (parts, some left))
    (h' : Walked (left.1 :: left.2) middle' stop wanted' result) (hstart : start ≤ middle)
    (hmiddle : middle ≤ middle') (hstop : middle' ≤ stop) (hwanted : ∀ p, wanted' p → middle ≤ p) :
    Walked parents start stop (fun p => wanted p ∨ wanted' p) (parts ++ result.1, result.2) := by
  refine ⟨h.parts.append (h'.parts.mono hmiddle (le_refl _)) hstart (hmiddle.trans hstop),
    fun {p} => ?_, h'.suffix.trans h.suffix, fun {p} hp => ?_⟩
  · rw [hasByte_append, h.hasByte, h'.hasByte, or_and_right]
    refine or_congr_right (and_congr_right fun hp => ?_)
    exact h.behind (hwanted p hp)
  · rw [h'.behind hp]
    exact h.behind ((hmiddle.trans hstop).trans hp)

/-- **The parent ranges over the gaps of a node.** -/
theorem intersectBetween_spec {preceding parent : Range} {parents excluded : List Range}
    (hparents : RangesApart (parent :: parents)) (hexcluded : ExcludedFrom preceding.endByte excluded) :
    Walked (parent :: parents) preceding.endByte (lastGapEnd preceding.endByte excluded)
      (InGap preceding.endByte excluded)
      (intersectBetween preceding parent parents excluded) := by
  induction excluded generalizing preceding parent parents with
  | nil =>
    exact ⟨.nil _ _, fun {p} => iff_of_false (hasByte_nil p) fun hp => hp.1, suffix_refl _,
      fun _ => Iff.rfl⟩
  | cons range ranges ih =>
    obtain ⟨hstart, hrange, hrest⟩ := hexcluded
    have hgap := @intersectRange_spec ⟨preceding.endByte, range.startByte, preceding.endPoint,
      range.startPoint⟩ parent parents hparents hstart
    have heq : intersectBetween preceding parent parents (range :: ranges) =
        (intersectRange ⟨preceding.endByte, range.startByte, preceding.endPoint,
          range.startPoint⟩ parent parents).2.elim
          ((intersectRange ⟨preceding.endByte, range.startByte, preceding.endPoint,
            range.startPoint⟩ parent parents).1, none)
          fun left =>
            ((intersectRange ⟨preceding.endByte, range.startByte, preceding.endPoint,
              range.startPoint⟩ parent parents).1 ++
                (intersectBetween range left.1 left.2 ranges).1,
              (intersectBetween range left.1 left.2 ranges).2) := by
      rw [intersectBetween]
      split
      · next hskip =>
        have hnot : ¬ parent.startByte ≤ range.startByte := not_le.mpr hskip
        rw [intersectRange_eq, if_neg hnot]
        rfl
      · rcases intersectRange ⟨preceding.endByte, range.startByte, preceding.endPoint,
          range.startPoint⟩ parent parents with ⟨parts, _ | left⟩ <;> rfl
    rw [heq]
    rcases hresult : intersectRange ⟨preceding.endByte, range.startByte, preceding.endPoint,
      range.startPoint⟩ parent parents with ⟨parts, _ | left⟩
    · rw [hresult] at hgap
      have hle : range.startByte ≤ lastGapEnd preceding.endByte (range :: ranges) := by
        cases ranges with
        | nil => exact le_refl _
        | cons next rest => exact (hrange (cons_ne_nil _ _)).trans hrest.le_lastGapEnd
      refine hgap.of_none rfl hle fun p hp => or_iff_left fun hlater => ?_
      cases ranges with
      | nil => exact hlater
      | cons next rest =>
        have hfrom := (hlater.between hrest).1
        have hrange' := hrange (cons_ne_nil _ _)
        dsimp only at hp
        omega
    · rw [hresult] at hgap
      cases ranges with
      | nil =>
        rw [lastGapEnd, Option.elim_some, intersectBetween, append_nil]
        exact ⟨hgap.parts, fun {p} => hgap.hasByte.trans (and_congr_left fun _ =>
          (or_iff_left id).symm), hgap.suffix, hgap.behind⟩
      | cons next rest =>
        exact hgap.append (ih (hparents.suffix hgap.suffix) hrest) hstart
          (hrange (cons_ne_nil _ _)) hrest.le_lastGapEnd
          fun p hp => (hrange (cons_ne_nil _ _)).trans (hp.between hrest).1

/-! ### The nodes -/

/-- The children of the node are sorted and disjoint, and lie in it. -/
def Node.WellFormed (node : Node) : Prop :=
  node.range.startByte ≤ node.range.endByte ∧ RangesApart node.children ∧
    ∀ child ∈ node.children,
      node.range.startByte ≤ child.startByte ∧ child.endByte ≤ node.range.endByte

/-- The bytes of a node that are injected. -/
def Node.Injects (includesChildren : Bool) (node : Node) (p : Nat) : Prop :=
  node.range.Has p ∧ (includesChildren = false → ¬ HasByte node.children p)

/-- What is left out of a node: its children, and what follows it. -/
def Node.excluded (includesChildren : Bool) (node : Node) : List Range :=
  (if includesChildren then [] else node.children) ++
    [⟨node.range.endByte, usizeMax, node.range.endPoint, ⟨usizeMax, usizeMax⟩⟩]

theorem excludedFrom_append {start : Nat} {children : List Range} {following : Range}
    (hchildren : RangesApart children)
    (hinside : ∀ child ∈ children, start ≤ child.startByte ∧ child.endByte ≤ following.startByte)
    (hstart : start ≤ following.startByte) :
    ExcludedFrom start (children ++ [following]) ∧
      lastGapEnd start (children ++ [following]) = following.startByte ∧
      ∀ p, InGap start (children ++ [following]) p ↔
        (start ≤ p ∧ p < following.startByte) ∧ ¬ HasByte children p := by
  induction children generalizing start with
  | nil =>
    refine ⟨⟨hstart, fun h => absurd rfl h, trivial⟩, rfl, fun p => ?_⟩
    rw [and_iff_left (hasByte_nil p)]
    exact or_iff_left id
  | cons child children ih =>
    obtain ⟨hchildStart, hchildEnd⟩ := hinside child (mem_cons_self ..)
    have hchild := hchildren.1 child (mem_cons_self ..)
    have hbehind := (pairwise_cons.mp hchildren.2).1
    obtain ⟨hexcluded, hlast, hgaps⟩ := ih hchildren.tail
      (fun other hother =>
        ⟨hbehind other hother, (hinside other (mem_cons_of_mem _ hother)).2⟩) hchildEnd
    refine ⟨⟨hchildStart, fun _ => hchild, hexcluded⟩, ?_, fun p => ?_⟩
    · rw [← hlast]
      cases children <;> rfl
    · have hlater (hp : HasByte children p) : child.endByte ≤ p := hchildren.le_of_hasByte hp
      rw [cons_append, InGap, hgaps, hasByte_cons, Range.Has]
      constructor
      · rintro (hp | ⟨hp, hnot⟩)
        · refine ⟨⟨hp.1, by omega⟩, fun hhas => ?_⟩
          rcases hhas with hhas | hhas
          · omega
          · have hle := hlater hhas
            omega
        · exact ⟨⟨by omega, hp.2⟩, fun hhas => hhas.elim (fun hhere => by omega) hnot⟩
      · rintro ⟨hp, hnot⟩
        rcases Nat.lt_or_ge p child.startByte with hlt | hge
        · exact .inl ⟨hp.1, hlt⟩
        · refine .inr ⟨⟨?_, hp.2⟩, fun hhas => hnot (.inr hhas)⟩
          by_contra hlt
          exact hnot (.inl ⟨hge, by omega⟩)

/-- **The parent ranges over a node.** -/
theorem intersectBetween_node {parents : List Range} {node : Node}
    (hparents : RangesApart (parent :: parents)) (hnode : node.WellFormed) (includesChildren : Bool) :
    Walked (parent :: parents) node.range.startByte node.range.endByte
      (node.Injects includesChildren)
      (intersectBetween ⟨0, node.range.startByte, ⟨0, 0⟩, node.range.startPoint⟩ parent parents
        (node.excluded includesChildren)) := by
  obtain ⟨hrange, hchildren, hinside⟩ := hnode
  have hleftOut : RangesApart (if includesChildren then [] else node.children) ∧
      ∀ child ∈ (if includesChildren then [] else node.children),
        node.range.startByte ≤ child.startByte ∧ child.endByte ≤ node.range.endByte := by
    cases includesChildren with
    | true => exact ⟨⟨fun _ h => absurd h not_mem_nil, .nil⟩, fun _ h => absurd h not_mem_nil⟩
    | false => exact ⟨hchildren, hinside⟩
  obtain ⟨hexcluded, hlast, hgaps⟩ := @excludedFrom_append node.range.startByte _
    ⟨node.range.endByte, usizeMax, node.range.endPoint, ⟨usizeMax, usizeMax⟩⟩ hleftOut.1 hleftOut.2
    hrange
  have hwalked := @intersectBetween_spec ⟨0, node.range.startByte, ⟨0, 0⟩, node.range.startPoint⟩
    parent parents (node.excluded includesChildren) hparents hexcluded
  rw [Node.excluded, hlast, ← Node.excluded] at hwalked
  refine ⟨hwalked.parts, fun {p} => hwalked.hasByte.trans (and_congr_left fun _ => ?_),
    hwalked.suffix, hwalked.behind⟩
  rw [Node.excluded, hgaps, Node.Injects, Range.Has]
  cases includesChildren with
  | true => simp [hasByte_nil]
  | false => simp

theorem intersectNodes_cons (includesChildren : Bool) (parent : Range) (parents : List Range)
    (node : Node) (nodes : List Node) (hresult : intersectBetween ⟨0, node.range.startByte, ⟨0,
      0⟩, node.range.startPoint⟩ parent parents (node.excluded includesChildren) = result) :
    intersectNodes includesChildren parent parents (node :: nodes) =
      result.1 ++ result.2.elim [] fun left =>
        intersectNodes includesChildren left.1 left.2 nodes := by
  rw [Node.excluded] at hresult
  rw [intersectNodes, hresult]
  obtain ⟨parts, _ | left⟩ := result
  · exact (append_nil parts).symm
  · rfl

/-- **All nodes**, from the parent ranges that are left for the first one. -/
theorem intersectNodes_spec {parents : List Range} {nodes : List Node}
    (hparents : RangesApart (parent :: parents)) (hnodes : ∀ node ∈ nodes, node.WellFormed)
    (hsorted : nodes.Pairwise fun node next => node.range.endByte ≤ next.range.startByte)
    (includesChildren : Bool) {start : Nat}
    (hstart : ∀ node ∈ nodes, start ≤ node.range.startByte) :
    (∀ range ∈ intersectNodes includesChildren parent parents nodes,
      range.startByte < range.endByte ∧ start ≤ range.startByte) ∧
    (intersectNodes includesChildren parent parents nodes).Pairwise
      (fun range next => range.endByte ≤ next.startByte) ∧
    ∀ p, HasByte (intersectNodes includesChildren parent parents nodes) p ↔
      HasByte (parent :: parents) p ∧ ∃ node ∈ nodes, node.Injects includesChildren p := by
  induction nodes generalizing parent parents start with
  | nil =>
    refine ⟨fun range hrange => absurd hrange not_mem_nil, .nil, fun p => ?_⟩
    refine iff_of_false (hasByte_nil p) fun hp => ?_
    obtain ⟨-, node, hnode, -⟩ := hp
    exact absurd hnode not_mem_nil
  | cons node nodes ih =>
    have hwalked := intersectBetween_node hparents (hnodes node (mem_cons_self ..))
      includesChildren
    generalize hresult : intersectBetween ⟨0, node.range.startByte, ⟨0, 0⟩,
      node.range.startPoint⟩ parent parents (node.excluded includesChildren) = result at hwalked
    rw [intersectNodes_cons includesChildren parent parents node nodes hresult]
    have hnode := hnodes node (mem_cons_self ..)
    have hnodeStart := hstart node (mem_cons_self ..)
    have hbehind := (pairwise_cons.mp hsorted).1
    -- The bytes of later nodes are behind this one.
    have hlater {p : Nat} : (∃ other ∈ nodes, other.Injects includesChildren p) →
        node.range.endByte ≤ p := by
      rintro ⟨other, hother, hinjects⟩
      exact (hbehind other hother).trans hinjects.1.1
    have hwanted (p : Nat) : (HasByte (parent :: parents) p ∧
        ∃ other ∈ node :: nodes, other.Injects includesChildren p) ↔
        HasByte result.1 p ∨ HasByte (parentsLeft result.2) p ∧
          ∃ other ∈ nodes, other.Injects includesChildren p := by
      rw [exists_mem_cons_iff, and_or_left, hwalked.hasByte, and_comm]
      exact or_congr_right (and_congr_left fun hp => (hwalked.behind (hlater hp)).symm)
    have hparts := hwalked.parts
    obtain ⟨parts, _ | ⟨next, rest⟩⟩ := result
    · rw [Option.elim_none, append_nil]
      refine ⟨fun range hrange => ⟨hparts.nonempty hrange,
        hnodeStart.trans (hparts.between hrange).1⟩, hparts.sorted, fun p => ?_⟩
      rw [hwanted, or_iff_left]
      exact fun hp => hasByte_nil p hp.1
    · obtain ⟨hmore, hmoreSorted, hmoreHas⟩ := ih (hparents.suffix hwalked.suffix)
        (fun other hother => hnodes other (mem_cons_of_mem _ hother))
        (pairwise_cons.mp hsorted).2 hbehind
      rw [Option.elim_some]
      refine ⟨fun range hrange => ?_, pairwise_append.mpr
        ⟨hparts.sorted, hmoreSorted, fun range hrange other hother => ?_⟩, fun p => ?_⟩
      · rcases mem_append.mp hrange with hrange | hrange
        · exact ⟨hparts.nonempty hrange, hnodeStart.trans (hparts.between hrange).1⟩
        · exact ⟨(hmore range hrange).1, (hnodeStart.trans hnode.1).trans (hmore range hrange).2⟩
      · exact (hparts.between hrange).2.trans (hmore other hother).2
      · rw [hasByte_append, hmoreHas, hwanted]
        rfl

/-- **The ranges of an injection.** For some parent ranges that are sorted and disjoint, and some
nodes that are, the result is sorted and disjoint ranges that are not empty. They have exactly the bytes that
some parent range and some node have, without those of the node's children unless these are
included. -/
theorem intersectRanges_spec (parentRanges : List Range) (nodes : List Node)
    (includesChildren : Bool) (hne : parentRanges ≠ []) (hparents : RangesApart parentRanges)
    (hnode : nodes ≠ []) (hnodes : ∀ node ∈ nodes, node.WellFormed)
    (hsorted : nodes.Pairwise fun node next => node.range.endByte ≤ next.range.startByte) :
    ∃ result, intersectRanges parentRanges nodes includesChildren = some result ∧
      (∀ range ∈ result, range.startByte < range.endByte) ∧
      result.Pairwise (fun range next => range.endByte ≤ next.startByte) ∧
      ∀ p, HasByte result p ↔ HasByte parentRanges p ∧
        ∃ node ∈ nodes, node.range.Has p ∧
          (includesChildren = false → ¬ HasByte node.children p) := by
  obtain ⟨parent, parents, rfl⟩ := exists_cons_of_ne_nil hne
  obtain ⟨node, nodes, rfl⟩ := exists_cons_of_ne_nil hnode
  obtain ⟨hnonempty, hresult, hhas⟩ := intersectNodes_spec hparents hnodes hsorted includesChildren
    (fun node _ => Nat.zero_le node.range.startByte)
  exact ⟨_, rfl, fun range hrange => (hnonempty range hrange).1, hresult, hhas⟩

def lineRange (startByte endByte : Nat) : Range :=
  ⟨startByte, endByte, ⟨0, startByte⟩, ⟨0, endByte⟩⟩

/-- A node of twelve bytes with a child in its middle, and two parent ranges that meet its halves. -/
theorem intersectRanges_spec_split :
    ∃ result, intersectRanges [lineRange 0 5, lineRange 10 20]
        [⟨1, lineRange 2 14, [lineRange 4 11]⟩] false = some result ∧
      (∀ range ∈ result, range.startByte < range.endByte) ∧
      result.Pairwise (fun range next => range.endByte ≤ next.startByte) ∧
      ∀ p, HasByte result p ↔ HasByte [lineRange 0 5, lineRange 10 20] p ∧
        ∃ node ∈ [(⟨1, lineRange 2 14, [lineRange 4 11]⟩ : Node)], node.range.Has p ∧
          (false = false → ¬ HasByte node.children p) := by
  refine intersectRanges_spec _ _ false (cons_ne_nil _ _) ⟨by decide, by decide⟩ (cons_ne_nil _ _)
    (fun node hnode => ?_) (by decide)
  rw [mem_singleton.mp hnode]
  exact ⟨by decide, ⟨by decide, by decide⟩, by decide⟩

example : intersectRanges [lineRange 0 5, lineRange 10 20]
    [⟨1, lineRange 2 14, [lineRange 4 11]⟩] false = some [lineRange 2 4, lineRange 11 14] := by
  decide

end TreeSitter.Highlighter
