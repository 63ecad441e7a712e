import TreeSitter.Generate.CharacterSet
import TreeSitter.Library.BinarySearch

/-!
# TreeSitter.Generate.CharacterSetOps

The **set operations** of `CharacterSet`: union (`add`), complement (`negate`),
the two-pointer `remove_intersection` with `difference`, the range test
`contains_codepoint_range` and the lossy `simplify_ignoring`.

Each one is the loop of the source over the raw ranges, followed by what it
denotes on canonical ranges (`covers_*`) and that it keeps them canonical
(`*_sorted`).
-/

namespace TreeSitter.Generate

/-! ### Complement -/

/-- The loop of `negate` over the remaining ranges, with `previous_end`. -/
def negateGo (previousEnd : Nat) : List CodeRange → List CodeRange
  | [] => if previousEnd < endCodePoint then [⟨previousEnd, endCodePoint⟩] else []
  | r :: rs =>
    if previousEnd < r.start then ⟨previousEnd, r.start⟩ :: negateGo r.stop rs
    else negateGo r.stop rs

theorem negateGo_sorted : ∀ {p : Nat} {rs : List CodeRange}, SortedFrom p rs →
    SortedFrom p (negateGo p rs)
  | p, [], _ => by
    unfold negateGo
    split
    · exact ⟨le_rfl, ‹_›, le_rfl, trivial⟩
    · trivial
  | p, r :: rs, hs => by
    obtain ⟨h1, h2, h3, h4⟩ := hs
    have ih : SortedFrom (r.stop) (negateGo r.stop rs) := negateGo_sorted (h4.mono (by omega))
    unfold negateGo
    split
    · exact ⟨le_rfl, ‹_›, by dsimp only; omega, ih.mono (by dsimp only; omega)⟩
    · exact ih.mono (by omega)

theorem covers_negateGo (c : Nat) : ∀ {p : Nat} {rs : List CodeRange}, SortedFrom p rs →
    (Covers (negateGo p rs) c ↔ p ≤ c ∧ c < endCodePoint ∧ ¬ Covers rs c)
  | p, [], _ => by
    unfold negateGo
    split
    · simp
    · simp only [covers_nil, not_false_eq_true, and_true, false_iff]
      omega
  | p, r :: rs, hs => by
    obtain ⟨h1, h2, h3, h4⟩ := hs
    have ih := covers_negateGo c (h4.mono (Nat.le_succ r.stop))
    have hlow : Covers rs c → r.stop + 1 ≤ c := h4.le_of_covers
    unfold negateGo
    split
    · rw [covers_cons, covers_cons, ih]
      simp only [CodeRange.Has]
      by_cases hc : Covers rs c
      · have := hlow hc
        simp only [hc, not_true_eq_false, and_false, or_false, or_true, iff_false]
        omega
      · simp only [hc, not_false_eq_true, and_true, or_false]
        omega
    · rw [covers_cons, ih]
      simp only [CodeRange.Has]
      by_cases hc : Covers rs c
      · simp [hc]
      · simp only [hc, not_false_eq_true, and_true, or_false]
        omega

/-! ### The two-pointer intersection -/

/-- What `remove_intersection` leaves: the left operand, the right operand and
the returned intersection. -/
structure Split where
  left : List CodeRange
  right : List CodeRange
  both : List CodeRange
  deriving Repr, DecidableEq

namespace Split

/-- A range of the left operand is final. -/
def consLeft (r : CodeRange) (s : Split) : Split := { s with left := r :: s.left }

/-- A range of the right operand is final. -/
def consRight (r : CodeRange) (s : Split) : Split := { s with right := r :: s.right }

/-- `intersection.push`. -/
def consBoth (r : CodeRange) (s : Split) : Split := { s with both := r :: s.both }

end Split

/-- `remove_intersection` over the ranges at and after its two indices. A range
that an index moves past is final and is emitted; a range that is split or
shortened stays under its index. -/
def removeIntersection : List CodeRange → List CodeRange → Split
  | [], rs => ⟨[], rs, []⟩
  | l :: ls, [] => ⟨l :: ls, [], []⟩
  | l :: ls, r :: rs =>
    if l.start < r.start then
      -- [ L ]
      --     [ R ]
      if l.stop ≤ r.start then (removeIntersection ls (r :: rs)).consLeft l
      -- [ L ]
      --   [ R ]
      else if l.stop < r.stop then
        ((removeIntersection ls (⟨l.stop, r.stop⟩ :: rs)).consLeft ⟨l.start, r.start⟩).consBoth
          ⟨r.start, l.stop⟩
      -- [  L  ]
      --   [ R ]
      else if l.stop = r.stop then
        (removeIntersection (⟨l.start, r.start⟩ :: ls) rs).consBoth r
      -- [   L   ]
      --   [ R ]
      else
        ((removeIntersection (⟨r.stop, l.stop⟩ :: ls) rs).consLeft ⟨l.start, r.start⟩).consBoth r
    else if l.start = r.start then
      -- [ L ]
      -- [  R  ]
      if l.stop < r.stop then
        (removeIntersection ls (⟨l.stop, r.stop⟩ :: rs)).consBoth ⟨l.start, l.stop⟩
      -- [ L ]
      -- [ R ]
      else if l.stop = r.stop then (removeIntersection ls rs).consBoth l
      -- [  L  ]
      -- [ R ]
      else (removeIntersection (⟨r.stop, l.stop⟩ :: ls) rs).consBoth r
    else
      --     [ L ]
      -- [ R ]
      if r.stop ≤ l.start then (removeIntersection (l :: ls) rs).consRight r
      --   [ L ]
      -- [   R   ]
      else if l.stop < r.stop then
        ((removeIntersection ls (⟨l.stop, r.stop⟩ :: rs)).consRight ⟨r.start, l.start⟩).consBoth l
      --   [ L ]
      -- [  R  ]
      else if l.stop = r.stop then
        (removeIntersection ls (⟨r.start, l.start⟩ :: rs)).consBoth l
      --   [   L   ]
      -- [   R   ]
      else
        ((removeIntersection (⟨r.stop, l.stop⟩ :: ls) rs).consRight ⟨r.start, l.start⟩).consBoth
          ⟨l.start, r.stop⟩
termination_by ls rs => ls.length + rs.length

attribute [local grind =] covers_cons CodeRange.Has Split.consLeft Split.consRight Split.consBoth

variable {ls rs : List CodeRange} {ranges : List CodeRange} {ruledOut : List CodeRange}

/-- All three results stay canonical, from the bounds of the operands on, and every code point ends
up where it belongs. The proof is one case per branch of the loop; the tails never reach down to the
heads (`hP`, `hQ`), so in each case only the four end points of the heads matter. -/
theorem removeIntersection_spec {a b : Nat} (hl : SortedFrom a ls) (hr : SortedFrom b rs) :
    (SortedFrom a (removeIntersection ls rs).left ∧ SortedFrom b (removeIntersection ls rs).right ∧
      SortedFrom (max a b) (removeIntersection ls rs).both) ∧
    ∀ c, (Covers (removeIntersection ls rs).left c ↔ Covers ls c ∧ ¬ Covers rs c) ∧
      (Covers (removeIntersection ls rs).right c ↔ Covers rs c ∧ ¬ Covers ls c) ∧
      (Covers (removeIntersection ls rs).both c ↔ Covers ls c ∧ Covers rs c) := by
  fun_induction removeIntersection ls rs generalizing a b
  case case1 rs => exact ⟨⟨trivial, hr, trivial⟩, fun c => by simp⟩
  case case2 l ls => exact ⟨⟨hl, trivial, trivial⟩, fun c => by simp⟩
  all_goals
    have ⟨l1, l2, l3, l4⟩ := hl
    have ⟨r1, r2, r3, r4⟩ := hr
  case' case3 ih =>
    obtain ⟨⟨i1, i2, i3⟩, hcovers⟩ := ih l4 hr
    refine ⟨⟨⟨l1, l2, l3, i1⟩, i2, i3.mono (by omega)⟩, fun c => ?_⟩
  case' case4 l ls r rs h1 h2 h3 ih =>
    obtain ⟨⟨i1, i2, i3⟩, hcovers⟩ := ih (b := l.stop) l4 ⟨le_rfl, h3, r3, r4⟩
    refine ⟨⟨⟨l1, h1, by dsimp only; omega, i1.mono (by dsimp only; omega)⟩, i2.mono (by omega),
      ⟨by dsimp only; omega, by dsimp only; omega, l3, i3.mono (by dsimp only; omega)⟩⟩, fun c => ?_⟩
  case' case5 l ls r rs h1 h2 h3 h4 ih =>
    obtain ⟨⟨i1, i2, i3⟩, hcovers⟩ := ih (a := a) ⟨l1, h1, by dsimp only; omega, l4.mono (by dsimp only; omega)⟩ r4
    refine ⟨⟨i1, i2.mono (by omega), ⟨by omega, r2, r3, i3.mono (by omega)⟩⟩, fun c => ?_⟩
  case' case6 l ls r rs h1 h2 h3 h4 ih =>
    obtain ⟨⟨i1, i2, i3⟩, hcovers⟩ := ih (a := r.stop) ⟨le_rfl, by dsimp only; omega, l3, l4⟩ r4
    refine ⟨⟨⟨l1, h1, by dsimp only; omega, i1.mono (by dsimp only; omega)⟩, i2.mono (by omega),
      ⟨by omega, r2, r3, i3.mono (by omega)⟩⟩, fun c => ?_⟩
  case' case7 l ls r rs h1 h2 h3 ih =>
    obtain ⟨⟨i1, i2, i3⟩, hcovers⟩ := ih (b := l.stop) l4 ⟨le_rfl, h3, r3, r4⟩
    refine ⟨⟨i1.mono (by omega), i2.mono (by omega),
      ⟨by dsimp only; omega, l2, l3, i3.mono (by dsimp only; omega)⟩⟩, fun c => ?_⟩
  case' case8 ih =>
    obtain ⟨⟨i1, i2, i3⟩, hcovers⟩ := ih l4 r4
    refine ⟨⟨i1.mono (by omega), i2.mono (by omega), ⟨by omega, l2, l3, i3.mono (by omega)⟩⟩, fun c => ?_⟩
  case' case9 l ls r rs h1 h2 h3 h4 ih =>
    obtain ⟨⟨i1, i2, i3⟩, hcovers⟩ := ih (a := r.stop) ⟨le_rfl, by dsimp only; omega, l3, l4⟩ r4
    refine ⟨⟨i1.mono (by omega), i2.mono (by omega), ⟨by omega, r2, r3, i3.mono (by omega)⟩⟩, fun c => ?_⟩
  case' case10 ih =>
    obtain ⟨⟨i1, i2, i3⟩, hcovers⟩ := ih hl r4
    refine ⟨⟨i1, ⟨r1, r2, r3, i2⟩, i3.mono (by omega)⟩, fun c => ?_⟩
  case' case11 l ls r rs h1 h2 h3 h4 ih =>
    obtain ⟨⟨i1, i2, i3⟩, hcovers⟩ := ih (b := l.stop) l4 ⟨le_rfl, h4, r3, r4⟩
    refine ⟨⟨i1.mono (by omega),
      ⟨r1, by dsimp only; omega, by dsimp only; omega, i2.mono (by dsimp only; omega)⟩,
      ⟨by omega, l2, l3, i3.mono (by omega)⟩⟩, fun c => ?_⟩
  case' case12 ih =>
    obtain ⟨⟨i1, i2, i3⟩, hcovers⟩ := ih (b := b) l4
      ⟨r1, by dsimp only; omega, by dsimp only; omega, r4.mono (by dsimp only; omega)⟩
    refine ⟨⟨i1.mono (by omega), i2, ⟨by omega, l2, l3, i3.mono (by omega)⟩⟩, fun c => ?_⟩
  case' case13 l ls r rs h1 h2 h3 h4 h5 ih =>
    obtain ⟨⟨i1, i2, i3⟩, hcovers⟩ := ih (a := r.stop) ⟨le_rfl, by dsimp only; omega, l3, l4⟩ r4
    refine ⟨⟨i1.mono (by omega),
      ⟨r1, by dsimp only; omega, by dsimp only; omega, i2.mono (by dsimp only; omega)⟩,
      ⟨by dsimp only; omega, by dsimp only; omega, by dsimp only; omega,
        i3.mono (by dsimp only; omega)⟩⟩, fun c => ?_⟩
  -- what is left is which of the four end points the code point is between
  all_goals
    have hP := l4.le_of_covers (c := c)
    have hQ := r4.le_of_covers (c := c)
    have := hcovers c
    clear ih hcovers hl hr l4 r4 i1 i2 i3
    grind

theorem removeIntersection_sorted {a b : Nat} (hl : SortedFrom a ls) (hr : SortedFrom b rs) :
    SortedFrom a (removeIntersection ls rs).left ∧
      SortedFrom b (removeIntersection ls rs).right ∧
      SortedFrom (max a b) (removeIntersection ls rs).both :=
  (removeIntersection_spec hl hr).1

theorem covers_removeIntersection {a b : Nat} (c : Nat)
    (hl : SortedFrom a ls) (hr : SortedFrom b rs) :
    (Covers (removeIntersection ls rs).left c ↔ Covers ls c ∧ ¬ Covers rs c) ∧
      (Covers (removeIntersection ls rs).right c ↔ Covers rs c ∧ ¬ Covers ls c) ∧
      (Covers (removeIntersection ls rs).both c ↔ Covers ls c ∧ Covers rs c) :=
  (removeIntersection_spec hl hr).2 c

/-! ### Union -/

/-- The loop of `add`: every range of the other set is added from the index of
the one before it on. -/
def addAll : List CodeRange → Nat → List CodeRange → List CodeRange
  | acc, _, [] => acc
  | acc, i, r :: rs =>
    addAll (addIntRange acc i r.start r.stop).1 (addIntRange acc i r.start r.stop).2 rs

theorem addAll_spec {lo i : Nat} {acc rs : List CodeRange} (hacc : SortedFrom 0 acc)
    (hi : i ≤ acc.length) (hbefore : ∀ q ∈ acc.take i, q.stop < lo) (hrs : SortedFrom lo rs) :
    SortedFrom 0 (addAll acc i rs) ∧
      ∀ c, Covers (addAll acc i rs) c ↔ Covers acc c ∨ Covers rs c := by
  induction rs generalizing lo i acc with
  | nil => exact ⟨hacc, fun c => by simp [addAll]⟩
  | cons r rest ih =>
    obtain ⟨h1, h2, h3, h4⟩ := hrs
    have hbefore' : ∀ q ∈ acc.take i, q.stop < r.start :=
      fun q hq => lt_of_lt_of_le (hbefore q hq) h1
    have hsorted := addIntRange_sorted h2 h3 hacc hbefore'
    have hbefore'' : ∀ q ∈ (addIntRange acc i r.start r.stop).1.take
        (addIntRange acc i r.start r.stop).2, q.stop < r.stop + 1 :=
      fun q hq => by have := addIntRange_before hi hbefore' hq; omega
    obtain ⟨g1, g2⟩ := ih hsorted (addIntRange_index_le hi) hbefore'' h4
    refine ⟨g1, fun c => ?_⟩
    rw [addAll, g2, covers_addIntRange h2 hacc, covers_cons]
    simp only [CodeRange.Has]
    tauto

/-! ### Range containment -/

/-- The comparison `contains_codepoint_range` searches with: where a range lies
relative to the first code point of the sought one. -/
def compareToStart (seek probe : CodeRange) : Ordering :=
  if probe.stop ≤ seek.start then .lt
  else if seek.start < probe.start then .gt
  else .eq

/-- `contains_codepoint_range`. -/
def containsCodepointRange (ranges : List CodeRange) (seek : CodeRange) : Bool :=
  let ix := Library.searchIndex (Library.binarySearchBy (compareToStart seek) ranges)
  ranges[ix]?.any fun range => range.start ≤ seek.start ∧ seek.stop ≤ range.stop

/-- Any range is sought for by its first code point too, even if it is empty. -/
theorem containsCodepointRange_eq {lo : Nat} {seek : CodeRange} (hs : SortedFrom lo ranges) :
    containsCodepointRange ranges seek = true ↔
      Covers ranges seek.start ∧ ∀ c, seek.Has c → Covers ranges c := by
  induction ranges generalizing lo with
  | nil => simp [containsCodepointRange]
  | cons r rs ih =>
    obtain ⟨-, h2, -, h4⟩ := hs
    have hlow : ∀ c, Covers rs c → r.stop + 1 ≤ c := fun c => h4.le_of_covers
    by_cases hlt : r.stop ≤ seek.start
    · -- the search moves past `r`, which holds no code point of `seek`
      have hstep : containsCodepointRange (r :: rs) seek = containsCodepointRange rs seek := by
        simp only [containsCodepointRange]
        rw [Library.searchIndex_cons_of_lt (by simp [compareToStart, hlt]), List.getElem?_cons_succ]
      have hnot : ∀ c, seek.start ≤ c → ¬ r.Has c := fun c hc hr => by have := hr.2; omega
      rw [hstep, ih h4, covers_cons, or_iff_right (hnot _ le_rfl)]
      refine and_congr_right fun _ => forall₂_congr fun c hc => ?_
      rw [covers_cons, or_iff_right (hnot c hc.1)]
    · have hix : Library.searchIndex
          (Library.binarySearchBy (compareToStart seek) (r :: rs)) = 0 :=
        Library.searchIndex_cons_of_ne_lt (by unfold compareToStart; grind)
      simp only [containsCodepointRange, hix, List.getElem?_cons_zero, Option.any_some,
        decide_eq_true_eq]
      constructor
      · rintro ⟨hstart, hstop⟩
        refine ⟨(covers_cons r rs _).mpr (Or.inl ⟨hstart, by omega⟩), fun c hc => ?_⟩
        exact (covers_cons r rs c).mpr (Or.inl ⟨hstart.trans hc.1, lt_of_lt_of_le hc.2 hstop⟩)
      · rintro ⟨hfirst, hall⟩
        have hstart : r.start ≤ seek.start := by
          rcases (covers_cons r rs _).mp hfirst with h | h
          · exact h.1
          · have := hlow _ h; omega
        refine ⟨hstart, ?_⟩
        -- otherwise the code point right after `r` would have to be covered
        by_contra hstop
        rcases (covers_cons r rs r.stop).mp (hall r.stop ⟨by omega, by omega⟩) with h | h
        · have := h.2; omega
        · have := hlow _ h; omega

theorem containsCodepointRange_iff {lo : Nat} {seek : CodeRange}
    (hs : SortedFrom lo ranges) (hne : seek.start < seek.stop) :
    containsCodepointRange ranges seek = true ↔ ∀ c, seek.Has c → Covers ranges c := by
  rw [containsCodepointRange_eq hs]
  exact and_iff_right_of_imp fun hall => hall _ ⟨le_rfl, hne⟩

/-! ### Simplification up to ruled-out characters -/

/-- The loop of `simplify_ignoring`: `prev` is the range that is still growing. -/
def simplifyGo (ruledOut : List CodeRange) : Option CodeRange → List CodeRange → List CodeRange
  | prev, [] => prev.toList
  | prev, r :: rs =>
    if containsCodepointRange ruledOut r then simplifyGo ruledOut prev rs
    else
      match prev with
      | some p =>
        if containsCodepointRange ruledOut ⟨p.stop, r.start⟩ then
          simplifyGo ruledOut (some ⟨p.start, r.stop⟩) rs
        else p :: simplifyGo ruledOut (some r) rs
      | none => simplifyGo ruledOut (some r) rs

/-- With a growing range `p`: nothing but ruled-out characters changes. -/
theorem simplifyGo_some (hro : SortedFrom 0 ruledOut) :
    ∀ {rs : List CodeRange} {lo : Nat} {p : CodeRange}, SortedFrom lo (p :: rs) →
      SortedFrom lo (simplifyGo ruledOut (some p) rs) ∧
      ∀ c, ¬ Covers ruledOut c →
        (Covers (simplifyGo ruledOut (some p) rs) c ↔ Covers (p :: rs) c)
  | [], lo, p, hs => ⟨⟨hs.1, hs.2.1, hs.2.2.1, trivial⟩, fun c _ => by simp [simplifyGo]⟩
  | r :: rs, lo, p, hs => by
    obtain ⟨p1, p2, p3, r1, r2, r3, r4⟩ := hs
    unfold simplifyGo
    by_cases hskip : containsCodepointRange ruledOut r = true
    · rw [if_pos hskip]
      have hcov := (containsCodepointRange_iff hro r2).mp hskip
      have hp : SortedFrom lo (p :: rs) := ⟨p1, p2, p3, r4.mono (by omega)⟩
      obtain ⟨h1, h2⟩ := simplifyGo_some hro hp
      refine ⟨h1, fun c hc => ?_⟩
      have : ¬ r.Has c := fun h => hc (hcov c h)
      simp [h2 c hc, this]
    · rw [if_neg hskip]
      by_cases hgap : containsCodepointRange ruledOut ⟨p.stop, r.start⟩ = true
      · simp only [if_pos hgap]
        have hne : (CodeRange.mk p.stop r.start).start < r.start := by
          dsimp only
          omega
        have hcov := (containsCodepointRange_iff hro hne).mp hgap
        have hp : SortedFrom lo (⟨p.start, r.stop⟩ :: rs) :=
          ⟨p1, by dsimp only; omega, r3, r4⟩
        obtain ⟨h1, h2⟩ := simplifyGo_some hro hp
        refine ⟨h1, fun c hc => ?_⟩
        have hout : ¬ (p.stop ≤ c ∧ c < r.start) := fun h => hc (hcov c h)
        rw [h2 c hc]
        simp only [covers_cons, CodeRange.Has, ← or_assoc]
        refine or_congr_left ?_
        omega
      · simp only [if_neg hgap]
        have hr : SortedFrom (p.stop + 1) (r :: rs) := ⟨r1, r2, r3, r4⟩
        obtain ⟨h1, h2⟩ := simplifyGo_some hro hr
        exact ⟨⟨p1, p2, p3, h1⟩, fun c hc => by simp [h2 c hc]⟩

theorem simplifyGo_none (hro : SortedFrom 0 ruledOut) :
    ∀ {rs : List CodeRange} {lo : Nat}, SortedFrom lo rs →
      SortedFrom lo (simplifyGo ruledOut none rs) ∧
      ∀ c, ¬ Covers ruledOut c →
        (Covers (simplifyGo ruledOut none rs) c ↔ Covers rs c)
  | [], lo, hs => ⟨trivial, fun c _ => by simp [simplifyGo]⟩
  | r :: rs, lo, hs => by
    unfold simplifyGo
    by_cases hskip : containsCodepointRange ruledOut r = true
    · rw [if_pos hskip]
      have hcov := (containsCodepointRange_iff hro hs.2.1).mp hskip
      have hlo : lo ≤ r.stop + 1 := by
        have := hs.1
        have := hs.2.1
        omega
      obtain ⟨h1, h2⟩ := simplifyGo_none hro (hs.2.2.2.mono hlo)
      refine ⟨h1, fun c hc => ?_⟩
      have : ¬ r.Has c := fun h => hc (hcov c h)
      simp [h2 c hc, this]
    · rw [if_neg hskip]
      exact simplifyGo_some hro hs

/-! ### The operations on canonical sets -/

namespace CharacterSet

/-- `CharacterSet::empty`. -/
def empty : CharacterSet := ⟨[], trivial⟩

@[simp] theorem not_mem_empty (c : Nat) : c ∉ empty := covers_nil c

theorem char_lt_end (c : Char) : c.toNat < endCodePoint := by
  have := c.valid
  simp only [UInt32.isValidChar, Nat.isValidChar] at this
  show c.val.toNat < 0x110000
  omega

/-- `CharacterSet::from_char`. -/
def fromChar (c : Char) : CharacterSet :=
  ⟨[⟨c.toNat, c.toNat + 1⟩], Nat.zero_le _, Nat.lt_succ_self _, char_lt_end c, trivial⟩

@[simp] theorem mem_fromChar (c : Char) (x : Nat) : x ∈ fromChar c ↔ x = c.toNat := by
  simp only [mem_iff, fromChar, covers_cons, CodeRange.has_mk, covers_nil, or_false]
  omega

/-- `add_range`: the characters from `first` to `last`, both included. -/
def addRange (cs : CharacterSet) (first last : Char) (h : first ≤ last) : CharacterSet :=
  ⟨(addIntRange cs.ranges 0 first.toNat (last.toNat + 1)).1,
    addIntRange_sorted (Nat.lt_succ_of_le h) (char_lt_end last) cs.canonical (by simp)⟩

@[simp] theorem mem_addRange (cs : CharacterSet) {first last : Char} (h : first ≤ last) (x : Nat) :
    x ∈ cs.addRange first last h ↔ (first.toNat ≤ x ∧ x ≤ last.toNat) ∨ x ∈ cs := by
  have hlt : first.toNat < last.toNat + 1 := Nat.lt_succ_of_le h
  refine (covers_addIntRange hlt cs.canonical x).trans ?_
  rw [Nat.lt_succ_iff]
  rfl

/-- `add_char`. -/
def addChar (cs : CharacterSet) (c : Char) : CharacterSet :=
  ⟨(addIntRange cs.ranges 0 c.toNat (c.toNat + 1)).1,
    addIntRange_sorted (Nat.lt_succ_self _) (char_lt_end c) cs.canonical (by simp)⟩

@[simp] theorem mem_addChar (cs : CharacterSet) (c : Char) (x : Nat) :
    x ∈ cs.addChar c ↔ x = c.toNat ∨ x ∈ cs := by
  rw [mem_iff, addChar, covers_addIntRange (Nat.lt_succ_self _) cs.canonical, ← mem_iff]
  refine or_congr_left ?_
  omega

/-- `add`. -/
def add (cs other : CharacterSet) : CharacterSet :=
  ⟨addAll cs.ranges 0 other.ranges,
    (addAll_spec cs.canonical (Nat.zero_le _) (by simp) other.canonical).1⟩

@[simp] theorem mem_add (cs other : CharacterSet) (x : Nat) :
    x ∈ cs.add other ↔ x ∈ cs ∨ x ∈ other :=
  (addAll_spec cs.canonical (Nat.zero_le _) (by simp) other.canonical).2 x

/-- `negate`. -/
def negate (cs : CharacterSet) : CharacterSet :=
  ⟨negateGo 0 cs.ranges, negateGo_sorted cs.canonical⟩

@[simp] theorem mem_negate (cs : CharacterSet) (x : Nat) :
    x ∈ cs.negate ↔ x < endCodePoint ∧ x ∉ cs := by
  rw [mem_iff, negate, covers_negateGo x cs.canonical]
  simp [mem_iff]

/-- What `self.remove_intersection(&mut other)` leaves in `self`: the value
`self.difference(other)` as well. -/
def difference (cs other : CharacterSet) : CharacterSet :=
  ⟨(removeIntersection cs.ranges other.ranges).left,
    (removeIntersection_sorted cs.canonical other.canonical).1⟩

@[simp] theorem mem_difference (cs other : CharacterSet) (x : Nat) :
    x ∈ cs.difference other ↔ x ∈ cs ∧ x ∉ other :=
  (covers_removeIntersection x cs.canonical other.canonical).1

/-- What `self.remove_intersection(&mut other)` leaves in `other`. -/
def remainder (cs other : CharacterSet) : CharacterSet :=
  ⟨(removeIntersection cs.ranges other.ranges).right,
    (removeIntersection_sorted cs.canonical other.canonical).2.1⟩

@[simp] theorem mem_remainder (cs other : CharacterSet) (x : Nat) :
    x ∈ cs.remainder other ↔ x ∈ other ∧ x ∉ cs :=
  (covers_removeIntersection x cs.canonical other.canonical).2.1

/-- What `self.remove_intersection(&mut other)` returns. -/
def intersection (cs other : CharacterSet) : CharacterSet :=
  ⟨(removeIntersection cs.ranges other.ranges).both,
    (removeIntersection_sorted cs.canonical other.canonical).2.2⟩

@[simp] theorem mem_intersection (cs other : CharacterSet) (x : Nat) :
    x ∈ cs.intersection other ↔ x ∈ cs ∧ x ∈ other :=
  (covers_removeIntersection x cs.canonical other.canonical).2.2

/-- `contains`. -/
def contains (cs : CharacterSet) (c : Char) : Bool :=
  containsCodepointRange cs.ranges ⟨c.toNat, c.toNat + 1⟩

/-- `simplify_ignoring`. -/
def simplifyIgnoring (cs ruledOut : CharacterSet) : CharacterSet :=
  ⟨simplifyGo ruledOut.ranges none cs.ranges, (simplifyGo_none ruledOut.canonical cs.canonical).1⟩

theorem mem_simplifyIgnoring (cs : CharacterSet) {ruledOut : CharacterSet} {x : Nat}
    (hx : x ∉ ruledOut) : x ∈ cs.simplifyIgnoring ruledOut ↔ x ∈ cs :=
  (simplifyGo_none ruledOut.canonical cs.canonical).2 x hx

/-- `range_count`. -/
def rangeCount (cs : CharacterSet) : Nat := cs.ranges.length

/-- `is_empty`. -/
def isEmpty (cs : CharacterSet) : Bool := cs.ranges.isEmpty

theorem isEmpty_iff (cs : CharacterSet) : cs.isEmpty = true ↔ ∀ x, x ∉ cs := by
  obtain ⟨ranges, hc⟩ := cs
  cases ranges with
  | nil => simp [isEmpty, mem_iff]
  | cons r rs =>
    simp only [isEmpty, List.isEmpty_cons, Bool.false_eq_true, false_iff, not_forall, not_not]
    exact ⟨r.start, (covers_cons r rs _).mpr (Or.inl ⟨le_rfl, hc.2.1⟩)⟩

end CharacterSet

end TreeSitter.Generate
