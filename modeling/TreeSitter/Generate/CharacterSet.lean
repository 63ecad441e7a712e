import Mathlib

/-!
# TreeSitter.Generate.CharacterSet

The **character sets** of the lexer generator (`CharacterSet` in `nfa.rs`): a
vector of half-open code-point ranges, kept sorted and with at least one missing
code point between two neighbours.

The operations work in place on the vector with one or two indices; here each is
a recursion over the part of the vector at and after its index, which is the only
part it still looks at. `CodeRange` lists are raw; `CharacterSet` carries the
canonical form as a field, so a set that the generator cannot build cannot be
stated either. This module has the representation and `add_int_range`; the set
operations built on them are in `TreeSitter.Generate.CharacterSetOps`.
-/

namespace TreeSitter.Generate

open List

/-- A half-open range `start..end` of code points (`Range<u32>`). -/
structure CodeRange where
  start : Nat
  stop : Nat
  deriving Repr, DecidableEq

/-- `END`: one past the last code point (`char::MAX as u32 + 1`). -/
def endCodePoint : Nat := 0x110000

/-- The code points a range holds. -/
def CodeRange.Has (r : CodeRange) (c : Nat) : Prop := r.start ≤ c ∧ c < r.stop

instance (r : CodeRange) (c : Nat) : Decidable (r.Has c) :=
  inferInstanceAs (Decidable (_ ∧ _))

/-- The code points a list of ranges holds. -/
def Covers (rs : List CodeRange) (c : Nat) : Prop := ∃ r ∈ rs, r.Has c

instance (rs : List CodeRange) (c : Nat) : Decidable (Covers rs c) :=
  inferInstanceAs (Decidable (∃ r ∈ rs, r.Has c))

/-- **The canonical form**: non-empty ranges in increasing order, none beginning
before `lo`, none reaching past `END`, with a gap after each one. -/
def SortedFrom : Nat → List CodeRange → Prop
  | _, [] => True
  | lo, r :: rs => lo ≤ r.start ∧ r.start < r.stop ∧ r.stop ≤ endCodePoint ∧
      SortedFrom (r.stop + 1) rs

instance decidableSortedFrom : ∀ (lo : Nat) (rs : List CodeRange), Decidable (SortedFrom lo rs)
  | _, [] => inferInstanceAs (Decidable True)
  | _, r :: rs =>
    haveI := decidableSortedFrom (r.stop + 1) rs
    inferInstanceAs (Decidable (_ ∧ _ ∧ _ ∧ _))

/-- A set of characters represented as a vector of ranges. -/
structure CharacterSet where
  ranges : List CodeRange
  canonical : SortedFrom 0 ranges
  deriving DecidableEq

instance : Membership Nat CharacterSet := ⟨fun cs c => Covers cs.ranges c⟩

theorem CharacterSet.mem_iff {cs : CharacterSet} {c : Nat} : c ∈ cs ↔ Covers cs.ranges c :=
  Iff.rfl

instance (c : Nat) (cs : CharacterSet) : Decidable (c ∈ cs) :=
  inferInstanceAs (Decidable (Covers _ _))

/-! ### Covering, and what the canonical form gives -/

@[simp] theorem covers_nil (c : Nat) : ¬ Covers [] c := by
  simp [Covers]

@[simp] theorem covers_cons (r : CodeRange) (rs : List CodeRange) (c : Nat) :
    Covers (r :: rs) c ↔ r.Has c ∨ Covers rs c := by
  simp [Covers]

@[simp] theorem covers_append (rs ss : List CodeRange) (c : Nat) :
    Covers (rs ++ ss) c ↔ Covers rs c ∨ Covers ss c := by
  simp only [Covers, mem_append, or_and_right, exists_or]

@[simp] theorem CodeRange.has_mk (a b c : Nat) : (CodeRange.mk a b).Has c ↔ a ≤ c ∧ c < b :=
  Iff.rfl

variable {lo : Nat}

theorem SortedFrom.mono {lo' : Nat} (h : lo' ≤ lo) :
    ∀ {rs : List CodeRange}, SortedFrom lo rs → SortedFrom lo' rs
  | [], _ => trivial
  | _ :: _, hs => ⟨h.trans hs.1, hs.2⟩

theorem SortedFrom.le_of_covers {lo c : Nat} :
    ∀ {rs : List CodeRange}, SortedFrom lo rs → Covers rs c → lo ≤ c
  | [], _, hc => absurd hc (covers_nil c)
  | r :: rs, hs, hc => by
    obtain ⟨h1, h2, -, h4⟩ := hs
    rcases (covers_cons r rs c).mp hc with h | h
    · exact h1.trans h.1
    · have := h4.le_of_covers h
      omega

variable {ss rs : List CodeRange}

theorem SortedFrom.append {lo' : Nat} (hr : SortedFrom lo rs) (hlo : lo ≤ lo')
    (hall : ∀ r ∈ rs, r.stop < lo') (hs : SortedFrom lo' ss) : SortedFrom lo (rs ++ ss) := by
  induction rs generalizing lo with
  | nil => exact hs.mono hlo
  | cons r rest ih =>
    obtain ⟨h1, h2, h3, h4⟩ := hr
    have hr' : r.stop < lo' := hall r (by simp)
    exact ⟨h1, h2, h3, ih h4 (by omega) (fun q hq => hall q (by simp [hq]))⟩

theorem SortedFrom.of_append_left (h : SortedFrom lo (rs ++ ss)) : SortedFrom lo rs := by
  induction rs generalizing lo with
  | nil => trivial
  | cons r rest ih => exact ⟨h.1, h.2.1, h.2.2.1, ih h.2.2.2⟩

/-- The part of a canonical list after a prefix begins past every range of it. -/
theorem SortedFrom.of_append_right (h : SortedFrom lo (rs ++ ss)) :
    ∃ lo', lo ≤ lo' ∧ (∀ r ∈ rs, r.stop < lo') ∧ SortedFrom lo' ss := by
  induction rs generalizing lo with
  | nil => exact ⟨lo, le_rfl, by simp, h⟩
  | cons r rest ih =>
    obtain ⟨h1, h2, h3, h4⟩ := h
    obtain ⟨lo', hle, hall, hs⟩ := ih h4
    refine ⟨lo', by omega, ?_, hs⟩
    intro q hq
    rcases mem_cons.mp hq with rfl | hq
    · omega
    · exact hall q hq

/-! ### Adding a range -/

/-- The inner loop of `add_int_range`: join the range at the index with the ones
after it, as long as they touch it. -/
def joinNext (cur : CodeRange) : List CodeRange → List CodeRange
  | [] => [cur]
  | next :: rest =>
    if next.start ≤ cur.stop then joinNext ⟨cur.start, max cur.stop next.stop⟩ rest
    else cur :: next :: rest

/-- The outer loop of `add_int_range` over the ranges at and after its index:
the new list and how far the index moved. -/
def addIntRangeGo (start stop : Nat) : List CodeRange → List CodeRange × Nat
  | [] => ([⟨start, stop⟩], 0)
  | r :: rs =>
    if stop < r.start then (⟨start, stop⟩ :: r :: rs, 0)
    else if start ≤ r.stop then
      (joinNext ⟨min r.start start, max r.stop stop⟩ rs, 0)
    else
      let rest := addIntRangeGo start stop rs
      (r :: rest.1, rest.2 + 1)

/-- `add_int_range`: insert `start..stop` at or after index `i`, joining the
ranges it touches; returns the index of the range that now holds it. -/
def addIntRange (ranges : List CodeRange) (i start stop : Nat) : List CodeRange × Nat :=
  let rest := addIntRangeGo start stop (ranges.drop i)
  (ranges.take i ++ rest.1, i + rest.2)

theorem joinNext_sorted {k : Nat} {cur : CodeRange} (hlo : lo ≤ cur.start)
    (hne : cur.start < cur.stop) (hend : cur.stop ≤ endCodePoint) :
    ∀ {rs : List CodeRange}, SortedFrom k rs → SortedFrom lo (joinNext cur rs)
  | [], _ => ⟨hlo, hne, hend, trivial⟩
  | next :: rest, hs => by
    obtain ⟨-, h2, h3, h4⟩ := hs
    unfold joinNext
    split
    · have hlo' : lo ≤ (CodeRange.mk cur.start (max cur.stop next.stop)).start := hlo
      exact joinNext_sorted hlo' (lt_of_lt_of_le hne (le_max_left _ _)) (max_le hend h3) h4
    · exact ⟨hlo, hne, hend, by omega, h2, h3, h4⟩

theorem covers_joinNext {k : Nat} {cur : CodeRange} (hk : cur.start ≤ k) (c : Nat) :
    ∀ {rs : List CodeRange}, SortedFrom k rs →
      (Covers (joinNext cur rs) c ↔ cur.Has c ∨ Covers rs c)
  | [], _ => by simp [joinNext]
  | next :: rest, hs => by
    obtain ⟨h1, h2, -, h4⟩ := hs
    unfold joinNext
    split
    next hle =>
      have hk' : (CodeRange.mk cur.start (max cur.stop next.stop)).start ≤ next.stop + 1 := by
        dsimp only
        omega
      rw [covers_joinNext hk' c h4, covers_cons, ← or_assoc]
      refine or_congr_left ?_
      simp only [CodeRange.Has]
      omega
    next => simp

variable {stop start : Nat}

/-- Adding a non-empty range at or after the lower bound keeps the form. -/
theorem addIntRangeGo_sorted (hne : start < stop) (hend : stop ≤ endCodePoint) :
    ∀ {lo : Nat} {rs : List CodeRange}, lo ≤ start → SortedFrom lo rs →
      SortedFrom lo (addIntRangeGo start stop rs).1
  | _, [], hlo, _ => ⟨hlo, hne, hend, trivial⟩
  | lo, r :: rs, hlo, hs => by
    obtain ⟨h1, h2, h3, h4⟩ := hs
    unfold addIntRangeGo
    split
    · exact ⟨hlo, hne, hend, by dsimp only; omega, h2, h3, h4⟩
    · split
      · refine joinNext_sorted ?_ ?_ ?_ h4
        · exact le_min h1 hlo
        · show min r.start start < max r.stop stop
          omega
        · exact max_le h3 hend
      · exact ⟨h1, h2, h3, addIntRangeGo_sorted hne hend (by omega) h4⟩

theorem covers_addIntRangeGo (hne : start < stop) (c : Nat) :
    ∀ {lo : Nat} {rs : List CodeRange}, SortedFrom lo rs →
      (Covers (addIntRangeGo start stop rs).1 c ↔ (start ≤ c ∧ c < stop) ∨ Covers rs c)
  | _, [], _ => by simp [addIntRangeGo]
  | lo, r :: rs, hs => by
    obtain ⟨h1, h2, -, h4⟩ := hs
    unfold addIntRangeGo
    split
    · simp
    · split
      · rw [covers_joinNext (by dsimp only; omega) c h4, covers_cons, ← or_assoc]
        refine or_congr_left ?_
        simp only [CodeRange.Has]
        omega
      · rw [covers_cons, covers_addIntRangeGo hne c h4, covers_cons]
        tauto

/-- Every range before the returned index ends before the added range begins, so
the next, later range may be added from that index on. -/
theorem addIntRangeGo_before :
    ∀ {rs : List CodeRange} {r : CodeRange},
      r ∈ (addIntRangeGo start stop rs).1.take (addIntRangeGo start stop rs).2 →
      r.stop < start
  | [], _, hr => by simp [addIntRangeGo] at hr
  | q :: rs, r, hr => by
    unfold addIntRangeGo at hr
    split at hr
    · simp at hr
    · split at hr
      · simp at hr
      · simp only [take_succ_cons, mem_cons] at hr
        rcases hr with rfl | hr
        · omega
        · exact addIntRangeGo_before hr

section AddIntRange

variable {ranges : List CodeRange} {i start stop : Nat}

theorem addIntRange_sorted (hne : start < stop) (hend : stop ≤ endCodePoint)
    (hs : SortedFrom 0 ranges) (hbefore : ∀ r ∈ ranges.take i, r.stop < start) :
    SortedFrom 0 (addIntRange ranges i start stop).1 := by
  have hs' : SortedFrom 0 (ranges.take i ++ ranges.drop i) := by
    rwa [take_append_drop]
  obtain ⟨lo', hle, hall, hdrop⟩ := hs'.of_append_right
  have hdrop' : SortedFrom (min lo' start) (ranges.drop i) := hdrop.mono (min_le_left _ _)
  refine hs'.of_append_left.append (Nat.zero_le (min lo' start)) ?_ ?_
  · intro r hr
    exact lt_min (hall r hr) (hbefore r hr)
  · exact addIntRangeGo_sorted hne hend (min_le_right _ _) hdrop'

theorem covers_addIntRange (hne : start < stop) (hs : SortedFrom 0 ranges) (c : Nat) :
    Covers (addIntRange ranges i start stop).1 c ↔
      (start ≤ c ∧ c < stop) ∨ Covers ranges c := by
  have hs' : SortedFrom 0 (ranges.take i ++ ranges.drop i) := by
    rwa [take_append_drop]
  obtain ⟨lo', -, -, hdrop⟩ := hs'.of_append_right
  have hsplit : Covers ranges c ↔ Covers (ranges.take i) c ∨ Covers (ranges.drop i) c := by
    rw [← covers_append, take_append_drop]
  simp only [addIntRange, covers_append, covers_addIntRangeGo hne c hdrop, hsplit]
  tauto

theorem addIntRange_before (hi : i ≤ ranges.length)
    (hbefore : ∀ r ∈ ranges.take i, r.stop < start) {r : CodeRange}
    (hr : r ∈ (addIntRange ranges i start stop).1.take (addIntRange ranges i start stop).2) :
    r.stop < start := by
  have hlen : (ranges.take i).length = i := by simp [hi]
  simp only [addIntRange] at hr
  rw [take_append, hlen, take_of_length_le (by omega), Nat.add_sub_cancel_left, mem_append] at hr
  rcases hr with hr | hr
  · exact hbefore r hr
  · exact addIntRangeGo_before hr

end AddIntRange

theorem addIntRangeGo_index_le (start stop : Nat) :
    ∀ rs : List CodeRange,
      (addIntRangeGo start stop rs).2 ≤ (addIntRangeGo start stop rs).1.length
  | [] => by simp [addIntRangeGo]
  | r :: rs => by
    unfold addIntRangeGo
    split
    · simp
    · split
      · simp
      · simpa using addIntRangeGo_index_le start stop rs

theorem addIntRange_index_le {ranges : List CodeRange} {i : Nat} (hi : i ≤ ranges.length) :
    (addIntRange ranges i start stop).2 ≤ (addIntRange ranges i start stop).1.length := by
  have h := addIntRangeGo_index_le start stop (ranges.drop i)
  simp only [addIntRange, length_append, length_take]
  omega

end TreeSitter.Generate
