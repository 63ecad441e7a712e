import TreeSitter.Generate.CharacterSetOps

/-!
# TreeSitter.Generate.CharacterSetSpec

What a character set **denotes**. Equality of sets is equality of what they hold
(`CharacterSet.ext_mem`), the iterators and tests of `nfa.rs` read nothing but that, and every
vector that its operations can build is in canonical form (`Reachable`).
-/

namespace TreeSitter.Generate

open List

/-! ### The canonical form is unique -/

variable {r : CodeRange}

theorem SortedFrom.mem {lo : Nat} {rs : List CodeRange} (h : SortedFrom lo rs) (hr : r ∈ rs) :
    lo ≤ r.start ∧ r.start < r.stop ∧ r.stop ≤ endCodePoint := by
  induction rs generalizing lo with
  | nil => cases hr
  | cons s rs ih =>
    obtain ⟨h₁, h₂, h₃, h₄⟩ := h
    rcases mem_cons.mp hr with rfl | hr
    · exact ⟨h₁, h₂, h₃⟩
    · have := ih h₄ hr
      omega

theorem SortedFrom.start_le_of_covers {lo c : Nat} {rs : List CodeRange}
    (h : SortedFrom lo (r :: rs)) (hc : Covers (r :: rs) c) : r.start ≤ c := by
  have hstart : SortedFrom r.start (r :: rs) := ⟨le_rfl, h.2⟩
  exact hstart.le_of_covers hc

/-- The first range of a set is fixed by its code points, from one side. -/
theorem SortedFrom.head_le {lo lo' : Nat} {s : CodeRange} {rs ss : List CodeRange}
    (hr : SortedFrom lo (r :: rs)) (hs : SortedFrom lo' (s :: ss))
    (h : ∀ c, Covers (r :: rs) c ↔ Covers (s :: ss) c) :
    s.start ≤ r.start ∧ (s.start = r.start → s.stop ≤ r.stop) := by
  obtain ⟨-, hr₁, -, hrs⟩ := hr
  obtain ⟨-, hs₁, -, hss⟩ := hs
  have hlow : ∀ c, Covers rs c → r.stop + 1 ≤ c := fun c => hrs.le_of_covers
  have hlow' : ∀ c, Covers ss c → s.stop + 1 ≤ c := fun c => hss.le_of_covers
  simp only [covers_cons, CodeRange.Has] at h
  constructor
  · rcases (h r.start).mp (Or.inl ⟨le_rfl, hr₁⟩) with hc | hc
    · exact hc.1
    · have := hlow' _ hc
      omega
  · intro heq
    by_contra hlt
    rcases (h r.stop).mpr (Or.inl ⟨by omega, by omega⟩) with hc | hc
    · omega
    · have := hlow _ hc
      omega

/-- **The canonical form is unique**: two sets with the same code points have the same ranges. -/
theorem SortedFrom.ext : ∀ {lo lo' : Nat} {rs ss : List CodeRange},
    SortedFrom lo rs → SortedFrom lo' ss → (∀ c, Covers rs c ↔ Covers ss c) → rs = ss
  | _, _, [], [], _, _, _ => rfl
  | _, _, [], s :: ss, _, hs, h =>
    absurd ((h s.start).mpr ((covers_cons s ss _).mpr (Or.inl ⟨le_rfl, hs.2.1⟩))) (covers_nil _)
  | _, _, r :: rs, [], hr, _, h =>
    absurd ((h r.start).mp ((covers_cons r rs _).mpr (Or.inl ⟨le_rfl, hr.2.1⟩))) (covers_nil _)
  | _, _, r :: rs, s :: ss, hr, hs, h => by
    have hle := hr.head_le hs h
    have hge := hs.head_le hr fun c => (h c).symm
    have hstart : r.start = s.start := le_antisymm hge.1 hle.1
    have hstop : r.stop = s.stop := le_antisymm (hge.2 hstart) (hle.2 hstart.symm)
    obtain rfl : r = s := by
      cases r
      cases s
      simp_all
    -- What the first range holds, the rest does not.
    have hrest : ∀ c, Covers rs c ↔ Covers ss c := by
      intro c
      have hiff := h c
      rw [covers_cons, covers_cons] at hiff
      have hlow : Covers rs c → ¬ r.Has c := fun hc hhas => by
        have := hr.2.2.2.le_of_covers hc
        have := hhas.2
        omega
      have hlow' : Covers ss c → ¬ r.Has c := fun hc hhas => by
        have := hs.2.2.2.le_of_covers hc
        have := hhas.2
        omega
      tauto
    rw [SortedFrom.ext hr.2.2.2 hs.2.2.2 hrest]

theorem CharacterSet.ext_mem {cs other : CharacterSet} (h : ∀ x, x ∈ cs ↔ x ∈ other) :
    cs = other := by
  obtain ⟨rs, hrs⟩ := cs
  obtain ⟨ss, hss⟩ := other
  obtain rfl := hrs.ext hss h
  rfl

/-! ### `does_intersect` -/

/-- `does_intersect`, over the ranges that are not passed yet. -/
def doesIntersect : List CodeRange → List CodeRange → Bool
  | l :: ls, r :: rs =>
    if l.stop ≤ r.start then doesIntersect ls (r :: rs)
    else if l.start ≥ r.stop then doesIntersect (l :: ls) rs
    else true
  | [], _ | _ :: _, [] => false
termination_by ls rs => ls.length + rs.length

theorem doesIntersect_iff {lo lo' : Nat} {ls rs : List CodeRange} (hl : SortedFrom lo ls)
    (hr : SortedFrom lo' rs) :
    doesIntersect ls rs = true ↔ ∃ c, Covers ls c ∧ Covers rs c := by
  fun_induction doesIntersect ls rs generalizing lo lo' with
  | case1 l ls r rs hpast ih =>
    -- all of `rs` lies behind `l`
    have hnot : ∀ c, Covers (r :: rs) c → ¬ l.Has c := fun c hc hhas => by
      have := hr.start_le_of_covers hc
      have := hhas.2
      omega
    rw [ih hl.2.2.2 hr]
    refine exists_congr fun c => and_congr_left fun hc => ?_
    rw [covers_cons, or_iff_right (hnot c hc)]
  | case2 l ls r rs hpast hpast' ih =>
    have hnot : ∀ c, Covers (l :: ls) c → ¬ r.Has c := fun c hc hhas => by
      have := hl.start_le_of_covers hc
      have := hhas.2
      omega
    rw [ih hl hr.2.2.2]
    refine exists_congr fun c => and_congr_right fun hc => ?_
    rw [covers_cons, or_iff_right (hnot c hc)]
  | case3 l ls r rs hpast hpast' =>
    have hl₁ := hl.2.1
    have hr₁ := hr.2.1
    refine iff_of_true rfl ⟨max l.start r.start, ?_, ?_⟩
    · exact (covers_cons l ls _).mpr (Or.inl ⟨le_max_left _ _, by omega⟩)
    · exact (covers_cons r rs _).mpr (Or.inl ⟨le_max_right _ _, by omega⟩)
  | case4 rs | case5 l ls => simp

/-! ### Iteration -/

/-- `char_codes`. -/
def charCodes (rs : List CodeRange) : List Nat :=
  rs.flatMap fun r => List.range' r.start (r.stop - r.start)

theorem mem_charCodes {rs : List CodeRange} {c : Nat} : c ∈ charCodes rs ↔ Covers rs c := by
  simp only [charCodes, mem_flatMap, mem_range'_1, Covers, CodeRange.Has]
  refine exists_congr fun r => and_congr_right fun _ => ?_
  omega

theorem pairwise_charCodes : ∀ {lo : Nat} {rs : List CodeRange}, SortedFrom lo rs →
    (charCodes rs).Pairwise (· < ·)
  | _, [], _ => List.Pairwise.nil
  | _, r :: rs, hs => by
    rw [charCodes, flatMap_cons, pairwise_append]
    refine ⟨pairwise_lt_range', pairwise_charCodes hs.2.2.2, fun x hx y hy => ?_⟩
    have hy := hs.2.2.2.le_of_covers (mem_charCodes.mp hy)
    have hx := mem_range'_1.mp hx
    omega

/-- Whether `char::from_u32` succeeds: a code point that is not a surrogate. -/
def IsChar (c : Nat) : Prop := c < 0xD800 ∨ 0xE000 ≤ c ∧ c < endCodePoint

instance (c : Nat) : Decidable (IsChar c) := inferInstanceAs (Decidable (_ ∨ _ ∧ _))

/-- `char::from_u32`. -/
def charFromU32 (c : Nat) : Option Char := if IsChar c then some (Char.ofNat c) else none

/-- `chars`. -/
def chars (rs : List CodeRange) : List Char := (charCodes rs).filterMap charFromU32

/-- The first character of a range: that of the code points from its start on. -/
def CodeRange.firstChar (r : CodeRange) : Nat :=
  if 0xD800 ≤ r.start ∧ r.start < 0xE000 then 0xE000 else r.start

/-- The last character of a range: that of the code points from its end down. -/
def CodeRange.lastChar (r : CodeRange) : Nat :=
  if 0xD800 ≤ r.stop - 1 ∧ r.stop - 1 < 0xE000 then 0xD7FF else r.stop - 1

/-- The range as one of characters, both ends included, if it has a character. -/
def CodeRange.chars? (r : CodeRange) : Option (Nat × Nat) :=
  if r.firstChar < r.stop ∧ r.start ≤ r.lastChar then some (r.firstChar, r.lastChar) else none

/-- `CharacterSet::ranges`. -/
def CharacterSet.charRanges (cs : CharacterSet) : List (Nat × Nat) :=
  cs.ranges.filterMap CodeRange.chars?

theorem CodeRange.firstChar_cases (r : CodeRange) :
    r.firstChar = 0xE000 ∧ 0xD800 ≤ r.start ∧ r.start < 0xE000 ∨
      r.firstChar = r.start ∧ ¬ (0xD800 ≤ r.start ∧ r.start < 0xE000) := by
  rw [firstChar]
  split
  · exact Or.inl ⟨rfl, ‹_›⟩
  · exact Or.inr ⟨rfl, ‹_›⟩

theorem CodeRange.lastChar_cases (r : CodeRange) :
    r.lastChar = 0xD7FF ∧ 0xD800 ≤ r.stop - 1 ∧ r.stop - 1 < 0xE000 ∨
      r.lastChar = r.stop - 1 ∧ ¬ (0xD800 ≤ r.stop - 1 ∧ r.stop - 1 < 0xE000) := by
  rw [lastChar]
  split
  · exact Or.inl ⟨rfl, ‹_›⟩
  · exact Or.inr ⟨rfl, ‹_›⟩

theorem CodeRange.has_iff_chars (hne : r.start < r.stop) {c : Nat} (hc : IsChar c) :
    r.Has c ↔ ∃ p, r.chars? = some p ∧ p.1 ≤ c ∧ c ≤ p.2 := by
  have hfirst := r.firstChar_cases
  have hlast := r.lastChar_cases
  have hchars : r.Has c ↔
      (r.firstChar < r.stop ∧ r.start ≤ r.lastChar) ∧ r.firstChar ≤ c ∧ c ≤ r.lastChar := by
    rw [Has]
    rw [IsChar, endCodePoint] at hc
    omega
  rw [hchars, chars?]
  split
  · simp_all
  · simp_all

theorem CodeRange.chars?_le {p : Nat × Nat} (h : r.chars? = some p) :
    p.1 ≤ p.2 ∧ r.start ≤ p.1 ∧ p.2 < r.stop := by
  have hfirst := r.firstChar_cases
  have hlast := r.lastChar_cases
  rw [chars?] at h
  split at h
  · cases h
    dsimp only
    omega
  · cases h

namespace CharacterSet

theorem mem_charRanges_iff (cs : CharacterSet) {c : Nat} (hc : IsChar c) :
    (∃ p ∈ cs.charRanges, p.1 ≤ c ∧ c ≤ p.2) ↔ c ∈ cs := by
  rw [mem_iff, Covers]
  constructor
  · intro h
    obtain ⟨p, hp, hle⟩ := h
    obtain ⟨r, hr, hchars⟩ := mem_filterMap.mp hp
    obtain ⟨-, hne, -⟩ := cs.canonical.mem hr
    exact ⟨r, hr, (CodeRange.has_iff_chars hne hc).mpr ⟨p, hchars, hle⟩⟩
  · intro h
    obtain ⟨r, hr, hhas⟩ := h
    obtain ⟨-, hne, -⟩ := cs.canonical.mem hr
    obtain ⟨p, hchars, hle⟩ := (CodeRange.has_iff_chars hne hc).mp hhas
    exact ⟨p, mem_filterMap.mpr ⟨r, hr, hchars⟩, hle⟩

theorem le_of_mem_charRanges (cs : CharacterSet) {p : Nat × Nat} (hp : p ∈ cs.charRanges) :
    p.1 ≤ p.2 := by
  obtain ⟨r, hr, hchars⟩ := mem_filterMap.mp hp
  exact (CodeRange.chars?_le hchars).1

theorem pairwise_charRanges (cs : CharacterSet) :
    cs.charRanges.Pairwise fun p q => p.2 < q.1 := by
  have hsorted : ∀ {lo : Nat} {rs : List CodeRange}, SortedFrom lo rs →
      (rs.filterMap CodeRange.chars?).Pairwise fun p q => p.2 < q.1 := by
    intro lo rs
    induction rs generalizing lo with
    | nil => exact fun _ => List.Pairwise.nil
    | cons r rs ih =>
      intro hs
      obtain ⟨h₁, h₂, h₃, h₄⟩ := hs
      cases hr : r.chars? with
      | none => rw [filterMap_cons_none hr]; exact ih h₄
      | some p =>
        rw [filterMap_cons_some hr]
        refine List.Pairwise.cons (fun q hq => ?_) (ih h₄)
        obtain ⟨s, hs, hq⟩ := mem_filterMap.mp hq
        have hmem := h₄.mem hs
        have hp := CodeRange.chars?_le hr
        have hq := CodeRange.chars?_le hq
        omega
  exact hsorted cs.canonical

end CharacterSet


theorem toNat_ofNat {c : Nat} (h : IsChar c) : (Char.ofNat c).toNat = c := by
  have hvalid : c.isValidChar := by
    rw [IsChar, endCodePoint] at h
    unfold Nat.isValidChar
    omega
  rw [Char.ofNat, dif_pos hvalid]
  rfl

theorem isChar_toNat (c : Char) : IsChar c.toNat := by
  have hvalid := c.valid
  simp only [UInt32.isValidChar, Nat.isValidChar] at hvalid
  show c.val.toNat < 0xD800 ∨ 0xE000 ≤ c.val.toNat ∧ c.val.toNat < 0x110000
  omega

theorem charFromU32_eq_some {x : Nat} {c : Char} : charFromU32 x = some c ↔ x = c.toNat := by
  unfold charFromU32
  constructor
  · intro h
    split at h
    · rename_i hchar
      cases h
      exact (toNat_ofNat hchar).symm
    · cases h
  · rintro rfl
    rw [if_pos (isChar_toNat c), Char.ofNat_toNat]

theorem mem_chars {rs : List CodeRange} {c : Char} : c ∈ chars rs ↔ Covers rs c.toNat := by
  simp only [chars, mem_filterMap, charFromU32_eq_some, exists_eq_right, mem_charCodes]

theorem pairwise_chars {lo : Nat} {rs : List CodeRange} (hs : SortedFrom lo rs) :
    (chars rs).Pairwise (· < ·) := by
  rw [chars, pairwise_filterMap]
  refine (pairwise_charCodes hs).imp fun {x y} hlt c hc d hd => ?_
  rw [charFromU32_eq_some] at hc hd
  subst hc hd
  exact hlt

/-! ### Vectors that the operations build -/

/-- `from_range`, which takes its ends in any order. -/
def fromRange (first last : Char) : List CodeRange :=
  if first > last then [⟨last.toNat, first.toNat + 1⟩] else [⟨first.toNat, last.toNat + 1⟩]

/-- The vectors of ranges that the operations on character sets build from one another.
`difference` is what `remove_intersection` leaves on its left. -/
inductive Reachable : List CodeRange → Prop
  | empty : Reachable []
  | fromChar (c : Char) : Reachable [⟨c.toNat, c.toNat + 1⟩]
  | fromRange (first last : Char) : Reachable (fromRange first last)
  | addChar {rs} (c : Char) : Reachable rs → Reachable (addIntRange rs 0 c.toNat (c.toNat + 1)).1
  | addRange {rs} {first last : Char} : first ≤ last → Reachable rs →
      Reachable (addIntRange rs 0 first.toNat (last.toNat + 1)).1
  | add {rs ss} : Reachable rs → Reachable ss → Reachable (addAll rs 0 ss)
  | negate {rs} : Reachable rs → Reachable (negateGo 0 rs)
  | left {rs ss} : Reachable rs → Reachable ss → Reachable (removeIntersection rs ss).left
  | right {rs ss} : Reachable rs → Reachable ss → Reachable (removeIntersection rs ss).right
  | both {rs ss} : Reachable rs → Reachable ss → Reachable (removeIntersection rs ss).both

theorem Reachable.sorted {rs : List CodeRange} (h : Reachable rs) : SortedFrom 0 rs := by
  have hone : ∀ a b : Char, a ≤ b → SortedFrom 0 [⟨a.toNat, b.toNat + 1⟩] := fun a b hab =>
    ⟨Nat.zero_le _, Nat.lt_succ_of_le hab, CharacterSet.char_lt_end b, trivial⟩
  induction h with
  | empty => exact trivial
  | fromChar c => exact hone c c le_rfl
  | fromRange first last =>
    unfold Generate.fromRange
    split
    · exact hone last first (le_of_lt ‹_›)
    · exact hone first last (not_lt.mp ‹_›)
  | addChar c _ ih =>
    exact addIntRange_sorted (Nat.lt_succ_self _) (CharacterSet.char_lt_end c) ih (by simp)
  | addRange hle _ ih =>
    exact addIntRange_sorted (Nat.lt_succ_of_le hle) (CharacterSet.char_lt_end _) ih (by simp)
  | add _ _ ih ih' => exact (addAll_spec ih (Nat.zero_le _) (by simp) ih').1
  | negate _ ih => exact negateGo_sorted ih
  | left _ _ ih ih' => exact (removeIntersection_sorted ih ih').1
  | right _ _ ih ih' => exact (removeIntersection_sorted ih ih').2.1
  | both _ _ ih ih' => exact (removeIntersection_sorted ih ih').2.2

/-- What the operations say about the sets of code points of two vectors. -/
structure Denotes (rs ss : List CodeRange) : Prop where
  /-- Non-empty ranges in order, with a gap after each one. -/
  sorted : SortedFrom 0 rs
  add : ∀ x, Covers (addAll rs 0 ss) x ↔ Covers rs x ∨ Covers ss x
  addChar : ∀ (c : Char) (x : Nat),
    Covers (addIntRange rs 0 c.toNat (c.toNat + 1)).1 x ↔ x = c.toNat ∨ Covers rs x
  addRange : ∀ first last : Char, first ≤ last → ∀ x,
    Covers (addIntRange rs 0 first.toNat (last.toNat + 1)).1 x ↔
      first.toNat ≤ x ∧ x ≤ last.toNat ∨ Covers rs x
  /-- The complement in the space of all code points, surrogates included. -/
  negate : ∀ x, Covers (negateGo 0 rs) x ↔ x < endCodePoint ∧ ¬ Covers rs x
  intersection : ∀ x, Covers (removeIntersection rs ss).both x ↔ Covers rs x ∧ Covers ss x
  /-- `difference` too. -/
  left : ∀ x, Covers (removeIntersection rs ss).left x ↔ Covers rs x ∧ ¬ Covers ss x
  right : ∀ x, Covers (removeIntersection rs ss).right x ↔ Covers ss x ∧ ¬ Covers rs x
  intersects : doesIntersect rs ss = true ↔ ∃ x, Covers rs x ∧ Covers ss x
  contains : ∀ seek : CodeRange, seek.start < seek.stop →
    (containsCodepointRange rs seek = true ↔ ∀ x, seek.Has x → Covers rs x)
  /-- An empty range is contained where its start is. -/
  contains_empty : ∀ seek : CodeRange, seek.stop ≤ seek.start →
    (containsCodepointRange rs seek = true ↔ Covers rs seek.start)
  charCodes_sorted : (charCodes rs).Pairwise (· < ·)
  charCodes : ∀ x, x ∈ charCodes rs ↔ Covers rs x
  chars_sorted : (chars rs).Pairwise (· < ·)
  chars : ∀ c : Char, c ∈ chars rs ↔ Covers rs c.toNat

/-- **The operations on character sets are the operations on sets of code points**, and all
that they build is canonical. -/
theorem Reachable.denotes {rs ss : List CodeRange} (hr : Reachable rs) (hs : Reachable ss) :
    Denotes rs ss where
  sorted := hr.sorted
  add := (addAll_spec hr.sorted (Nat.zero_le _) (by simp) hs.sorted).2
  addChar c x := by
    rw [covers_addIntRange (Nat.lt_succ_self _) hr.sorted]
    refine or_congr_left ?_
    omega
  addRange first last hle x := by
    have hlt : first.toNat < last.toNat + 1 := Nat.lt_succ_of_le hle
    rw [covers_addIntRange hlt hr.sorted]
    refine or_congr_left ?_
    omega
  negate x := by
    rw [covers_negateGo x hr.sorted]
    simp
  intersection x := (covers_removeIntersection x hr.sorted hs.sorted).2.2
  left x := (covers_removeIntersection x hr.sorted hs.sorted).1
  right x := (covers_removeIntersection x hr.sorted hs.sorted).2.1
  intersects := doesIntersect_iff hr.sorted hs.sorted
  contains _ hne := containsCodepointRange_iff hr.sorted hne
  contains_empty seek hempty := by
    rw [containsCodepointRange_eq hr.sorted]
    refine and_iff_left fun x hx => ?_
    have := hx.1
    have := hx.2
    omega
  charCodes_sorted := pairwise_charCodes hr.sorted
  charCodes _ := mem_charCodes
  chars_sorted := pairwise_chars hr.sorted
  chars _ := mem_chars

theorem Reachable.denotes_letters :
    Reachable [⟨97, 98⟩] ∧ Reachable (negateGo 0 [⟨97, 98⟩]) ∧
      Denotes [⟨97, 98⟩] (negateGo 0 [⟨97, 98⟩]) := by
  have ha : Reachable [⟨97, 98⟩] := .fromChar 'a'
  exact ⟨ha, ha.negate, ha.denotes ha.negate⟩

end TreeSitter.Generate
