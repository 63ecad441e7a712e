import TreeSitter.Lib.Subtree.Edit

/-!
# TreeSitter.Lib.Subtree.EditSpans

**Editing a tree follows the edit of its text.** `Spans` says that a tree is laid over a text:
the padding and the size of each node are lengths of consecutive parts, and the texts of the
children make up the text of their parent. `newText` is the text after an edit, and
`editTree_spans` says that the edited tree is laid over it.

All of this is relative to a reading of lengths as texts (`Measures`). Read as bytes alone it
holds of every well-formed tree and every edit; read as texts with newlines it says that rows
and columns are right too, if those of the tree and of the edit were.
-/

namespace TreeSitter.Lib

open List

variable {β : Type} {R : Length → List β → Prop}

/-! ### Edited texts -/

/-- The text `T` after an edit, which is given by the texts up to its start, its old end and
its new end. An edit behind the text does not change it. -/
def newText (T a o n : List β) : List β :=
  if a.length < T.length ∨ a.length = T.length ∧ o.length = a.length then n ++ T.drop o.length
  else T

variable {T a : List β}

theorem newText_self (h : Comparable a T) : newText T a a a = T := by
  rw [newText]
  split
  · rename_i hcond
    obtain ⟨rest, rfl⟩ := h.isPrefix (by omega)
    rw [drop_left]
  · rfl

variable {o n : List β}

theorem newText_append_before {V : List β} (hao : a <+: o) (han : a <+: n) (hTa : T <+: a) :
    newText (T ++ V) a o n =
      T ++ newText V (a.drop T.length) (o.drop T.length) (n.drop T.length) := by
  obtain ⟨a', rfl⟩ := hTa
  obtain ⟨o', rfl⟩ := hao
  obtain ⟨n', rfl⟩ := han
  have hcond : (T ++ a').length < (T ++ V).length ∨ (T ++ a').length = (T ++ V).length ∧
      (T ++ (a' ++ o')).length = (T ++ a').length ↔
      a'.length < V.length ∨ a'.length = V.length ∧ (a' ++ o').length = a'.length := by
    simp only [length_append]
    omega
  have hdrop : (T ++ V).drop (T ++ (a' ++ o')).length = V.drop (a' ++ o').length := by
    rw [length_append, drop_append, drop_eq_nil_of_le (by omega),
      Nat.add_sub_cancel_left, nil_append]
  simp only [newText, append_assoc, drop_left, hdrop]
  by_cases hc : a'.length < V.length ∨ a'.length = V.length ∧ (a' ++ o').length = a'.length
  · rw [if_pos hc, if_pos (hcond.mpr hc)]
  · rw [if_neg hc, if_neg (mt hcond.mp hc)]

theorem newText_append_touching {V : List β} (h : a.length < T.length ∨ a.length = T.length ∧
      o.length = a.length ∨ T = [] ∧ a = [] ∧ n = []) (hao : a <+: o) :
    newText (T ++ V) a o n =
      newText T a o n ++ newText V (a.drop T.length) (o.drop T.length) (a.drop T.length) := by
  have hle := hao.length_le
  by_cases hnil : T = [] ∧ a = [] ∧ n = []
  · obtain ⟨rfl, rfl, rfl⟩ := hnil
    rw [nil_append, drop_nil, length_nil, drop_zero]
    have hempty : newText [] [] o [] = ([] : List β) := by simp [newText]
    rw [hempty, nil_append]
  · have h' : a.length < T.length ∨ a.length = T.length ∧ o.length = a.length := by
      rcases h with h | h | h
      · exact Or.inl h
      · exact Or.inr h
      · exact absurd h hnil
    have hdrop : a.drop T.length = [] := drop_eq_nil_of_le (by omega)
    have hcond : a.length < (T ++ V).length ∨ a.length = (T ++ V).length ∧
        o.length = a.length := by
      rw [length_append]
      omega
    rw [newText, if_pos hcond, newText, if_pos h', hdrop, newText, append_assoc]
    congr 1
    rw [drop_append]
    congr 1
    split
    · rw [length_drop, nil_append]
    · rename_i hV
      simp only [length_nil, length_drop] at hV
      have hV' : V = [] := eq_nil_of_length_eq_zero (by omega)
      rw [hV', drop_nil]

/-! ### Edits of texts -/

/-- An edit read as three texts. -/
structure Reads (R : Length → List β → Prop) (edit : Edit) (a o n : List β) : Prop where
  start : R edit.start a
  oldEnd : R edit.oldEnd o
  newEnd : R edit.newEnd n
  start_old : a <+: o
  start_new : a <+: n

namespace Reads

variable {edit : Edit} {a o n L : List β} {childLeft : Length}

theorem bytes (hR : Measures R) (h : Reads R edit a o n) :
    edit.start.bytes = a.length ∧ edit.oldEnd.bytes = o.length ∧ edit.newEnd.bytes = n.length :=
  ⟨hR.bytes h.start, hR.bytes h.oldEnd, hR.bytes h.newEnd⟩

theorem shift (hR : Measures R) (h : Reads R edit a o n) (hL : R childLeft L)
    (ho : Comparable L o) (hn : Comparable L n) :
    Reads R (edit.shift childLeft) (a.drop L.length) (o.drop L.length) (n.drop L.length) where
  start := hR.saturatingSub h.start hL (ho.symm.of_isPrefix h.start_old).symm
  oldEnd := hR.saturatingSub h.oldEnd hL ho
  newEnd := hR.saturatingSub h.newEnd hL hn
  start_old := h.start_old.drop L.length
  start_new := h.start_new.drop L.length

theorem atStart (h : Reads R edit a o n) : Reads R edit.atStart a a a :=
  ⟨h.start, h.start, h.start, prefix_rfl, prefix_rfl⟩

theorem withoutInsertion (h : Reads R edit a o n) : Reads R edit.withoutInsertion a o a :=
  ⟨h.start, h.oldEnd, h.start, h.start_old, prefix_rfl⟩

/-- **The new lengths of a node are those of the two parts of its new text.** The cases are
those of the source. -/
theorem resize (hR : Measures R) (h : Reads R edit a o n) {padding size : Length}
    {P S : List β} (hP : R padding P) (hS : R size S) (hcmp : Comparable o (P ++ S))
    (hlt : (P ++ S).length < 2 ^ 32) (hlt' : (newText (P ++ S) a o n).length < 2 ^ 32) :
    ∃ P' S', newText (P ++ S) a o n = P' ++ S' ∧ R (edit.resize padding size).1 P' ∧
      R (edit.resize padding size).2 S' := by
  obtain ⟨hstart, hold, hnew⟩ := h.bytes hR
  have hpadding := hR.bytes hP
  have htotal := hR.add hP hS hlt
  have htotalBytes := hR.bytes htotal
  have hao := h.start_old.length_le
  have hcmpP : Comparable o P := (hcmp.symm.of_isPrefix (prefix_append P S)).symm
  simp only [Edit.resize, hstart, hold, hpadding, htotalBytes, Edit.isPureInsertion, beq_iff_eq]
  by_cases h₁ : o.length ≤ P.length
  · rw [if_pos h₁]
    -- The edit lies in the padding.
    obtain ⟨rest, rfl⟩ := hcmpP.isPrefix h₁
    have htext : newText (o ++ rest ++ S) a o n = n ++ rest ++ S := by
      rw [newText, if_pos (by simp only [length_append]; omega), append_assoc,
        drop_left, append_assoc]
    rw [htext, length_append] at hlt'
    exact ⟨n ++ rest, S, htext, hR.add h.newEnd (hR.sub hP h.oldEnd) (by omega), hS⟩
  · rw [if_neg h₁]
    obtain ⟨rest, rfl⟩ := hcmpP.symm.isPrefix (by omega)
    have hrest : Comparable rest S := by
      have := hcmp.drop
      rwa [drop_left] at this
    by_cases h₂ : a.length < P.length
    · rw [if_pos h₂]
      -- The edit starts in the padding and ends behind it.
      have htext : newText (P ++ S) a (P ++ rest) n = n ++ S.drop rest.length := by
        rw [newText, if_pos (by simp only [length_append]; omega), length_append,
          drop_append, drop_eq_nil_of_le (by omega), Nat.add_sub_cancel_left,
          nil_append]
      exact ⟨n, S.drop rest.length, htext, h.newEnd,
        hR.saturatingSub hS (hR.sub h.oldEnd hP) hrest⟩
    · rw [if_neg h₂]
      by_cases h₃ : a.length < (P ++ S).length ∨
          a.length = (P ++ S).length ∧ (P ++ rest).length = a.length
      · rw [if_pos h₃]
        -- The edit starts behind the padding, and the padding is a front part of the new text.
        have hPa : P <+: a :=
          ((hcmpP.of_isPrefix h.start_old).symm).isPrefix (by omega)
        obtain ⟨added, rfl⟩ := hPa.trans h.start_new
        have htext : newText (P ++ S) a (P ++ rest) (P ++ added) =
            P ++ (added ++ (P ++ S).drop (P ++ rest).length) := by
          rw [newText, if_pos h₃, append_assoc]
        rw [htext, length_append] at hlt'
        exact ⟨P, _, htext, hP, hR.add (hR.sub h.newEnd hP)
          (hR.saturatingSub htotal h.oldEnd hcmp) (by omega)⟩
      · rw [if_neg h₃]
        exact ⟨P, S, by rw [newText, if_neg h₃], hP, hS⟩

end Reads

/-! ### Trees over texts -/

/-- Two lengths are those of two parts of a text. -/
def ReadsAs (R : Length → List β → Prop) (padding size : Length) (T : List β) : Prop :=
  ∃ P S, T = P ++ S ∧ R padding P ∧ R size S

mutual

/-- A tree is laid over a text. -/
def Spans (R : Length → List β → Prop) : Subtree → List β → Prop
  | .inline data, T => ReadsAs R (Subtree.inline data).padding (Subtree.inline data).size T
  | .heap data [], T => ReadsAs R data.padding data.size T
  | .heap data (first :: rest), T => ReadsAs R data.padding data.size T ∧
    data.padding.bytes = first.padding.bytes ∧
    ∃ U V, T = U ++ V ∧ Spans R first U ∧ SpansAll R rest V

/-- Some trees are laid over consecutive parts of a text. -/
def SpansAll (R : Length → List β → Prop) : List Subtree → List β → Prop
  | [], T => T = []
  | t :: ts, T => ∃ U V, T = U ++ V ∧ Spans R t U ∧ SpansAll R ts V

end

mutual

/-- The lookahead of every inner node covers that of its children. -/
def Covered : Subtree → Prop
  | .inline _ => True
  | .heap data children =>
    CoveredBy (data.padding.bytes + data.size.bytes + data.lookaheadBytes) 0 children

/-- The trees from a position on, with their lookahead, end before a limit. -/
def CoveredBy : Nat → Nat → List Subtree → Prop
  | _, _, [] => True
  | limit, left, t :: ts =>
    left + t.endByte ≤ limit ∧ Covered t ∧ CoveredBy limit (left + t.totalBytes) ts

end

variable {t : Subtree}

theorem Spans.readsAs (h : Spans R t T) :
    ReadsAs R t.padding t.size T := by
  match t, h with
  | .inline _, h | .heap _ [], h => exact h
  | .heap _ (_ :: _), h => exact h.1

theorem Spans.totalBytes (hR : Measures R) (h : Spans R t T) :
    t.totalBytes = T.length := by
  obtain ⟨P, S, rfl, hP, hS⟩ := h.readsAs
  rw [Subtree.totalBytes, hR.bytes hP, hR.bytes hS, length_append]

theorem Spans.totalSize (hR : Measures R) (h : Spans R t T) (hlt : T.length < 2 ^ 32) :
    R t.totalSize T := by
  obtain ⟨P, S, rfl, hP, hS⟩ := h.readsAs
  exact hR.add hP hS hlt

variable {edit : Edit}

/-- The test before a visit, on a tree whose end does not wrap around. -/
theorem misses_iff (h : t.endByte < 2 ^ 32) :
    edit.misses t = true ↔
      t.endByte < edit.start.bytes ∨
        (edit.oldEnd.bytes = edit.start.bytes ∧ edit.newEnd.bytes = edit.start.bytes) ∧
          edit.start.bytes = t.endByte := by
  have htotal : t.totalSize.bytes = t.totalBytes :=
    Subtree.totalSize_bytes (by rw [Subtree.endByte] at h; omega)
  have hend : addU32 t.totalSize.bytes t.lookaheadBytes = t.endByte := by
    rw [htotal]
    exact addU32_of_lt h
  simp [Edit.misses, Edit.isNoop, hend]

theorem newText_of_misses (hR : Measures R) (hspans : Spans R t T) (hreads : Reads R edit a o n)
    (hcmp : Comparable o T) (hlt : t.endByte < 2 ^ 32) (h : edit.misses t = true) :
    newText T a o n = T := by
  obtain ⟨hstart, hold, hnew⟩ := hreads.bytes hR
  have htotal := hspans.totalBytes hR
  rw [misses_iff hlt, hstart, hold, hnew, Subtree.endByte, htotal] at h
  rcases h with h | ⟨⟨ho, hn⟩, -⟩
  · rw [newText, if_neg (by omega)]
  · rw [← hreads.start_old.eq_of_length ho.symm, ← hreads.start_new.eq_of_length hn.symm]
    exact newText_self (hcmp.of_isPrefix hreads.start_old)

/-! ### The loop over the children -/

/-- The tree that an edit leaves is laid over the new text. -/
def FollowsEdits (R : Length → List β → Prop) (t : Subtree) : Prop :=
  ∀ (T a o n : List β) (edit : Edit), Spans R t T → Covered t → t.endByte < 2 ^ 32 →
    Reads R edit a o n → Comparable o T → (newText T a o n).length < 2 ^ 32 →
    Spans R (editTree edit t) (newText T a o n)

/-- Where the loop stands: behind the text `L`, with the edit `a`, `o`, `n` left to hand out.
Once a child has touched the edit there is nothing left to insert. -/
structure AtChild (R : Length → List β → Prop) (loop : ChildLoop) (i : Nat) (childLeft : Length)
    (edit : Edit) (L V a o n : List β) : Prop where
  left : R childLeft L
  reads : Reads R edit a o n
  comparable : Comparable o (L ++ V)
  pure : loop.isPureInsertion = (o.length == a.length)
  first : i = 0 → L = []
  inserted : 0 < i → a.length < L.length ∨ a.length = L.length ∧ o.length = a.length → n = a

namespace AtChild

variable {loop : ChildLoop} {i : Nat} {childLeft : Length} {edit : Edit} {L U V a o n : List β}

theorem comparable_left (h : AtChild R loop i childLeft edit L V a o n) : Comparable L o :=
  (h.comparable.symm.of_isPrefix (prefix_append L V))

theorem comparable_new (h : AtChild R loop i childLeft edit L V a o n) : Comparable L n := by
  rcases Nat.eq_zero_or_pos i with hi | hi
  · rw [h.first hi]
    exact Or.inl nil_prefix
  · by_cases hlt : a.length < L.length
    · rw [h.inserted hi (Or.inl hlt)]
      exact (h.comparable_left.symm.of_isPrefix h.reads.start_old).symm
    · have hpre : L <+: a :=
        ((h.comparable_left.symm.of_isPrefix h.reads.start_old).symm).isPrefix (by omega)
      exact Or.inl (hpre.trans h.reads.start_new)

theorem shift (hR : Measures R) (h : AtChild R loop i childLeft edit L V a o n) :
    Reads R (edit.shift childLeft) (a.drop L.length) (o.drop L.length) (n.drop L.length) :=
  h.reads.shift hR h.left h.comparable_left h.comparable_new

theorem next (h : AtChild R loop i childLeft edit L (U ++ V) a o n) {childRight : Length}
    (hright : R childRight (L ++ U)) (hbefore : (L ++ U).length ≤ a.length)
    (hpure : ¬ ((L ++ U).length = a.length ∧ o.length = a.length)) :
    AtChild R loop (i + 1) childRight edit (L ++ U) V a o n where
  left := hright
  reads := h.reads
  comparable := by rw [append_assoc]; exact h.comparable
  pure := h.pure
  first := fun hi => absurd hi (Nat.succ_ne_zero i)
  inserted := fun _ hcond => by omega

theorem nextTouched (h : AtChild R loop i childLeft edit L (U ++ V) a o n) {childRight : Length}
    (hright : R childRight (L ++ U)) :
    AtChild R loop (i + 1) childRight edit.withoutInsertion (L ++ U) V a o a where
  left := hright
  reads := h.reads.withoutInsertion
  comparable := by rw [append_assoc]; exact h.comparable
  pure := h.pure
  first := fun hi => absurd hi (Nat.succ_ne_zero i)
  inserted := fun _ _ => rfl

theorem newText_eq (h : AtChild R loop i childLeft edit L V a o n) (hi : 0 < i)
    (hle : o.length ≤ L.length) :
    newText V (a.drop L.length) (o.drop L.length) (n.drop L.length) = V := by
  have hao := h.reads.start_old.length_le
  have hn : n = a := h.inserted hi (by omega)
  rw [hn, drop_eq_nil_of_le hle, drop_eq_nil_of_le (hao.trans hle)]
  exact newText_self (Or.inl nil_prefix)

end AtChild

theorem editTrees_map_none {α : Type} : ∀ (xs : List α) (ts : List Subtree),
    editTrees (xs.map fun _ => none) ts = ts
  | [], ts => by rw [map_nil, editTrees]
  | _ :: _, [] => by simp [editTrees]
  | _ :: xs, t :: ts => by rw [map_cons, editTrees, editTrees_map_none xs ts]

theorem run_spansAll (hR : Measures R) (loop : ChildLoop) {limit : Nat} (hlimit : limit < 2 ^ 32)
    (cs : List Subtree) : (∀ c ∈ cs, FollowsEdits R c) →
    ∀ {i : Nat} {childLeft : Length} {edit : Edit} {L V a o n : List β}, (i = 0 → cs ≠ []) →
      SpansAll R cs V → CoveredBy limit L.length cs →
      AtChild R loop i childLeft edit L V a o n →
      (newText V (a.drop L.length) (o.drop L.length) (n.drop L.length)).length < 2 ^ 32 →
      SpansAll R (editTrees (loop.run i childLeft edit cs) cs)
        (newText V (a.drop L.length) (o.drop L.length) (n.drop L.length)) := by
  induction cs with
  | nil =>
    intro _ i childLeft edit L V a o n hi hspans _ hat hlt
    obtain rfl : V = [] := hspans
    rw [ChildLoop.run, editTrees, SpansAll]
    by_cases hle : o.length ≤ L.length
    · exact hat.newText_eq (Nat.pos_of_ne_zero fun h => hi h rfl) hle
    · have hao := hat.reads.start_old.length_le
      rw [newText, if_neg]
      simp only [length_drop, length_nil]
      omega
  | cons c cs ih =>
    intro hcs i childLeft edit L V a o n _ hspans hcovered hat hlt
    obtain ⟨U, V, rfl, hU, hV⟩ := hspans
    obtain ⟨hend, hcovered_c, hcovered_cs⟩ := hcovered
    have hcs' : ∀ c ∈ cs, FollowsEdits R c := fun s hs => hcs s (mem_cons_of_mem c hs)
    have htotal := hU.totalBytes hR
    have hendByte : c.endByte = U.length + c.lookaheadBytes := by rw [Subtree.endByte, htotal]
    have hlen : (L ++ U).length = L.length + U.length := length_append
    have hright : R (childLeft.add c.totalSize) (L ++ U) :=
      hR.add hat.left (hU.totalSize hR (by omega)) (by omega)
    have hcovered' : CoveredBy limit (L ++ U).length cs := by
      rw [hlen, ← htotal]
      exact hcovered_cs
    obtain ⟨hstart, hold, hnew⟩ := hat.reads.bytes hR
    have hdrop : ∀ w : List β, (w.drop L.length).drop U.length = w.drop (L ++ U).length :=
      fun w => by rw [drop_drop, hlen]
    have hshift := hat.shift hR
    have hcmp : Comparable (o.drop L.length) (U ++ V) := hat.comparable.drop
    have hcmpU : Comparable (o.drop L.length) U :=
      (hcmp.symm.of_isPrefix (prefix_append U V)).symm
    -- The child ends before the edit, or it takes part in it.
    have hbefore : (L ++ U).length ≤ a.length →
        newText (U ++ V) (a.drop L.length) (o.drop L.length) (n.drop L.length) =
          U ++ newText V (a.drop (L ++ U).length) (o.drop (L ++ U).length)
            (n.drop (L ++ U).length) := by
      intro hle
      rw [newText_append_before hshift.start_old hshift.start_new, hdrop, hdrop, hdrop]
      exact (hcmpU.of_isPrefix hshift.start_old).symm.isPrefix
        (by rw [length_drop]; omega)
    rw [ChildLoop.run, hR.bytes hright, addU32_of_lt (by omega), hstart, hat.pure]
    by_cases hskip : (L ++ U).length + c.lookaheadBytes < a.length
    · rw [if_pos hskip, editTrees]
      rw [hbefore (by omega)] at hlt ⊢
      rw [length_append] at hlt
      exact ⟨U, _, rfl, hU, ih hcs' (by simp) hV hcovered'
        (hat.next hright (by omega) (by omega)) (by omega)⟩
    rw [if_neg hskip]
    by_cases hstop : loop.stops edit i childLeft c = true
    · rw [if_pos hstop, editTrees, editTrees_map_none]
      simp only [ChildLoop.stops, Bool.and_eq_true, Bool.or_eq_true, decide_eq_true_eq,
        beq_iff_eq, hR.bytes hat.left, hold] at hstop
      have hi : 0 < i := by
        refine Nat.pos_of_ne_zero fun hi => ?_
        rw [hat.first hi, length_nil] at hstop
        omega
      rw [hat.newText_eq hi (by omega)]
      exact ⟨U, V, rfl, hU, hV⟩
    rw [if_neg hstop]
    by_cases htouch : (L ++ U).length > a.length ∨
        (L ++ U).length = a.length ∧ (o.length == a.length) = true
    · rw [if_pos htouch, editTrees]
      have htouch' : (a.drop L.length).length < U.length ∨
          (a.drop L.length).length = U.length ∧
            (o.drop L.length).length = (a.drop L.length).length ∨
          U = [] ∧ a.drop L.length = [] ∧ n.drop L.length = [] := by
        rw [beq_iff_eq] at htouch
        simp only [length_drop]
        by_cases hle : L.length ≤ a.length
        · omega
        · -- An earlier child has touched the edit.
          have hi : 0 < i := by
            refine Nat.pos_of_ne_zero fun hi => ?_
            rw [hat.first hi] at hle
            exact hle (Nat.zero_le _)
          have hn : n = a := hat.inserted hi (by omega)
          have hnil : a.drop L.length = [] := drop_eq_nil_of_le (by omega)
          rcases Nat.eq_zero_or_pos U.length with hzero | hpos
          · exact Or.inr (Or.inr ⟨eq_nil_of_length_eq_zero hzero, hnil, by rw [hn, hnil]⟩)
          · omega
      rw [newText_append_touching htouch' hshift.start_old, hdrop, hdrop] at hlt ⊢
      rw [length_append] at hlt
      exact ⟨_, _, rfl,
        hcs c mem_cons_self _ _ _ _ _ hU hcovered_c (by omega) hshift hcmpU (by omega),
        ih hcs' (by simp) hV hcovered' (hat.nextTouched hright) (by omega)⟩
    · rw [if_neg htouch, editTrees]
      rw [beq_iff_eq] at htouch
      have hself : newText U (a.drop L.length) (a.drop L.length) (a.drop L.length) = U :=
        newText_self (hcmpU.of_isPrefix hshift.start_old)
      rw [hbefore (by omega)] at hlt ⊢
      rw [length_append] at hlt
      have hchild := hcs c mem_cons_self _ _ _ _ _ hU hcovered_c (by omega) hshift.atStart
        (hcmpU.of_isPrefix hshift.start_old) (by rw [hself]; omega)
      rw [hself] at hchild
      exact ⟨U, _, rfl, hchild, ih hcs' (by simp) hV hcovered'
        (hat.next hright (by omega) (by omega)) (by omega)⟩

/-! ### The padding of the first child -/

variable {padding : Length}

theorem resize_padding_bytes (size : Length) (h : edit.oldEnd.bytes ≤ padding.bytes →
      edit.newEnd.bytes + (padding.bytes - edit.oldEnd.bytes) < 2 ^ 32) :
    (edit.resize padding size).1.bytes =
      if edit.oldEnd.bytes ≤ padding.bytes then
        edit.newEnd.bytes + (padding.bytes - edit.oldEnd.bytes)
      else if edit.start.bytes < padding.bytes then edit.newEnd.bytes
      else padding.bytes := by
  rw [Edit.resize]
  split
  · rename_i hle
    rw [Length.add_bytes (by rw [Length.sub_bytes]; exact h hle), Length.sub_bytes]
  · split
    · rfl
    · split <;> rfl

theorem editTree_of_misses (h : edit.misses t = true) :
    editTree edit t = t := by
  cases t with
  | inline data | heap data children => rw [editTree, if_pos h]

theorem padding_setLengths (data : InlineData) (padding size : Length) :
    (data.setLengths padding size).padding = padding := by
  rw [InlineData.setLengths]
  split <;> rfl

theorem editTree_padding (h : ¬ edit.misses t = true) :
    (editTree edit t).padding = (edit.resize t.padding t.size).1 := by
  cases t with
  | inline data => rw [editTree, if_neg h, padding_setLengths]
  | heap data children =>
    rw [editTree, if_neg h]
    rfl

theorem editTree_padding_of_noop (hold : edit.oldEnd.bytes = edit.start.bytes)
    (hnew : edit.newEnd.bytes = edit.start.bytes) (hlt : t.endByte < 2 ^ 32) :
    (editTree edit t).padding.bytes = t.padding.bytes := by
  have hle : t.padding.bytes ≤ t.endByte := by
    rw [Subtree.endByte, Subtree.totalBytes]
    omega
  by_cases hmiss : edit.misses t = true
  · rw [editTree_of_misses hmiss]
  · rw [editTree_padding hmiss, resize_padding_bytes _ (by omega)]
    split
    · omega
    · split
      · omega
      · rfl

theorem editTrees_first_padding (loop : ChildLoop) (size : Length) {first : Subtree}
    (rest : List Subtree) (hpadding : padding.bytes = first.padding.bytes)
    (hlt : first.endByte < 2 ^ 32) (hpure : loop.isPureInsertion = edit.isPureInsertion)
    (hold : edit.start.bytes ≤ edit.oldEnd.bytes) (hnew : edit.start.bytes ≤ edit.newEnd.bytes) (h
      : edit.oldEnd.bytes ≤ padding.bytes → edit.newEnd.bytes + (padding.bytes -
      edit.oldEnd.bytes) < 2 ^ 32) :
    ∃ first' rest', editTrees (loop.run 0 Length.zero edit (first :: rest)) (first :: rest) =
      first' :: rest' ∧ (edit.resize padding size).1.bytes = first'.padding.bytes := by
  have hend : first.endByte = first.totalBytes + first.lookaheadBytes := rfl
  have htotal : first.totalBytes = first.padding.bytes + first.size.bytes := rfl
  have hright : (Length.zero.add first.totalSize).bytes = first.totalBytes := by
    have hsize : first.totalSize.bytes = first.totalBytes := Subtree.totalSize_bytes (by omega)
    rw [Length.add_bytes (by rw [hsize, Length.zero_bytes]; omega), hsize, Length.zero_bytes,
      Nat.zero_add]
  have hpure' : edit.isPureInsertion = true ↔ edit.oldEnd.bytes = edit.start.bytes := by
    rw [Edit.isPureInsertion, beq_iff_eq]
  rw [resize_padding_bytes size h, ChildLoop.run, hright, addU32_of_lt (by omega), hpure]
  simp only [hpure']
  by_cases hskip : first.totalBytes + first.lookaheadBytes < edit.start.bytes
  · rw [if_pos hskip, editTrees]
    exact ⟨_, _, rfl, by rw [if_neg (by omega), if_neg (by omega), hpadding]⟩
  rw [if_neg hskip]
  by_cases hstop : loop.stops edit 0 Length.zero first = true
  · simp [ChildLoop.stops] at hstop
  rw [if_neg hstop]
  have hzero : ∀ l : Length, (l.saturatingSub Length.zero).bytes = l.bytes := fun l => by
    rw [Length.saturatingSub_bytes, Length.zero_bytes, Nat.sub_zero]
  by_cases htouch : first.totalBytes > edit.start.bytes ∨
      first.totalBytes = edit.start.bytes ∧ edit.oldEnd.bytes = edit.start.bytes
  · rw [if_pos htouch, editTrees]
    refine ⟨_, _, rfl, ?_⟩
    by_cases hmiss : (edit.shift Length.zero).misses first = true
    · -- Only an edit that changes nothing misses a child it touches.
      rw [editTree_of_misses hmiss]
      simp only [misses_iff hlt, Edit.shift, hzero] at hmiss
      split
      · omega
      · split <;> omega
    · rw [editTree_padding hmiss, resize_padding_bytes]
      · simp only [Edit.shift, hzero, hpadding]
      · simp only [Edit.shift, hzero, ← hpadding]
        exact h
  · rw [if_neg htouch, editTrees]
    refine ⟨_, _, rfl, ?_⟩
    rw [editTree_padding_of_noop rfl rfl hlt, if_neg (by omega), if_neg (by omega), hpadding]

/-! ### Whole trees -/

/-- A leaf stored in place keeps only the bytes of its size, which is all there is to know of
a text without a newline. -/
theorem spans_setLengths (hR : Measures R) (data : InlineData) {size : Length} {P S : List β}
    (hP : R padding P) (hS : R size S) :
    Spans R (data.setLengths padding size) (P ++ S) := by
  rw [InlineData.setLengths]
  split
  · rename_i hinline
    simp only [canInline, Bool.and_eq_true, beq_iff_eq] at hinline
    exact ⟨P, S, rfl, hP, hR.inline hS hinline.1.1.2⟩
  · exact ⟨P, S, rfl, hP, hS⟩

mutual

/-- **The edited tree is laid over the edited text.** -/
theorem editTree_spans (hR : Measures R) : ∀ t : Subtree, FollowsEdits R t
  | .inline data => by
    intro T a o n edit hspans _ hlt hreads hcmp hnew
    by_cases hmiss : edit.misses (.inline data) = true
    · rw [editTree_of_misses hmiss, newText_of_misses hR hspans hreads hcmp hlt hmiss]
      exact hspans
    · have htotal := hspans.totalBytes hR
      rw [Subtree.endByte] at hlt
      obtain ⟨P, S, rfl, hP, hS⟩ := hspans
      obtain ⟨P', S', htext, hP', hS'⟩ := hreads.resize hR hP hS hcmp (by omega) hnew
      rw [editTree, if_neg hmiss, htext]
      exact spans_setLengths hR data hP' hS'
  | .heap data [] => by
    intro T a o n edit hspans _ hlt hreads hcmp hnew
    by_cases hmiss : edit.misses (.heap data []) = true
    · rw [editTree_of_misses hmiss, newText_of_misses hR hspans hreads hcmp hlt hmiss]
      exact hspans
    · have htotal := hspans.totalBytes hR
      rw [Subtree.endByte] at hlt
      obtain ⟨P, S, rfl, hP, hS⟩ := hspans
      obtain ⟨P', S', htext, hP', hS'⟩ := hreads.resize hR hP hS hcmp (by omega) hnew
      rw [editTree, if_neg hmiss, htext]
      exact ⟨P', S', rfl, hP', hS'⟩
  | .heap data (first :: rest) => by
    intro T a o n edit hspans hcovered hlt hreads hcmp hnew
    by_cases hmiss : edit.misses (.heap data (first :: rest)) = true
    · rw [editTree_of_misses hmiss, newText_of_misses hR hspans hreads hcmp hlt hmiss]
      exact hspans
    · have htotal := hspans.totalBytes hR
      obtain ⟨hreadsAs, hpadding, hall⟩ := hspans
      obtain ⟨hstart, hold, hnewEnd⟩ := hreads.bytes hR
      have hat : AtChild R ((Subtree.heap data (first :: rest)).childLoop edit) 0 Length.zero
          edit [] T a o n :=
        { left := hR.zero
          reads := hreads
          comparable := hcmp
          pure := by rw [Subtree.childLoop, Edit.isPureInsertion, hstart, hold]
          first := fun _ => rfl
          inserted := fun h => absurd h (Nat.lt_irrefl 0) }
      have hlimit : CoveredBy (Subtree.heap data (first :: rest)).endByte
          ([] : List β).length (first :: rest) := hcovered
      have hchildren := run_spansAll hR _ hlt (first :: rest)
        (editTree_spansAll hR (first :: rest)) (fun _ => cons_ne_nil _ _) hall hlimit hat
        hnew
      have hlt_first : first.endByte < 2 ^ 32 := by
        have hle := hcovered.1
        rw [Nat.zero_add] at hle
        exact lt_of_le_of_lt hle hlt
      obtain ⟨P, S, rfl, hP, hS⟩ := hreadsAs
      have hbound : edit.oldEnd.bytes ≤ data.padding.bytes →
          edit.newEnd.bytes + (data.padding.bytes - edit.oldEnd.bytes) < 2 ^ 32 := by
        rw [hold, hnewEnd, hR.bytes hP]
        intro hle
        have hao := hreads.start_old.length_le
        rw [newText, if_pos (by rw [length_append]; omega), length_append,
          length_drop, length_append] at hnew
        omega
      obtain ⟨first', rest', hcons, hfirst⟩ := editTrees_first_padding
        ((Subtree.heap data (first :: rest)).childLoop edit) data.size rest hpadding hlt_first rfl
        (by rw [hstart, hold]; exact hreads.start_old.length_le)
        (by rw [hstart, hnewEnd]; exact hreads.start_new.length_le) hbound
      rw [Subtree.endByte] at hlt
      obtain ⟨P', S', htext, hP', hS'⟩ := hreads.resize hR hP hS hcmp (by omega) hnew
      have hedits : editTrees ((Subtree.heap data (first :: rest)).childEdits edit)
          (first :: rest) = first' :: rest' := hcons
      rw [hcons] at hchildren
      rw [editTree, if_neg hmiss, hedits]
      exact ⟨⟨P', S', htext, hP', hS'⟩, hfirst, hchildren⟩

theorem editTree_spansAll (hR : Measures R) : ∀ (ts : List Subtree), ∀ t ∈ ts, FollowsEdits R t
  | [], _, h => by cases h
  | t :: ts, s, h => by
    rcases mem_cons.mp h with heq | h
    · exact heq ▸ editTree_spans hR t
    · exact editTree_spansAll hR ts s h

end

end TreeSitter.Lib
