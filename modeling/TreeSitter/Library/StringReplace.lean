import Mathlib

/-!
# Library.StringReplace

**Replacing a text in a text.** `String.replace` looks for the pattern from the left, and goes on
behind each place where it is found. On the characters this is `replaceChars`.
-/

namespace Library

open List String.Slice.Pattern String.Slice.Pattern.Model

def replaceChars (pattern replacement : List Char) : List Char → List Char
  | [] => []
  | c :: chars =>
    if pattern <+: c :: chars then
      replacement ++ replaceChars pattern replacement (chars.drop (pattern.length - 1))
    else c :: replaceChars pattern replacement chars
  termination_by chars => chars.length

theorem replaceChars_nil (pattern replacement : List Char) :
    replaceChars pattern replacement [] = [] := by rw [replaceChars]

theorem replaceChars_append {pattern : List Char} (h : pattern ≠ []) (replacement rest : List Char) :
    replaceChars pattern replacement (pattern ++ rest) =
      replacement ++ replaceChars pattern replacement rest := by
  cases pattern with
  | nil => exact absurd rfl h
  | cons c chars =>
    rw [cons_append, replaceChars, if_pos ⟨rest, rfl⟩, length_cons, Nat.add_sub_cancel, drop_left]

theorem replaceChars_cons {pattern replacement chars : List Char} {c : Char}
    (h : ¬ pattern <+: c :: chars) :
    replaceChars pattern replacement (c :: chars) =
      c :: replaceChars pattern replacement chars := by
  rw [replaceChars, if_neg h]

/-! ### Positions -/

section Positions

variable {s : String.Slice} {pattern replacement : String}

/-- Where the pattern is not found, it does not stand in front of the rest. -/
theorem not_isPrefix_of_not_matchesAt {pos : s.Pos} {front rest : String}
    (hpos : pos.Splits front rest) (h : ¬ MatchesAt pattern pos) :
    ¬ pattern.toList <+: rest.toList := by
  rintro ⟨chars, hchars⟩
  refine h (ForwardStringSearcher.matchesAt_iff_splits.mpr ⟨front, String.ofList chars, ?_⟩)
  have hrest : rest = pattern ++ String.ofList chars := by
    rw [← String.toList_inj, String.toList_append, String.toList_ofList, hchars]
  rwa [hrest] at hpos

theorem replaceChars_of_not_matchesAt {stop : s.Pos} {front' rest' : String}
    (hstop : stop.Splits front' rest') (start : s.Pos) :
    ∀ front rest, start.Splits front rest → start ≤ stop →
      (∀ pos, start ≤ pos → pos < stop → ¬ MatchesAt pattern pos) →
        ∃ middle, rest.toList = middle ++ rest'.toList ∧
          replaceChars pattern.toList replacement.toList rest.toList =
            middle ++ replaceChars pattern.toList replacement.toList rest'.toList := by
  induction start using WellFounded.induction String.Slice.Pos.wellFounded_gt with
  | h start ih =>
    intro front rest hstart hle hnone
    by_cases hlt : start < stop
    · have hne := String.Slice.Pos.ne_endPos_of_lt hlt
      obtain ⟨tail, rfl⟩ := hstart.exists_eq_singleton_append hne
      obtain ⟨middle, hmiddle, hreplace⟩ := ih (start.next hne) String.Slice.Pos.lt_next _ _
        hstart.next (String.Slice.Pos.next_le_iff_lt.mpr hlt) fun pos hpos =>
          hnone pos (Std.le_of_lt (Std.lt_of_lt_of_le String.Slice.Pos.lt_next hpos))
      have hprefix := not_isPrefix_of_not_matchesAt hstart (hnone start (Std.le_refl _) hlt)
      rw [String.toList_append, String.toList_singleton, singleton_append] at hprefix ⊢
      exact ⟨_ :: middle, congrArg (List.cons _) hmiddle, by
        rw [replaceChars_cons hprefix, hreplace, cons_append]⟩
    · have heq : start = stop := Std.le_antisymm hle (Std.not_lt.mp hlt)
      subst heq
      exact ⟨[], by rw [hstart.eq_right hstop, nil_append],
        by rw [hstart.eq_right hstop, nil_append]⟩

def addStep (s : String.Slice) (replacement sofar : String) : SearchStep s → String
  | .matched _ _ => sofar ++ replacement.toSlice
  | .rejected start stop => sofar ++ s.slice! start stop

/-- **The steps of a search** put the text together, from a position on. -/
theorem toList_foldl_addStep (hpattern : pattern ≠ "") {start : s.Pos}
    {steps : List (SearchStep s)} (h : IsValidSearchFrom pattern start steps) :
    ∀ front rest, start.Splits front rest → ∀ sofar : String,
      (steps.foldl (addStep s replacement) sofar).toList =
        sofar.toList ++ replaceChars pattern.toList replacement.toList rest.toList := by
  induction h with
  | endPos =>
    intro front rest hrest sofar
    have hnil := hrest.eq_right (String.Slice.splits_endPos s)
    rw [hnil, String.toList_empty, replaceChars_nil, foldl_nil, append_nil]
  | @matched steps start stop hmatch _ ih =>
    intro front rest hrest sofar
    obtain ⟨front', rest', hstart, hstop⟩ :=
      ForwardStringSearcher.isLongestMatchAt_iff_splits.mp hmatch
    have hne : pattern.toList ≠ [] := fun hnil => hpattern (String.toList_eq_nil_iff.mp hnil)
    rw [hrest.eq_right hstart, String.toList_append, replaceChars_append hne, foldl_cons,
      ih _ _ hstop, addStep]
    simp
  | @mismatched steps start stop hlt hnone _ ih =>
    intro front rest hrest sofar
    have hle : start ≤ stop := Std.le_of_lt hlt
    obtain ⟨front', rest', hstart, hstop⟩ :=
      String.Slice.copy_slice_eq_iff_splits.mp ⟨hle, rfl⟩
    obtain ⟨middle, hmiddle, hreplace⟩ :=
      replaceChars_of_not_matchesAt hstop start front rest hrest hle hnone
    have hslice : middle = (s.slice start stop hle).copy.toList := by
      rw [hrest.eq_right hstart, String.toList_append] at hmiddle
      exact (append_cancel_right hmiddle).symm
    rw [hreplace, foldl_cons, ih _ _ hstop, addStep, ← String.Slice.slice_eq_slice! (h := hle),
      hslice]
    simp

end Positions

/-- **Replacing a text** on its characters. -/
theorem toList_replace (s : String) {pattern : String} (h : pattern ≠ "") (replacement : String) :
    (s.replace pattern replacement).toList =
      replaceChars pattern.toList replacement.toList s.toList := by
  have hlawful := ForwardStringSearcher.lawfulToForwardSearcherModel h
  have hsteps := @toList_foldl_addStep s.toSlice pattern replacement h _ _
    (hlawful.isValidSearchFrom_toList s.toSlice) _ _ (String.Slice.splits_startPos s.toSlice) ""
  rw [Std.Iter.foldl_toList, String.toList_empty, nil_append, String.copy_toSlice] at hsteps
  rw [← hsteps, String.replace, String.Slice.replace]
  congr
  funext sofar step
  cases step <;> rfl

end Library
