import TreeSitter.Lib.LossyUtf8

/-!
# TreeSitter.Lib.Utf8Chunks

`LossyUtf8` compared with **`String::from_utf8_lossy`**. The standard library cuts the bytes into
chunks of valid text, each with the invalid sequence behind it, and puts one replacement character
for every such sequence. `LossyUtf8` looks at the bytes that are left before it looks at the
pending replacement, so the last replacement is lost if nothing follows it
(`lossyBytes_not_fromUtf8Lossy`). And it ends in front of an incomplete character, with the valid
text before it. `lossyBytes_eq_fromUtf8Lossy_iff` says which byte strings come out right.
-/

namespace TreeSitter.Lib

open List

/-! ### The standard library -/

/-- `core::str::Utf8Chunk`: valid text, and the invalid sequence that follows it. -/
structure Utf8Chunk where
  valid : List UInt8
  invalid : List UInt8

theorem ne_nil_of_utf8Error {bytes : List UInt8} {error : Utf8Error}
    (h : utf8Error bytes = some error) : bytes ≠ [] := by
  rintro rfl
  cases h

/-- `[u8]::utf8_chunks`: every maximal invalid sequence ends a chunk. -/
def utf8Chunks (bytes : List UInt8) : List Utf8Chunk :=
  if bytes = [] then []
  else
    match _herror : utf8Error bytes with
    | none => [⟨bytes, []⟩]
    | some ⟨errorStart, some errorLen⟩ =>
      ⟨bytes.take errorStart, (bytes.drop errorStart).take errorLen⟩ ::
        utf8Chunks (bytes.drop (errorStart + errorLen))
    | some ⟨errorStart, none⟩ => [⟨bytes.take errorStart, bytes.drop errorStart⟩]
termination_by bytes.length
decreasing_by
  have hlen := LossyUtf8.errorLen_pos _herror
  have hpos := length_pos_iff.mpr (ne_nil_of_utf8Error _herror)
  rw [length_drop]
  omega

namespace Utf8Chunk

/-- What `String::from_utf8_lossy` writes for a chunk. -/
def lossy (chunk : Utf8Chunk) : List UInt8 :=
  if chunk.invalid = [] then chunk.valid else chunk.valid ++ LossyUtf8.replacement

/-- The invalid sequence is a character that the end of the bytes cuts off. -/
def Truncated (chunk : Utf8Chunk) : Prop := utf8Error chunk.invalid = some ⟨0, none⟩

instance (chunk : Utf8Chunk) : Decidable chunk.Truncated :=
  inferInstanceAs (Decidable (_ = _))

/-- The chunk can stand at the end of what `LossyUtf8` reads: nothing in it is invalid, or it is
one invalid sequence with no text in front of it, and not a character that is cut off. -/
def EndsWell (chunk : Utf8Chunk) : Prop :=
  chunk.invalid = [] ∨ chunk.valid = [] ∧ ¬ chunk.Truncated

instance (chunk : Utf8Chunk) : Decidable chunk.EndsWell :=
  inferInstanceAs (Decidable (_ ∨ _))

end Utf8Chunk

/-- `String::from_utf8_lossy`. -/
def fromUtf8Lossy (bytes : List UInt8) : List UInt8 := (utf8Chunks bytes).flatMap Utf8Chunk.lossy

variable {bytes : List UInt8} {errorStart errorLen : Nat}

theorem utf8Chunks_nil : utf8Chunks [] = [] := by
  rw [utf8Chunks, if_pos rfl]

theorem utf8Chunks_of_valid (hne : bytes ≠ []) (h : utf8Error bytes = none) :
    utf8Chunks bytes = [⟨bytes, []⟩] := by
  rw [utf8Chunks, if_neg hne]
  split <;> simp_all

theorem utf8Chunks_of_error (h : utf8Error bytes = some ⟨errorStart, some errorLen⟩) :
    utf8Chunks bytes = ⟨bytes.take errorStart, (bytes.drop errorStart).take errorLen⟩ ::
      utf8Chunks (bytes.drop (errorStart + errorLen)) := by
  rw [utf8Chunks, if_neg (ne_nil_of_utf8Error h)]
  split <;> simp_all

theorem utf8Chunks_of_truncated (h : utf8Error bytes = some ⟨errorStart, none⟩) :
    utf8Chunks bytes = [⟨bytes.take errorStart, bytes.drop errorStart⟩] := by
  rw [utf8Chunks, if_neg (ne_nil_of_utf8Error h)]
  split <;> simp_all

theorem utf8Chunks_eq_nil_iff : utf8Chunks bytes = [] ↔ bytes = [] := by
  refine ⟨fun h => ?_, fun h => h ▸ utf8Chunks_nil⟩
  by_contra hne
  match herror : utf8Error bytes with
  | none => simp [utf8Chunks_of_valid hne herror] at h
  | some ⟨_, some _⟩ => simp [utf8Chunks_of_error herror] at h
  | some ⟨_, none⟩ => simp [utf8Chunks_of_truncated herror] at h

theorem utf8ErrorFrom_drop {valid errorStart : Nat} {errorLen : Option Nat} {bytes : List UInt8}
    (h : utf8ErrorFrom valid bytes = some ⟨errorStart, errorLen⟩) :
    valid ≤ errorStart ∧ utf8Error (bytes.drop (errorStart - valid)) = some ⟨0, errorLen⟩ := by
  fun_induction utf8ErrorFrom valid bytes
  case case2 valid first rest hfirst ih =>
    obtain ⟨hle, hdrop⟩ := ih h
    rw [show errorStart - valid = errorStart - (valid + 1) + 1 by omega]
    exact ⟨by omega, hdrop⟩
  case case4 valid first hascii htwo second rest hsecond ih =>
    obtain ⟨hle, hdrop⟩ := ih h
    rw [show errorStart - valid = errorStart - (valid + 2) + 2 by omega]
    exact ⟨by omega, hdrop⟩
  case case10 valid first hascii htwo hthree second third rest hsecond hthird ih =>
    obtain ⟨hle, hdrop⟩ := ih h
    rw [show errorStart - valid = errorStart - (valid + 3) + 3 by omega]
    exact ⟨by omega, hdrop⟩
  case case20 valid first hascii htwo hthree hfour second third fourth rest hsecond hthird hfourth
      ih =>
    obtain ⟨hle, hdrop⟩ := ih h
    rw [show errorStart - valid = errorStart - (valid + 4) + 4 by omega]
    exact ⟨by omega, hdrop⟩
  case case22 valid first rest hascii htwo hthree hfour =>
    -- not the first byte of a character
    cases h
    rw [Nat.sub_self, drop_zero, utf8Error, utf8ErrorFrom.eq_def]
    simp only [hascii, htwo, hthree, hfour, if_false, le_refl, true_and, Bool.false_eq_true]
  all_goals
    -- the error is here, or there is none
    simp only [Option.some.injEq, Utf8Error.mk.injEq, reduceCtorEq] at h
    try
      obtain ⟨rfl, rfl⟩ := h
      try simp only [Bool.not_eq_true, Bool.not_eq_true'] at *
      simp only [Nat.sub_self, drop_zero, le_refl, true_and, utf8Error, utf8ErrorFrom,
        if_true, if_false, Bool.false_eq_true, Bool.not_true, Bool.not_false, *]

/-! ### What the iterator yields -/

namespace LossyUtf8

theorem collect_nil (inReplacement : Bool) : collect ⟨[], inReplacement⟩ = [] := by
  rw [collect_eq, next, if_pos rfl]

theorem collect_inReplacement (bytes : List UInt8) :
    (collect ⟨bytes, true⟩).flatten =
      (if bytes = [] then [] else replacement) ++ lossyBytes bytes := by
  by_cases hne : bytes = []
  · rw [hne, lossyBytes, new, collect_nil, collect_nil]
    rfl
  · rw [collect_eq, next, if_neg hne, if_pos rfl, if_neg hne]
    rfl

theorem lossyBytes_of_valid (h : utf8Error bytes = none) : lossyBytes bytes = bytes := by
  rw [lossyBytes, collect_eq, next, new]
  by_cases hne : bytes = []
  · simp [hne]
  · simp [hne, h, collect_nil]

theorem lossyBytes_of_error_zero (h : utf8Error bytes = some ⟨0, some errorLen⟩) :
    lossyBytes bytes = replacement ++ lossyBytes (bytes.drop errorLen) := by
  rw [lossyBytes, collect_eq, next, new]
  simp only [ne_nil_of_utf8Error h, h, if_false, Bool.false_eq_true, Nat.lt_irrefl, flatten_cons]
  rfl

/-- An invalid sequence behind text is replaced if something follows. -/
theorem lossyBytes_of_error_pos (hpos : 0 < errorStart)
    (h : utf8Error bytes = some ⟨errorStart, some errorLen⟩) :
    lossyBytes bytes = bytes.take errorStart ++
      ((if bytes.drop (errorStart + errorLen) = [] then [] else replacement) ++
        lossyBytes (bytes.drop (errorStart + errorLen))) := by
  rw [lossyBytes, collect_eq, next, new]
  simp only [ne_nil_of_utf8Error h, h, hpos, if_false, if_true, Bool.false_eq_true,
    flatten_cons, collect_inReplacement]

theorem lossyBytes_of_truncated (h : utf8Error bytes = some ⟨errorStart, none⟩) :
    lossyBytes bytes = [] := by
  rw [lossyBytes, collect_eq, next, new]
  simp only [ne_nil_of_utf8Error h, h, if_false, Bool.false_eq_true, flatten_nil]

/-! ### Where the two agree -/

theorem replacement_ne_nil : replacement ≠ [] := by decide

/-- **A byte string comes out as `String::from_utf8_lossy` writes it if and only if its last chunk
ends well**: no invalid sequence is in it, or nothing but a whole invalid sequence. -/
theorem lossyBytes_eq_fromUtf8Lossy_iff (bytes : List UInt8) :
    lossyBytes bytes = fromUtf8Lossy bytes ↔
      ∀ chunk ∈ (utf8Chunks bytes).getLast?, chunk.EndsWell := by
  fun_induction utf8Chunks bytes with
  | case1 =>
    have hnil : lossyBytes [] = [] := lossyBytes_of_valid rfl
    simp [utf8Chunks_nil, fromUtf8Lossy, hnil]
  | case2 bytes hne herror =>
    simp [fromUtf8Lossy, utf8Chunks_of_valid hne herror, lossyBytes_of_valid herror,
      Utf8Chunk.lossy, Utf8Chunk.EndsWell]
  | case3 bytes hne errorStart errorLen herror ih =>
    have hdrop := (utf8ErrorFrom_drop herror).2
    rw [Nat.sub_zero] at hdrop
    have hbad : (bytes.drop errorStart).take errorLen ≠ [] := by
      rw [Ne, take_eq_nil_iff]
      exact fun h => h.elim (errorLen_pos herror).ne' (ne_nil_of_utf8Error hdrop)
    have hspec : fromUtf8Lossy bytes = bytes.take errorStart ++ (replacement ++
        fromUtf8Lossy (bytes.drop (errorStart + errorLen))) := by
      rw [fromUtf8Lossy, utf8Chunks_of_error herror, flatMap_cons, ← fromUtf8Lossy,
        Utf8Chunk.lossy, if_neg hbad, append_assoc]
    by_cases hrest : bytes.drop (errorStart + errorLen) = []
    · have htake : (bytes.drop errorStart).take errorLen = bytes.drop errorStart := by
        apply take_of_length_le
        rw [drop_eq_nil_iff] at hrest
        rw [length_drop]
        omega
      have hwhole : ¬ utf8Error (bytes.drop errorStart) = some ⟨0, none⟩ := by
        rw [hdrop]
        simp
      rw [hspec, hrest, utf8Chunks_nil, htake, fromUtf8Lossy, utf8Chunks_nil]
      simp only [getLast?_singleton, Option.mem_some_iff, forall_eq', flatMap_nil,
        append_nil, Utf8Chunk.EndsWell, Utf8Chunk.Truncated, hwhole, not_false_eq_true,
        and_true, ne_nil_of_utf8Error hdrop, false_or]
      have hnil : lossyBytes [] = [] := lossyBytes_of_valid rfl
      rcases Nat.eq_zero_or_pos errorStart with rfl | hpos
      · rw [Nat.zero_add] at hrest
        simp [lossyBytes_of_error_zero herror, hrest, hnil]
      · -- the pending replacement is lost
        have htext : bytes.take errorStart ≠ [] := by
          simp [take_eq_nil_iff, hne, hpos.ne']
        simp [lossyBytes_of_error_pos hpos herror, hrest, hnil, htext, replacement_ne_nil]
    · have hlast : (utf8Chunks bytes).getLast? =
          (utf8Chunks (bytes.drop (errorStart + errorLen))).getLast? := by
        rw [utf8Chunks_of_error herror, getLast?_cons_of_ne_nil]
        exact mt utf8Chunks_eq_nil_iff.mp hrest
      rw [← utf8Chunks_of_error herror, hlast, ← ih, hspec]
      rcases Nat.eq_zero_or_pos errorStart with rfl | hpos
      · rw [lossyBytes_of_error_zero herror, take_zero, nil_append, Nat.zero_add,
          append_cancel_left_eq]
      · rw [lossyBytes_of_error_pos hpos herror, if_neg hrest, append_cancel_left_eq,
          append_cancel_left_eq]
  | case4 bytes hne errorStart herror =>
    have hdrop := (utf8ErrorFrom_drop herror).2
    rw [Nat.sub_zero] at hdrop
    have hbad := ne_nil_of_utf8Error hdrop
    simp [lossyBytes_of_truncated herror, fromUtf8Lossy, utf8Chunks_of_truncated herror,
      Utf8Chunk.lossy, Utf8Chunk.EndsWell, Utf8Chunk.Truncated, hdrop, hbad, replacement_ne_nil]

/-- The replacement at the very end is lost. -/
theorem lossyBytes_not_fromUtf8Lossy :
    ¬ ∀ bytes, lossyBytes bytes = fromUtf8Lossy bytes := by
  intro h
  have hbytes := h [0x61, 0x62, 0x63, 0xFF]
  have herror : utf8Error [0x61, 0x62, 0x63, 0xFF] = some ⟨3, some 1⟩ := by decide
  rw [fromUtf8Lossy, utf8Chunks_of_error herror] at hbytes
  simp only [List.drop, utf8Chunks_nil] at hbytes
  revert hbytes
  decide

end LossyUtf8

end TreeSitter.Lib
