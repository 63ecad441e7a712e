import TreeSitter.Lib.Language

/-!
# TreeSitter.Lib.SymbolForName

`ts_language_symbol_for_name`: the **symbol with a name**. A name comes with its length, and is
compared by `strncmp` with the names in the table, which end with a null byte. For a symbol it is
then tested that its name ends there; for `ERROR` it is not, so that a part of that name is taken
for it (`symbolForName_iff`).
-/

namespace TreeSitter.Lib

open List

/-! ### C strings -/

/-- What a pointer to a string reads, with what stands behind the null byte. -/
def cBytes : List UInt8 → (Nat → UInt8) → Nat → UInt8
  | [], _, 0 => 0
  | [], behind, j + 1 => behind j
  | c :: _, _, 0 => c
  | _ :: s, behind, j + 1 => cBytes s behind j

/-- Whether `strncmp` gives zero, for as many bytes as the list has. -/
def strncmpEq (s : Nat → UInt8) : List UInt8 → Bool
  | [] => true
  | c :: rest =>
    if s 0 ≠ c then false else if c = 0 then true else strncmpEq (fun j => s (j + 1)) rest

variable {behind : Nat → UInt8}

/-- `strncmp` is content with a part of the string, and with anything behind a null byte. -/
theorem strncmpEq_iff (name : List UInt8) : ∀ {s : List UInt8}, 0 ∉ s →
    (strncmpEq (cBytes s behind) name = true ↔ name <+: s ∨ ∃ rest, name = s ++ 0 :: rest) := by
  induction name with
  | nil => simp [strncmpEq]
  | cons c name ih =>
    intro s hs
    cases s with
    | nil =>
      by_cases hc : c = 0
      · simp [strncmpEq, cBytes, hc]
      · simp [strncmpEq, cBytes, hc, Ne.symm hc]
    | cons d s =>
      obtain ⟨hd, hs⟩ := ne_and_not_mem_of_not_mem_cons hs
      have hshift : (fun j => cBytes (d :: s) behind (j + 1)) = cBytes s behind := rfl
      rw [strncmpEq, hshift]
      by_cases hdc : d = c
      · subst hdc
        simp [cBytes, Ne.symm hd, ih hs, cons_prefix_cons]
      · simp [cBytes, hdc, Ne.symm hdc, cons_prefix_cons]

/-- With the test of the end, it is the string, or has it in front of a null byte. -/
theorem strncmpEq_and_end_iff (name : List UInt8) {s : List UInt8} (hs : 0 ∉ s) :
    (strncmpEq (cBytes s behind) name = true ∧ cBytes s behind name.length = 0) ↔
      name = s ∨ (∃ rest, name = s ++ 0 :: rest) ∧ cBytes s behind name.length = 0 := by
  have hin : ∀ {name s : List UInt8}, 0 ∉ s → name <+: s → cBytes s behind name.length = 0 →
      name = s := by
    intro name
    induction name with
    | nil =>
      intro s hs _ hzero
      cases s with
      | nil => rfl
      | cons d s => exact absurd (hzero ▸ mem_cons_self) hs
    | cons c name ih =>
      intro s hs hpart' hzero
      cases s with
      | nil => exact absurd hpart' (by simp)
      | cons d s =>
        obtain ⟨rfl, hin⟩ := cons_prefix_cons.mp hpart'
        rw [ih (not_mem_of_not_mem_cons hs) hin hzero]
  have hend : ∀ s : List UInt8, cBytes s behind s.length = 0 := by
    intro s
    induction s with
    | nil => rfl
    | cons d s ih => exact ih
  rw [strncmpEq_iff name hs]
  constructor
  · rintro ⟨hpart' | hrest, hzero⟩
    · exact .inl (hin hs hpart' hzero)
    · exact .inr ⟨hrest, hzero⟩
  · rintro (rfl | ⟨hrest, hzero⟩)
    · exact ⟨.inl prefix_rfl, hend _⟩
    · exact ⟨.inr hrest, hzero⟩

/-! ### The lookup -/

/-- `TSSymbolMetadata`. -/
structure TSSymbolMetadata where
  visible : Bool
  named : Bool
  supertype : Bool

/-- What the lookup reads of a language. The names have no null byte, and a public symbol is neither
the end nor the error symbol. -/
structure SymbolTable where
  /-- `symbol_count + alias_count`. -/
  count : Nat
  name : Nat → List UInt8
  behindName : Nat → Nat → UInt8
  metadata : Nat → TSSymbolMetadata
  publicSymbolMap : Nat → Nat
  count_lt : count < builtinSymErrorRepeat
  zero_not_mem : ∀ i, 0 ∉ name i
  public_ne : ∀ i, (metadata i).visible ∨ (metadata i).supertype →
    publicSymbolMap i ≠ 0 ∧ publicSymbolMap i ≠ builtinSymError

/-- The bytes of `ERROR`. -/
def errorName : List UInt8 := [69, 82, 82, 79, 82]

namespace SymbolTable

variable (self : SymbolTable)

/-- A symbol that the loop does not skip. -/
def Shown (isNamed : Bool) (i : Nat) : Prop :=
  ((self.metadata i).visible = true ∨ (self.metadata i).supertype = true) ∧
    (self.metadata i).named = isNamed

instance (isNamed : Bool) (i : Nat) : Decidable (self.Shown isNamed i) :=
  inferInstanceAs (Decidable (_ ∧ _))

/-- The test of a symbol's name. -/
def nameMatches (name : List UInt8) (i : Nat) : Bool :=
  strncmpEq (cBytes (self.name i) (self.behindName i)) name &&
    cBytes (self.name i) (self.behindName i) name.length == 0

/-- `ts_language_symbol_for_name`. -/
def symbolForName (name : List UInt8) (isNamed : Bool) : Nat :=
  -- The other string is not read behind its null byte.
  if isNamed && strncmpEq (cBytes errorName fun _ => 0) name then builtinSymError
  else
    match (List.range self.count).find? fun i => self.Shown isNamed i ∧ self.nameMatches name i with
    | some i => self.publicSymbolMap i
    | none => 0

def firstNamed (name : List UInt8) (isNamed : Bool) : Option Nat :=
  (List.range self.count).find? fun i => self.Shown isNamed i ∧ self.name i = name

/-- What the lookup is for. -/
structure Exact (table : SymbolTable) (name : List UInt8) (isNamed : Bool) : Prop where
  error_iff : table.symbolForName name isNamed = builtinSymError ↔
    isNamed = true ∧ name = errorName
  found : ¬ (isNamed = true ∧ name = errorName) → ∀ i ∈ table.firstNamed name isNamed,
    table.symbolForName name isNamed = table.publicSymbolMap i
  none_iff : ¬ (isNamed = true ∧ name = errorName) →
    (table.symbolForName name isNamed = 0 ↔ table.firstNamed name isNamed = none)

/-- The name is not taken for `ERROR`, and no symbol for what is in front of a null byte. -/
structure Distinct (table : SymbolTable) (name : List UInt8) (isNamed : Bool) : Prop where
  error : isNamed = true → (name <+: errorName ∨ ∃ rest, name = errorName ++ 0 :: rest) →
    name = errorName
  symbols : ∀ i < table.count, table.Shown isNamed i →
    (∃ rest, name = table.name i ++ 0 :: rest) → ¬ (isNamed = true ∧ name = errorName) →
      cBytes (table.name i) (table.behindName i) name.length ≠ 0

variable {self} {name : List UInt8} {isNamed : Bool}

theorem nameMatches_iff (i : Nat) : self.nameMatches name i = true ↔ name = self.name i ∨
    (∃ rest, name = self.name i ++ 0 :: rest) ∧
      cBytes (self.name i) (self.behindName i) name.length = 0 := by
  rw [nameMatches, Bool.and_eq_true, beq_iff_eq]
  exact strncmpEq_and_end_iff name (self.zero_not_mem i)

theorem isError_iff : (isNamed && strncmpEq (cBytes errorName fun _ => 0) name) = true ↔
    isNamed = true ∧ (name <+: errorName ∨ ∃ rest, name = errorName ++ 0 :: rest) := by
  rw [Bool.and_eq_true, strncmpEq_iff name (by decide)]

theorem public_ne_of_find? {p : Nat → Bool} {i : Nat}
    (h : (List.range self.count).find? (fun i => self.Shown isNamed i ∧ p i) = some i) :
    self.publicSymbolMap i ≠ 0 ∧ self.publicSymbolMap i ≠ builtinSymError := by
  have hfound := find?_some h
  rw [decide_eq_true_eq] at hfound
  exact self.public_ne i hfound.1.1

theorem Exact.distinct (h : self.Exact name isNamed) : self.Distinct name isNamed where
  error hnamed hpart := by
    refine (h.error_iff.mp ?_).2
    rw [symbolForName, if_pos (isError_iff.mpr ⟨hnamed, hpart⟩)]
  symbols i hi hshown hrest hne hzero := by
    have hnone : self.firstNamed name isNamed = none := by
      rw [firstNamed, find?_eq_none]
      rintro j - hj
      obtain ⟨rest, hrest⟩ := hrest
      rw [decide_eq_true_eq] at hj
      exact self.zero_not_mem j (hj.2 ▸ hrest ▸ by simp)
    have hresult := (h.none_iff hne).mpr hnone
    have hmatch : self.nameMatches name i = true := (nameMatches_iff i).mpr (.inr ⟨hrest, hzero⟩)
    rw [symbolForName] at hresult
    split at hresult
    next => exact absurd hresult (by decide)
    next =>
      split at hresult
      next j hj => exact (public_ne_of_find? hj).1 hresult
      next hfind =>
        rw [find?_eq_none] at hfind
        exact hfind i (mem_range.mpr hi) (by simp [hshown, hmatch])

theorem Distinct.exact (h : self.Distinct name isNamed) : self.Exact name isNamed := by
  by_cases herror : isNamed = true ∧ name = errorName
  · have hresult : self.symbolForName name isNamed = builtinSymError := by
      rw [symbolForName, if_pos (isError_iff.mpr ⟨herror.1, .inl (herror.2 ▸ prefix_rfl)⟩)]
    exact ⟨iff_of_true hresult herror, fun hne => absurd herror hne, fun hne => absurd herror hne⟩
  · have hresult : self.symbolForName name isNamed =
        match self.firstNamed name isNamed with
        | some i => self.publicSymbolMap i
        | none => 0 := by
      rw [symbolForName, if_neg fun hpart => ?_, firstNamed]
      · congr 1
        refine find?_congr fun i hi => decide_eq_decide.mpr (and_congr_right fun hshown => ?_)
        rw [nameMatches_iff, eq_comm (a := self.name i)]
        exact or_iff_left fun hzero =>
          h.symbols i (mem_range.mp hi) hshown hzero.1 herror hzero.2
      · obtain ⟨hnamed, hpart⟩ := isError_iff.mp hpart
        exact herror ⟨hnamed, h.error hnamed hpart⟩
    cases hfirst : self.firstNamed name isNamed with
    | some i =>
      have hne := public_ne_of_find? (p := fun i => self.name i = name)
        (by simpa [firstNamed] using hfirst)
      rw [hfirst] at hresult
      refine ⟨iff_of_false (hresult ▸ hne.2) herror, fun _ j hj => ?_, fun _ => ?_⟩
      · rw [hresult, Option.some.inj (hfirst.symm.trans hj)]
      · exact iff_of_false (hresult ▸ hne.1) (by simp [hfirst])
    | none =>
      replace hresult : self.symbolForName name isNamed = 0 := by rw [hresult, hfirst]
      refine ⟨iff_of_false (by rw [hresult]; decide) herror, fun _ j hj => ?_, fun _ => ?_⟩
      · cases hfirst.symm.trans hj
      · exact iff_of_true hresult hfirst

/-- **The lookup is exact exactly if the name is not taken for another one.** -/
theorem symbolForName_iff (self : SymbolTable) (name : List UInt8) (isNamed : Bool) :
    self.Exact name isNamed ↔ self.Distinct name isNamed :=
  ⟨Exact.distinct, Distinct.exact⟩

/-- A language with nothing but the end. -/
def onlyEnd : SymbolTable where
  count := 1
  name _ := [101, 110, 100]
  behindName _ _ := 0
  metadata _ := ⟨false, true, false⟩
  publicSymbolMap := id
  count_lt := by decide
  zero_not_mem _ := by decide
  public_ne _ h := by simp at h

/-- A name without any byte is taken for `ERROR`. -/
theorem exists_not_exact :
    ∃ (self : SymbolTable) (name : List UInt8) (isNamed : Bool), ¬ self.Exact name isNamed :=
  ⟨onlyEnd, [], true, fun h => absurd (h.error_iff.mp rfl).2 (by decide)⟩

end SymbolTable

end TreeSitter.Lib
