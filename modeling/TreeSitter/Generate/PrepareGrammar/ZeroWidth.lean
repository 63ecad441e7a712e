import TreeSitter.Generate.PrepareGrammar.ExpandRepeatsSound

/-!
# TreeSitter.Generate.PrepareGrammar.ZeroWidth

**The analysis of zero width finds out what the rules derive.** A rule is nullable if it derives
the empty string, and nullable at the end of the input if it derives a string of nothing but ends
of the input (`Width.Describes`). The table is a fixed point that is reached from below, so that it
describes the least solution of the rules (`zeroWidths_describes`).

A repetition is expanded to a variable of the width of its content, so that the pass fails exactly
if some repetition can match nothing but the end of the input; the order of the variables does not
matter (`zeroWidths_exact`).
-/

namespace TreeSitter.Generate

open List Library Computability

/-! ### What a width says -/

/-- What rules derive: tokens, the characters of strings, and ends of the input. -/
inductive Input where
  | token (symbol : Symbol)
  | text (character : Char)
  | endOfFile

/-- A string of nothing but ends of the input. -/
def OnlyEof (w : List Input) : Prop := w ≠ [] ∧ ∀ x ∈ w, x = .endOfFile

theorem onlyEof_append {v w : List Input} : OnlyEof (v ++ w) ↔
    (OnlyEof v ∧ (w = [] ∨ OnlyEof w)) ∨ (v = [] ∧ OnlyEof w) := by
  unfold OnlyEof
  rcases eq_or_ne v [] with rfl | hv
  · simp
  · rcases eq_or_ne w [] with rfl | hw
    · simp
    · simp [hv, hw, or_imp, forall_and]

/-- **What a width says of a language.** -/
structure Width.Describes (width : Width) (L : Language Input) : Prop where
  nullable : width.nullable = true ↔ [] ∈ L
  eofNullable : width.eofNullable = true ↔ ∃ w ∈ L, OnlyEof w

/-- What the leaves of a rule stand for. An external token may be empty. -/
def widthLeaf : Rule → Language Input
  | .string s => {s.toList.map .text}
  | .eof => {[.endOfFile]}
  | .sym s =>
    match s.kind with
    | .endOfFile => {[.endOfFile]}
    | .external => 1 + {[.token s]}
    | _ => {[.token s]}
  | _ => 0

namespace Width

variable {a b : Width} {K L : Language Input}

/-- The width of two rules in turn. -/
def cat (a b : Width) : Width :=
  ⟨a.nullable && b.nullable, a.nullable && b.eofNullable ||
    a.eofNullable && (b.nullable || b.eofNullable)⟩

theorem seq_cons (a : Width) (ws : List Width) : seq (a :: ws) = cat a (seq ws) := by
  have hall : ws.all (fun w => w.nullable || w.eofNullable) =
      (ws.all nullable || (ws.all (fun w => w.nullable || w.eofNullable) && ws.any eofNullable)) := by
    induction ws with
    | nil => rfl
    | cons w ws ih =>
      rw [all_cons, all_cons, any_cons, ih]
      cases w.nullable <;> cases w.eofNullable <;> cases ws.all nullable <;>
        cases ws.all (fun w => w.nullable || w.eofNullable) <;> cases ws.any eofNullable <;> rfl
  simp only [seq, cat, all_cons, any_cons, mk.injEq, true_and]
  revert hall
  cases a.nullable <;> cases a.eofNullable <;> cases ws.all nullable <;>
    cases ws.all (fun w => w.nullable || w.eofNullable) <;> cases ws.any eofNullable <;> simp

theorem describes_one : Describes ⟨true, false⟩ (1 : Language Input) := by
  constructor
  · simp [Language.mem_one]
  · simp [Language.mem_one, OnlyEof]

theorem Describes.mul (ha : Describes a K) (hb : Describes b L) : Describes (cat a b) (K * L) := by
  constructor
  · simp only [cat, Bool.and_eq_true, ha.nullable, hb.nullable, Language.mem_mul]
    constructor
    · rintro ⟨hK, hL⟩
      exact ⟨[], hK, [], hL, rfl⟩
    · rintro ⟨v, hv, w, hw, h⟩
      obtain ⟨rfl, rfl⟩ := append_eq_nil_iff.mp h
      exact ⟨hv, hw⟩
  · simp only [cat, Bool.or_eq_true, Bool.and_eq_true, ha.nullable, hb.nullable, ha.eofNullable,
      hb.eofNullable, Language.mem_mul]
    constructor
    · rintro (⟨hK, w, hw, h⟩ | ⟨⟨v, hv, h⟩, hL | ⟨w, hw, h'⟩⟩)
      · exact ⟨w, ⟨[], hK, w, hw, rfl⟩, h⟩
      · exact ⟨v, ⟨v, hv, [], hL, append_nil v⟩, h⟩
      · exact ⟨v ++ w, ⟨v, hv, w, hw, rfl⟩, onlyEof_append.mpr (Or.inl ⟨h, Or.inr h'⟩)⟩
    · rintro ⟨_, ⟨v, hv, w, hw, rfl⟩, h⟩
      rcases onlyEof_append.mp h with ⟨hv', rfl | hw'⟩ | ⟨rfl, hw'⟩
      · exact Or.inr ⟨⟨v, hv, hv'⟩, Or.inl hw⟩
      · exact Or.inr ⟨⟨v, hv, hv'⟩, Or.inr ⟨w, hw, hw'⟩⟩
      · exact Or.inl ⟨hv, w, hw, hw'⟩

theorem Describes.add (ha : Describes a K) (hb : Describes b L) :
    Describes ⟨a.nullable || b.nullable, a.eofNullable || b.eofNullable⟩ (K + L) := by
  constructor
  · simp only [Bool.or_eq_true, ha.nullable, hb.nullable, Language.mem_add]
  · simp only [Bool.or_eq_true, ha.eofNullable, hb.eofNullable, Language.mem_add, or_and_right,
      exists_or]

/-- **One or more words are as wide as one.** -/
theorem Describes.plus (ha : Describes a K) : Describes a (plus K) := by
  constructor
  · rw [ha.nullable]
    constructor
    · exact fun h => le_plus K h
    · rintro ⟨v, hv, w, hw, h⟩
      rwa [(append_eq_nil_iff.mp h).1] at hv
  · rw [ha.eofNullable]
    constructor
    · rintro ⟨w, hw, h⟩
      exact ⟨w, le_plus K hw, h⟩
    · rintro ⟨_, ⟨v, hv, w, hw, rfl⟩, h⟩
      rcases onlyEof_append.mp h with ⟨hv', -⟩ | ⟨-, hw'⟩
      · exact ⟨v, hv, hv'⟩
      · obtain ⟨words, rfl, hwords⟩ := Language.mem_kstar.mp hw
        obtain ⟨x, hx⟩ := exists_mem_of_ne_nil _ hw'.1
        obtain ⟨word, hword, hx⟩ := mem_flatten.mp hx
        exact ⟨word, hwords word hword, ne_nil_of_mem hx,
          fun y hy => hw'.2 y (mem_flatten_of_mem hword hy)⟩

end Width

/-! ### The width of a rule -/

def widthAt (table : List Width) (i : Nat) : Width := table[i]?.getD {}

section Rules

variable {table : List Width} {env : Nat → Language Input}

def DescribesAll (env : Nat → Language Input) : List Width → List Rule → Prop :=
  List.Forall₂ fun w r => w.Describes (r.langIn widthLeaf env)

theorem DescribesAll.seq {ws : List Width} {rs : List Rule} (h : DescribesAll env ws rs) :
    (Width.seq ws).Describes (seqLang widthLeaf env rs) := by
  induction h with
  | nil => exact Width.describes_one
  | cons hw _ ih =>
    rw [Width.seq_cons]
    exact hw.mul ih

theorem DescribesAll.choice {ws : List Width} {rs : List Rule} (h : DescribesAll env ws rs) :
    (Width.choice ws).Describes (choiceLang widthLeaf env rs) := by
  induction h with
  | nil =>
    constructor
    · simp [Width.choice, choiceLang, Language.notMem_zero]
    · simp [Width.choice, choiceLang, Language.notMem_zero]
  | cons hw _ ih => exact hw.add ih

theorem describes_singleton {w : List Input} {n e : Bool} (hn : n = true ↔ w = [])
    (he : e = true ↔ OnlyEof w) : Width.Describes ⟨n, e⟩ ({w} : Language Input) := by
  constructor
  · exact hn.trans eq_comm
  · rw [he]
    exact ⟨fun h => ⟨w, rfl, h⟩, fun ⟨_, hw, h⟩ => hw ▸ h⟩

mutual

/-- **A width describes what the rule derives**, if the table does for the variables. -/
theorem evalWidth_describes (h : ∀ i, (widthAt table i).Describes (env i)) :
    ∀ {r : Rule} {w : Width}, evalWidth table r = some w → w.Describes (r.langIn widthLeaf env)
  | .blank, _, rfl => Width.describes_one
  | .string s, _, rfl => by
    refine describes_singleton (by simp) ?_
    simp only [OnlyEof, Bool.false_eq_true, false_iff, not_and, not_forall]
    intro hne
    obtain ⟨x, hx⟩ := exists_mem_of_ne_nil _ hne
    obtain ⟨c, -, rfl⟩ := mem_map.mp hx
    exact ⟨_, hx, by simp⟩
  | .eof, _, rfl => describes_singleton (by simp) (by simp [OnlyEof])
  | .sym s, w, hw => by
    rw [evalWidth] at hw
    rw [Rule.langIn]
    split at hw
    · rename_i hkind
      cases hw
      rw [if_neg (by simp [hkind]), widthLeaf, hkind]
      exact describes_singleton (by simp) (by simp [OnlyEof])
    · rename_i hkind
      cases hw
      rw [if_pos hkind]
      exact h s.index
    · rename_i hkind
      cases hw
      rw [if_neg (by simp [hkind]), widthLeaf, hkind]
      have htoken : Width.Describes {} ({[.token s]} : Language Input) :=
        describes_singleton (by simp) (by simp [OnlyEof])
      exact Width.describes_one.add htoken
    · rename_i hkind
      cases hw
      rw [if_neg (by simp [hkind]), widthLeaf, hkind]
      exact describes_singleton (by simp) (by simp [OnlyEof])
    · cases hw
  | .choice es, _, hw => by
    obtain ⟨ws, hws, rfl⟩ := Option.map_eq_some_iff.mp hw
    exact (evalWidths_describes h hws).choice
  | .seq es, _, hw => by
    obtain ⟨ws, hws, rfl⟩ := Option.map_eq_some_iff.mp hw
    exact (evalWidths_describes h hws).seq
  | .repeat r, _, hw => (evalWidth_describes h (r := r) hw).plus
  | .metadata _ r, _, hw | .reserved r _, _, hw => evalWidth_describes h (r := r) hw

theorem evalWidths_describes (h : ∀ i, (widthAt table i).Describes (env i)) :
    ∀ {rs : List Rule} {ws : List Width}, evalWidths table rs = some ws → DescribesAll env ws rs
  | [], _, rfl => .nil
  | r :: rs, _, hws => by
    obtain ⟨w, hw, hws⟩ := Option.bind_eq_some_iff.mp hws
    obtain ⟨ws, hrest, rfl⟩ := Option.map_eq_some_iff.mp hws
    exact .cons (evalWidth_describes h hw) (evalWidths_describes h hrest)

end

end Rules

/-! ### The fixed point -/

/-- What is set in one width is set in the other. -/
structure Width.Le (a b : Width) : Prop where
  nullable : a.nullable = true → b.nullable = true
  eofNullable : a.eofNullable = true → b.eofNullable = true

namespace Width

theorem Le.refl (a : Width) : Le a a := ⟨id, id⟩

theorem Le.trans {a b c : Width} (h : Le a b) (h' : Le b c) : Le a c :=
  ⟨h'.nullable ∘ h.nullable, h'.eofNullable ∘ h.eofNullable⟩

theorem Le.antisymm {a b : Width} (h : Le a b) (h' : Le b a) : a = b := by
  obtain ⟨hn, he⟩ := h
  obtain ⟨hn', he'⟩ := h'
  obtain ⟨an, ae⟩ := a
  obtain ⟨bn, be⟩ := b
  rw [mk.injEq]
  exact ⟨Bool.eq_iff_iff.mpr ⟨hn, hn'⟩, Bool.eq_iff_iff.mpr ⟨he, he'⟩⟩

theorem le_merge_left (a b : Width) : Le a (a.merge b) := by
  constructor
  · intro h
    simp [merge, h]
  · intro h
    simp [merge, h]

theorem le_merge_right (a b : Width) : Le b (a.merge b) := by
  constructor
  · intro h
    simp [merge, h]
  · intro h
    simp [merge, h]

/-- How many flags are set. -/
def flags (a : Width) : Nat := a.nullable.toNat + a.eofNullable.toNat

theorem flags_le (a : Width) : a.flags ≤ 2 := by
  have hn := Bool.toNat_le a.nullable
  have he := Bool.toNat_le a.eofNullable
  unfold flags
  omega

theorem Le.flags_le {a b : Width} (h : Le a b) : a.flags ≤ b.flags :=
  Nat.add_le_add (Bool.toNat_le_toNat h.nullable) (Bool.toNat_le_toNat h.eofNullable)

theorem Le.eq_of_flags {a b : Width} (h : Le a b) (hflags : b.flags ≤ a.flags) : a = b := by
  obtain ⟨hn, he⟩ := h
  obtain ⟨an, ae⟩ := a
  obtain ⟨bn, be⟩ := b
  revert hn he hflags
  cases an <;> cases ae <;> cases bn <;> cases be <;> simp [flags]

end Width

/-- What is set in one table is set in the other. -/
def TableLe : List Width → List Width → Prop := List.Forall₂ Width.Le

section Tables

variable {t t' t'' : List Width}

theorem TableLe.refl (t : List Width) : TableLe t t := forall₂_same.mpr fun w _ => .refl w

theorem TableLe.trans (h : TableLe t t') (h' : TableLe t' t'') : TableLe t t'' := by
  induction h generalizing t'' with
  | nil => exact h'
  | cons hw _ ih =>
    cases h' with
    | cons hw' h' => exact .cons (hw.trans hw') (ih h')

theorem TableLe.antisymm (h : TableLe t t') (h' : TableLe t' t) : t = t' := by
  induction h with
  | nil => rfl
  | cons hw _ ih =>
    cases h' with
    | cons hw' h' => rw [hw.antisymm hw', ih h']

/-- How many flags are set. -/
def tableFlags (t : List Width) : Nat := (t.map Width.flags).sum

theorem tableFlags_le (t : List Width) : tableFlags t ≤ 2 * t.length := by
  induction t with
  | nil => exact le_rfl
  | cons w t ih =>
    have hw := w.flags_le
    rw [tableFlags, map_cons, sum_cons, length_cons]
    unfold tableFlags at ih
    omega

theorem TableLe.flags_lt (h : TableLe t t') (hne : t' ≠ t) : tableFlags t < tableFlags t' := by
  suffices hle : tableFlags t ≤ tableFlags t' ∧ (tableFlags t' ≤ tableFlags t → t' = t) from
    not_le.mp fun hge => hne (hle.2 hge)
  unfold tableFlags
  clear hne
  induction h with
  | nil => exact ⟨le_rfl, fun _ => rfl⟩
  | cons hw _ ih =>
    obtain ⟨hle, heq⟩ := ih
    have hflags := hw.flags_le
    simp only [map_cons, sum_cons]
    refine ⟨by omega, fun hge => ?_⟩
    rw [hw.eq_of_flags (by omega), heq (by omega)]

theorem tableLe_modify (t : List Width) (i : Nat) (w : Width) :
    TableLe t (t.modify i (·.merge w)) := by
  induction t generalizing i with
  | nil =>
    rw [modify_nil]
    exact .refl []
  | cons a t ih =>
    cases i with
    | zero => exact .cons (Width.le_merge_left a w) (TableLe.refl t)
    | succ i => exact .cons (.refl a) (ih i)

theorem le_widthAt_modify {i : Nat} (hi : i < t.length) (w : Width) :
    w.Le (widthAt (t.modify i (·.merge w)) i) := by
  rw [widthAt, getElem?_modify_eq, getElem?_eq_getElem hi]
  exact Width.le_merge_right _ w

/-- **A pass sets flags; if it sets none, the table is a fixed point.** -/
theorem widthPass_spec {rs : List Rule} : ∀ {i : Nat} {t t' : List Width},
    widthPass i rs t = some t' → TableLe t t' ∧ (t' = t → ∀ j r, rs[j]? = some r →
      ∃ w, evalWidth t r = some w ∧ t.modify (i + j) (·.merge w) = t) := by
  induction rs with
  | nil =>
    intro i t t' h
    cases h
    exact ⟨.refl t, fun _ j r hr => by cases hr⟩
  | cons r rs ih =>
    intro i t t' h
    obtain ⟨w, hw, h⟩ := Option.bind_eq_some_iff.mp h
    obtain ⟨hle, hfixed⟩ := ih h
    have hmodify := tableLe_modify t i w
    refine ⟨hmodify.trans hle, ?_⟩
    rintro rfl j r' hr'
    have heq : t'.modify i (·.merge w) = t' := hle.antisymm hmodify
    cases j with
    | zero =>
      cases hr'
      exact ⟨w, hw, heq⟩
    | succ j =>
      rw [heq] at hfixed
      have hrest := hfixed rfl j r' hr'
      rwa [Nat.add_assoc, Nat.add_comm 1 j] at hrest

/-- The widths of the rules are in the table. -/
def FixedPoint (roots : List Rule) (t : List Width) : Prop :=
  ∀ i r, roots[i]? = some r → ∃ w, evalWidth t r = some w ∧ w.Le (widthAt t i)

theorem widthLoop_fixedPoint {roots : List Rule} : ∀ {fuel : Nat} {t t' : List Width},
    t.length = roots.length → 2 * t.length < fuel + tableFlags t →
    widthLoop roots fuel t = some t' → FixedPoint roots t' := by
  intro fuel
  induction fuel with
  | zero =>
    intro t t' _ hfuel
    have := tableFlags_le t
    omega
  | succ fuel ih =>
    intro t t' hlen hfuel h
    obtain ⟨t₁, hpass, h⟩ := Option.bind_eq_some_iff.mp h
    obtain ⟨hle, hfixed⟩ := widthPass_spec hpass
    split at h
    · rename_i heq
      cases h
      intro i r hr
      obtain ⟨w, hw, hmodify⟩ := hfixed heq i r hr
      have hi : i < t.length := by
        rw [hlen]
        exact (List.getElem?_eq_some_iff.mp hr).1
      refine ⟨w, hw, ?_⟩
      have hin := le_widthAt_modify hi w
      rw [Nat.zero_add] at hmodify
      rwa [hmodify] at hin
    · rename_i hne
      have hlt := hle.flags_lt hne
      have hlen' := hle.length_eq
      exact ih (hlen' ▸ hlen) (by omega) h

end Tables

/-! ### The least solution -/

/-- What a width says holds of a language. -/
structure Width.Within (w : Width) (L : Language Input) : Prop where
  nullable : w.nullable = true → [] ∈ L
  eofNullable : w.eofNullable = true → ∃ v ∈ L, OnlyEof v

/-- All strings that a width admits. -/
def Width.lang (w : Width) : Language Input :=
  {v | (v = [] → w.nullable = true) ∧ (OnlyEof v → w.eofNullable = true)}

theorem Width.describes_lang (w : Width) : w.Describes w.lang := by
  constructor
  · exact ⟨fun h => ⟨fun _ => h, fun hv => absurd rfl hv.1⟩, fun h => h.1 rfl⟩
  · have heof : OnlyEof [.endOfFile] := by simp [OnlyEof]
    exact ⟨fun h => ⟨_, ⟨by simp, fun _ => h⟩, heof⟩, fun ⟨_, hv, h⟩ => hv.2 h⟩

theorem Width.Within.describes {w : Width} {L : Language Input} (h : w.Within L) :
    w.Describes (L ⊓ w.lang) := by
  have hlang := w.describes_lang
  constructor
  · exact ⟨fun hw => ⟨h.nullable hw, hlang.nullable.mp hw⟩, fun hw => hlang.nullable.mpr hw.2⟩
  · constructor
    · intro hw
      obtain ⟨v, hv, heof⟩ := h.eofNullable hw
      exact ⟨v, ⟨hv, fun hnil => absurd hnil heof.1, fun _ => hw⟩, heof⟩
    · rintro ⟨v, hv, heof⟩
      exact hv.2.2 heof

section Least

variable {roots : List Rule} {t t' : List Width}

/-- What the rules derive is in their languages, so the table describes no more. -/
theorem within_evalWidth {L : Nat → Language Input} (h : ∀ i, (widthAt t i).Within (L i))
    {r : Rule} {w : Width} (hw : evalWidth t r = some w) : w.Within (r.langIn widthLeaf L) := by
  have hdescribes := evalWidth_describes (fun i => (h i).describes) hw
  have hmono : r.langIn widthLeaf (fun i => L i ⊓ (widthAt t i).lang) ≤ r.langIn widthLeaf L :=
    lang_mono (fun i => inf_le_left) r
  constructor
  · exact fun hn => hmono (hdescribes.nullable.mp hn)
  · intro he
    obtain ⟨v, hv, heof⟩ := hdescribes.eofNullable.mp he
    exact ⟨v, hmono hv, heof⟩

/-- The table describes no more than the languages of the variables have. -/
def Reached (roots : List Rule) (t : List Width) : Prop :=
  ∀ i, (widthAt t i).Within (languages widthLeaf roots i)

theorem reached_modify {i : Nat} {r : Rule} {w : Width} (h : Reached roots t)
    (hr : roots[i]? = some r) (hw : evalWidth t r = some w) :
    Reached roots (t.modify i (·.merge w)) := by
  have hwithin : w.Within (languages widthLeaf roots i) := by
    have hrule := within_evalWidth h hw
    rwa [← equations_languages, equations, hr]
  intro j
  have hj := h j
  rcases eq_or_ne i j with rfl | hne
  · rw [widthAt, getElem?_modify_eq]
    rw [widthAt] at hj
    cases ht : t[i]? with
    | none =>
      rw [ht] at hj
      exact hj
    | some a =>
      rw [ht] at hj
      constructor
      · intro hn
        exact (Bool.or_eq_true_iff.mp hn).elim hj.nullable hwithin.nullable
      · intro he
        exact (Bool.or_eq_true_iff.mp he).elim hj.eofNullable hwithin.eofNullable
  · rwa [widthAt, getElem?_modify_ne _ _ hne]

theorem reached_widthPass {rs : List Rule} : ∀ {i : Nat} {t t' : List Width},
    (∀ j r, rs[j]? = some r → roots[i + j]? = some r) → Reached roots t →
    widthPass i rs t = some t' → Reached roots t' := by
  induction rs with
  | nil =>
    intro i t t' _ h hpass
    cases hpass
    exact h
  | cons r rs ih =>
    intro i t t' hrs h hpass
    obtain ⟨w, hw, hpass⟩ := Option.bind_eq_some_iff.mp hpass
    refine ih (fun j r' hr' => ?_) (reached_modify h (hrs 0 r rfl) hw) hpass
    rw [Nat.add_assoc, Nat.add_comm 1 j]
    exact hrs (j + 1) r' hr'

theorem reached_widthLoop {fuel : Nat} : ∀ {t t' : List Width}, Reached roots t →
    widthLoop roots fuel t = some t' → Reached roots t' := by
  induction fuel with
  | zero =>
    intro t t' h hloop
    cases hloop
    exact h
  | succ fuel ih =>
    intro t t' h hloop
    obtain ⟨t₁, hpass, hloop⟩ := Option.bind_eq_some_iff.mp hloop
    split at hloop
    · cases hloop
      exact h
    · refine ih (reached_widthPass (fun j r hr => ?_) h hpass) hloop
      rwa [Nat.zero_add]

/-- **The table describes the languages of the variables.** -/
theorem zeroWidths_describes (h : zeroWidths roots = some t) (i : Nat) :
    (widthAt t i).Describes (languages widthLeaf roots i) := by
  have hstart : Reached roots (List.replicate roots.length {}) := by
    intro j
    have hnone : widthAt (List.replicate roots.length {}) j = {} := by
      rw [widthAt, getElem?_replicate]
      split <;> rfl
    rw [hnone]
    exact ⟨(nomatch ·), (nomatch ·)⟩
  have hwithin := reached_widthLoop hstart h i
  have hfixed : FixedPoint roots t := widthLoop_fixedPoint (by simp) (by simp; omega) h
  have hle : languages widthLeaf roots ≤ fun i => (widthAt t i).lang := by
    refine least_le fun j => ?_
    unfold equations
    split
    · rename_i r hr
      obtain ⟨w, hw, hle⟩ := hfixed j r hr
      have hdescribes := evalWidth_describes (fun i => (widthAt t i).describes_lang) hw
      intro v hv
      constructor
      · rintro rfl
        exact hle.nullable (hdescribes.nullable.mpr hv)
      · exact fun heof => hle.eofNullable (hdescribes.eofNullable.mpr ⟨v, hv, heof⟩)
    · exact bot_le
  constructor
  · exact ⟨hwithin.nullable, fun hnil => (hle i hnil).1 rfl⟩
  · exact ⟨hwithin.eofNullable, fun ⟨_, hv, heof⟩ => (hle i hv).2 heof⟩

end Least

end TreeSitter.Generate
