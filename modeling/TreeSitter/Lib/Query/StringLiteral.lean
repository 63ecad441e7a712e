import TreeSitter.Lib.Lexer

/-!
# TreeSitter.Lib.Query.StringLiteral

The **stream** of characters that a query is parsed from, and its string literals.

`ts_query__parse_string_literal` copies what is between escapes in one piece, from a remembered
position to the cursor, which moves by characters. What it reads is a matter of the bytes alone
(`literalBody`): pieces up to the first quote that is not escaped, where no newline is without a
backslash (`parseStringLiteral_exact`). Any character may be escaped; but for four letters it
stands for itself.
-/

namespace TreeSitter.Lib

open List

/-! ### The stream -/

/-- `Stream`; `input` is an offset into the bytes from `start` to `end`. -/
structure Stream where
  text : List UInt8
  input : Nat
  next : Int
  nextSize : Nat
deriving DecidableEq

namespace Stream

variable (self : Stream)

/-- `stream_advance`; whether there is a character. -/
def advance : Stream × Bool :=
  let self := { self with input := self.input + self.nextSize }
  if self.input < self.text.length then
    match decodeUtf8 ((self.text.drop self.input).map UInt8.toNat) with
    | some (size, next) =>
      if size > 0 then ({ self with next, nextSize := size }, true)
      else ({ self with next }, false)
    | none => (self, false)
  else ({ self with nextSize := 0, next := 0 }, false)

/-- `stream_reset`. -/
def reset (input : Nat) : Stream := { self with input, nextSize := 0 }.advance.1

/-- `stream_new`. -/
def new (text : List UInt8) : Stream := (Stream.mk text 0 0 0).advance.1

/-- The next character is one of ASCII. -/
def nextIs (byte : UInt8) : Bool := self.next = byte.toNat

/-- The bytes from a position to the cursor. -/
def since (position : Nat) : List UInt8 :=
  (self.text.drop position).take (self.input - position)

end Stream

/-! ### The literal -/

/-- `TSQueryError`, of what a literal needs. -/
inductive TSQueryError where
  | none
  | errorSyntax
deriving DecidableEq

def quote : UInt8 := 0x22

def backslash : UInt8 := 0x5c

/-- The byte that an escaped one stands for: `n`, `r`, `t` and `0` are special. -/
def unescape (byte : UInt8) : UInt8 :=
  if byte = 0x6e then newline
  else if byte = 0x72 then 0x0d
  else if byte = 0x74 then 0x09
  else if byte = 0x30 then 0
  else byte

/-- What an escaped character adds to the `string_buffer`. -/
def Stream.escaped (self : Stream) : List UInt8 :=
  if self.nextIs 0x6e then [newline]
  else if self.nextIs 0x72 then [0x0d]
  else if self.nextIs 0x74 then [0x09]
  else if self.nextIs 0x30 then [0]
  else (self.text.drop self.input).take self.nextSize

/-- The `string_buffer`, the stream and the error after `ts_query__parse_string_literal`. -/
structure StringLiteral where
  stringBuffer : List UInt8
  stream : Stream
  error : TSQueryError
deriving DecidableEq

/-- What a turn of the loop does. -/
inductive StringTurn where
  | goOn (prevPosition : Nat) (isEscaped : Bool) (stringBuffer : List UInt8)
  | finish (literal : StringLiteral)

/-- A turn of the loop, but for the advance at its end. -/
def parseStringTurn (stringStart : Nat) (stream : Stream) (prevPosition : Nat) (isEscaped : Bool)
    (stringBuffer : List UInt8) : StringTurn :=
  if isEscaped then
    .goOn (stream.input + stream.nextSize) false (stringBuffer ++ stream.escaped)
  else if stream.nextIs backslash then
    .goOn (stream.input + 1) true (stringBuffer ++ stream.since prevPosition)
  else if stream.nextIs quote then
    .finish ⟨stringBuffer ++ stream.since prevPosition, stream.advance.1, .none⟩
  else if stream.nextIs newline then
    .finish ⟨stringBuffer, stream.reset stringStart, .errorSyntax⟩
  else .goOn prevPosition false stringBuffer

/-- The loop; `none` if it takes more than the given number of turns. -/
def parseStringLoop (stringStart : Nat) :
    Nat → Stream → Nat → Bool → List UInt8 → Option StringLiteral
  | 0, _, _, _, _ => none
  | turns + 1, stream, prevPosition, isEscaped, stringBuffer =>
    match parseStringTurn stringStart stream prevPosition isEscaped stringBuffer with
    | .goOn prevPosition isEscaped stringBuffer =>
      match stream.advance with
      | (stream, true) =>
        parseStringLoop stringStart turns stream prevPosition isEscaped stringBuffer
      | (stream, false) => some ⟨stringBuffer, stream.reset stringStart, .errorSyntax⟩
    | .finish literal => some literal

/-- `ts_query__parse_string_literal`. A turn for each byte is enough. -/
def parseStringLiteral (stringBuffer : List UInt8) (stream : Stream) : Option StringLiteral :=
  if stream.nextIs quote then
    let start := stream.advance.1
    parseStringLoop stream.input (stream.text.length + 1) start start.input false []
  else some ⟨stringBuffer, stream, .errorSyntax⟩

/-! ### Characters and bytes -/

section Decode

variable {b : Nat} {bs : List Nat}

theorem decodeUtf8_ascii (h : b < 0x80) : decodeUtf8 (b :: bs) = some (1, (b : Int)) := by
  have hbit : b &&& 0x80 = 0 := by
    have hall : ∀ b < 0x80, b &&& 0x80 = 0 := by decide
    exact hall b h
  rw [decodeUtf8]
  simp [hbit]

theorem lead3_trail : ∀ lead < 16, ∀ t < 256,
    (lead3T1Bits.getD lead 0) &&& (1 <<< (t >>> 5)) ≠ 0 →
      0x80 ≤ t ∧ (lead = 0 → 0x20 ≤ t &&& 0x3f) := by
  decide +kernel

theorem lead4_trail : ∀ lead < 5, ∀ t < 256,
    (lead4T1Bits.getD (t >>> 4) 0) &&& (1 <<< lead) ≠ 0 →
      0x80 ≤ t ∧ (lead = 0 → 0x10 ≤ t &&& 0x3f) := by
  decide +kernel

theorem trailBits_eq_some {t bits : Nat} (h : trailBits t = some bits) : 0x80 ≤ t := by
  rw [trailBits] at h
  split at h
  · rename_i ht
    exact ht.1
  · cases h

theorem u8Lead_spec (hb : 0x80 ≤ b) (hbytes : ∀ x ∈ b :: bs, x < 0x100) {i : Nat}
    {bits : Option Nat} (h : u8Lead (b :: bs) b = (i, bits)) :
    0 < i ∧ i ≤ (b :: bs).length ∧ (∀ x ∈ (b :: bs).take i, 0x80 ≤ x) ∧
      ∀ n, bits = some n → 2 ≤ n := by
  rw [u8Lead] at h
  match bs, h, hbytes with
  | [], h, _ =>
    cases h
    simpa using hb
  | t :: bs, h, hbytes =>
    have ht : t < 256 := hbytes t (by simp)
    have hlen : 1 ≤ (b :: t :: bs).length := by simp
    have hfirst : ∀ x ∈ (b :: t :: bs).take 1, 0x80 ≤ x := by simpa using hb
    simp only [getElem?_cons_succ, getElem?_cons_zero] at h
    split_ifs at h with hthree hthree' hbad hfour htwo
    · cases h
      exact ⟨Nat.one_pos, hlen, hfirst, by simp⟩
    · cases h
      obtain ⟨htrail, hzero⟩ := lead3_trail (b &&& 0xf)
        (Nat.and_le_right.trans_lt (by decide)) t ht hbad
      refine ⟨Nat.two_pos, by simp, by simp [hb, htrail], ?_⟩
      rintro _ ⟨⟩
      by_cases hlead : b &&& 0xf = 0
      · exact le_trans (by omega) ((hzero hlead).trans Nat.right_le_or)
      · refine le_trans ?_ Nat.left_le_or
        rw [Nat.shiftLeft_eq]
        omega
    · obtain ⟨htrail, hzero⟩ := lead4_trail (b - 0xf0) (by omega) t ht hfour.2
      have htwo : ∀ x ∈ (b :: t :: bs).take 2, 0x80 ≤ x := by simp [hb, htrail]
      match bs, h with
      | [], h =>
        cases h
        exact ⟨Nat.two_pos, le_rfl, htwo, by simp⟩
      | t' :: bs, h =>
        dsimp only [getElem?_cons_succ, getElem?_cons_zero] at h
        cases hbits : trailBits t' with
        | none =>
          rw [hbits] at h
          cases h
          exact ⟨Nat.two_pos, by simp, htwo, by simp⟩
        | some last =>
          rw [hbits] at h
          cases h
          refine ⟨by decide, by simp, by simp [hb, htrail, trailBits_eq_some hbits], ?_⟩
          rintro _ ⟨⟩
          refine le_trans ?_ Nat.left_le_or
          have hpos : 1 ≤ (b - 0xf0) <<< 6 ||| t &&& 0x3f := by
            by_cases hlead : b - 0xf0 = 0
            · exact le_trans (by omega) ((hzero hlead).trans Nat.right_le_or)
            · refine le_trans ?_ Nat.left_le_or
              rw [Nat.shiftLeft_eq]
              omega
          rw [Nat.shiftLeft_eq]
          omega
    · cases h
      exact ⟨Nat.one_pos, hlen, hfirst, by simp⟩
    · cases h
      refine ⟨Nat.one_pos, hlen, hfirst, ?_⟩
      rintro _ ⟨⟩
      have hall : ∀ b < 0x100, 0xc2 ≤ b → b < 0xe0 → 2 ≤ b &&& 0x1f := by
        decide +kernel
      exact hall b (hbytes b (by simp)) htwo (by omega)
    · cases h
      exact ⟨Nat.one_pos, hlen, hfirst, by simp⟩

theorem decodeUtf8_of_not_ascii (hb : 0x80 ≤ b) (hbytes : ∀ x ∈ b :: bs, x < 0x100) :
    ∃ size code, decodeUtf8 (b :: bs) = some (size, code) ∧ 0 < size ∧ size ≤ (b :: bs).length ∧
      (∀ x ∈ (b :: bs).take size, 0x80 ≤ x) ∧ (code < 0 ∨ 0x80 ≤ code) := by
  have hbit : ¬ b &&& 0x80 = 0 := by
    have hall : ∀ b < 0x100, 0x80 ≤ b → ¬ b &&& 0x80 = 0 := by decide +kernel
    exact hall b (hbytes b mem_cons_self) hb
  have herr : decodeError < 0 ∨ 0x80 ≤ decodeError := by decide
  rw [decodeUtf8, getElem?_cons_zero]
  dsimp only
  rw [if_neg hbit]
  rcases hlead : u8Lead (b :: bs) b with ⟨i, _ | bits⟩
  · obtain ⟨hpos, hle, hall, -⟩ := u8Lead_spec hb hbytes hlead
    exact ⟨i, _, rfl, hpos, hle, hall, herr⟩
  · obtain ⟨hpos, hle, hall, hbits⟩ := u8Lead_spec hb hbytes hlead
    dsimp only
    cases ht : (b :: bs)[i]? with
    | none => exact ⟨i, _, rfl, hpos, hle, hall, herr⟩
    | some t =>
      dsimp only
      cases hlast : trailBits t with
      | none => exact ⟨i, _, rfl, hpos, hle, hall, herr⟩
      | some last =>
        refine ⟨i + 1, _, rfl, i.succ_pos, (List.getElem?_eq_some_iff.mp ht).1, ?_, Or.inr ?_⟩
        · rw [List.take_add_one, ht]
          rintro x hx
          rcases mem_append.mp hx with hx | hx
          · exact hall x hx
          · rw [mem_singleton.mp hx]
            exact trailBits_eq_some hlast
        · have htwo := hbits bits rfl
          have hshift : 0x80 ≤ bits <<< 6 := by
            rw [Nat.shiftLeft_eq]
            omega
          exact_mod_cast hshift.trans Nat.left_le_or

end Decode

namespace Stream

def seek (text : List UInt8) (position : Nat) : Stream := (Stream.mk text position 0 0).advance.1

variable {text : List UInt8} {position : Nat}

/-- **The character at a position**: its bytes, which are one byte of ASCII or none of ASCII. -/
structure CharAt (text : List UInt8) (position : Nat) (first : UInt8) (rest : List UInt8) :
    Prop where
  bytes : text.drop position = first :: rest ++ text.drop (position + (rest.length + 1))
  seek : ∃ next, decodeUtf8 ((text.drop position).map UInt8.toNat) = some (rest.length + 1, next) ∧
    (first < 0x80 ∧ rest = [] ∧ next = first.toNat ∨ 0x80 ≤ first ∧ (next < 0 ∨ 0x80 ≤ next))
  rest : ∀ byte ∈ rest, 0x80 ≤ byte

theorem exists_charAt (h : position < text.length) :
    ∃ first rest, CharAt text position first rest := by
  obtain ⟨first, bs, hdrop⟩ : ∃ first bs, text.drop position = first :: bs :=
    exists_cons_of_ne_nil (by simpa using h)
  by_cases hascii : first < 0x80
  · refine ⟨first, [], ?_, ⟨first.toNat, ?_, Or.inl ⟨hascii, rfl, rfl⟩⟩, by simp⟩
    · rw [hdrop, length_nil, drop_add_one_eq_tail_drop, hdrop]
      rfl
    · rw [hdrop, map_cons]
      exact decodeUtf8_ascii (UInt8.lt_iff_toNat_lt.mp hascii)
  · have hfirst : 0x80 ≤ first := UInt8.not_lt.mp hascii
    obtain ⟨size, code, hdecode, hpos, hle, hall, hcode⟩ := @decodeUtf8_of_not_ascii
      first.toNat (bs.map UInt8.toNat) (UInt8.le_iff_toNat_le.mp hfirst)
      (by simpa using ⟨first.toNat_lt, fun x _ => x.toNat_lt⟩)
    obtain ⟨n, rfl⟩ : ∃ n, size = n + 1 := ⟨size - 1, by omega⟩
    have hn : n ≤ bs.length := by simpa using hle
    have hlen : (bs.take n).length = n := length_take_of_le hn
    refine ⟨first, bs.take n, ?_, ⟨code, ?_, Or.inr ⟨hfirst, hcode⟩⟩, ?_⟩
    · rw [hlen, ← drop_drop, hdrop, drop_succ_cons, cons_append, take_append_drop]
    · rw [hlen, hdrop, map_cons, hdecode]
    · intro byte hbyte
      refine UInt8.le_iff_toNat_le.mpr (hall _ ?_)
      rw [take_succ_cons, ← map_take]
      exact mem_cons_of_mem _ (mem_map_of_mem hbyte)

theorem advance_eq_seek (stream : Stream) : stream.advance =
    (seek stream.text (stream.input + stream.nextSize),
      decide (stream.input + stream.nextSize < stream.text.length)) := by
  by_cases h : stream.input + stream.nextSize < stream.text.length
  · obtain ⟨first, rest, hchar⟩ := exists_charAt h
    obtain ⟨next, hdecode, -⟩ := hchar.seek
    simp [seek, advance, h, hdecode, -map_drop]
  · simp [seek, advance, h]

theorem reset_eq (stream : Stream) (position : Nat) :
    stream.reset position = seek stream.text position := by
  rw [reset, advance_eq_seek]
  rfl

@[simp] theorem seek_text (text : List UInt8) (position : Nat) : (seek text position).text = text := by
  unfold seek advance
  dsimp only
  split
  · split
    · split <;> rfl
    · rfl
  · rfl

@[simp] theorem seek_input (text : List UInt8) (position : Nat) :
    (seek text position).input = position := by
  unfold seek advance
  dsimp only
  split
  · split
    · split <;> rfl
    · rfl
  · rfl

section Character

variable {first : UInt8} {rest : List UInt8}

section

variable (h : CharAt text position first rest)

include h

theorem CharAt.lt_length : position < text.length := by
  by_contra hge
  have hbytes := h.bytes
  rw [drop_eq_nil_of_le (not_lt.mp hge)] at hbytes
  cases hbytes

theorem CharAt.next_le : position + (rest.length + 1) ≤ text.length := by
  have hlen := congrArg List.length h.bytes
  have hlt := h.lt_length
  simp only [length_drop, length_append, length_cons] at hlen
  omega

theorem CharAt.rest_eq_nil (hfirst : first < 0x80) : rest = [] := by
  obtain ⟨next, -, ⟨-, hrest, -⟩ | ⟨hge, -⟩⟩ := h.seek
  · exact hrest
  · exact absurd hge (UInt8.not_le.mpr hfirst)

theorem CharAt.seek_nextSize : (Stream.seek text position).nextSize = rest.length + 1 := by
  obtain ⟨next, hdecode, -⟩ := h.seek
  simp [Stream.seek, advance, h.lt_length, hdecode, -map_drop]

theorem CharAt.ascii (hfirst : first < 0x80) :
    text.drop position = first :: text.drop (position + 1) ∧
      (Stream.seek text position).nextSize = 1 := by
  obtain rfl := h.rest_eq_nil hfirst
  exact ⟨h.bytes, h.seek_nextSize⟩

theorem CharAt.nextIs_iff {byte : UInt8}
    (hbyte : byte < 0x80) : (Stream.seek text position).nextIs byte = true ↔ first = byte := by
  obtain ⟨next, hdecode, hnext⟩ := h.seek
  have heq : (Stream.seek text position).next = next := by
    simp [Stream.seek, advance, h.lt_length, hdecode, -map_drop]
  have hlt := UInt8.lt_iff_toNat_lt.mp hbyte
  rw [nextIs, decide_eq_true_iff, heq]
  rcases hnext with ⟨-, -, rfl⟩ | ⟨hfirst, hnext⟩
  · rw [Nat.cast_inj, UInt8.toNat_inj]
  · constructor
    · rintro rfl
      simp at hnext hlt
      omega
    · rintro rfl
      exact absurd hfirst (UInt8.not_le.mpr hbyte)

end

theorem nextIs_of_ge (h : text.length ≤ position) {byte : UInt8} (hbyte : byte ≠ 0) :
    (seek text position).nextIs byte = false := by
  rw [nextIs, decide_eq_false_iff_not]
  simp only [seek, advance, Nat.add_zero, if_neg h.not_gt]
  intro hzero
  exact hbyte (UInt8.toNat_inj.mp (by exact_mod_cast hzero.symm))

theorem nextSize_of_ge (h : text.length ≤ position) : (seek text position).nextSize = 0 := by
  simp only [seek, advance, Nat.add_zero, if_neg h.not_gt]

theorem since_self (text : List UInt8) (position : Nat) :
    (Stream.seek text position).since position = [] := by
  rw [since, seek_input, Nat.sub_self, take_zero]

theorem CharAt.since_eq (h : CharAt text position first rest) {start : Nat}
    (hstart : start ≤ position) :
    (Stream.seek text (position + (rest.length + 1))).since start =
      (Stream.seek text position).since start ++ first :: rest := by
  have htake : (text.drop position).take (rest.length + 1) = first :: rest := by
    rw [h.bytes]
    exact take_left' (by simp)
  have hlen : position + (rest.length + 1) - start = position - start + (rest.length + 1) := by
    omega
  simp only [since, seek_text, seek_input]
  rw [hlen, take_add, drop_drop, Nat.add_sub_cancel' hstart, htake]

theorem CharAt.escaped_eq (h : CharAt text position first rest) :
    (Stream.seek text position).escaped = unescape first :: rest := by
  have htake : (text.drop position).take (rest.length + 1) = first :: rest := by
    rw [h.bytes]
    exact take_left' (by simp)
  have hspecial : ∀ byte < 0x80, first = byte → rest = [] := by
    rintro _ hbyte rfl
    exact h.rest_eq_nil hbyte
  rw [escaped, unescape]
  have hnextIs : ∀ byte < 0x80, (Stream.seek text position).nextIs byte ↔ first = byte :=
    fun _ hbyte => h.nextIs_iff hbyte
  simp only [hnextIs 0x6e (by decide), hnextIs 0x72 (by decide), hnextIs 0x74 (by decide),
    hnextIs 0x30 (by decide)]
  split_ifs with hn hr ht hzero
  · rw [hspecial _ (by decide) hn]
  · rw [hspecial _ (by decide) hr]
  · rw [hspecial _ (by decide) ht]
  · rw [hspecial _ (by decide) hzero]
  · rw [seek_text, seek_input, h.seek_nextSize, htake]

end Character

end Stream

/-! ### What a literal stands for -/

/-- **The body of a literal**, up to its closing quote: what it stands for, and what is behind it. -/
def literalBody : List UInt8 → Option (List UInt8 × List UInt8)
  | [] => none
  | byte :: bytes =>
    if byte = backslash then
      match bytes with
      | [] => none
      | escaped :: bytes => (literalBody bytes).map (Prod.map (unescape escaped :: ·) id)
    else if byte = quote then some ([], bytes)
    else if byte = newline then none
    else (literalBody bytes).map (Prod.map (byte :: ·) id)

theorem literalBody_cons {byte : UInt8} (h : byte ≠ backslash) (bytes : List UInt8) :
    literalBody (byte :: bytes) =
      if byte = quote then some ([], bytes)
      else if byte = newline then none
      else (literalBody bytes).map (Prod.map (byte :: ·) id) := by
  rw [literalBody.eq_def]
  exact if_neg h

theorem literalBody_backslash (escaped : UInt8) (bytes : List UInt8) :
    literalBody (backslash :: escaped :: bytes) =
      (literalBody bytes).map (Prod.map (unescape escaped :: ·) id) := by
  rw [literalBody.eq_def]
  exact if_pos rfl

/-- A byte that stands for itself without a backslash. -/
def IsPlain (byte : UInt8) : Prop := byte ≠ backslash ∧ byte ≠ quote ∧ byte ≠ newline

theorem isPlain_of_le {byte : UInt8} (h : 0x80 ≤ byte) : IsPlain byte := by
  refine ⟨?_, ?_, ?_⟩
  all_goals
    rintro rfl
    exact absurd h (by decide)

theorem literalBody_plain {plain : List UInt8} (h : ∀ byte ∈ plain, IsPlain byte)
    (bytes : List UInt8) :
    literalBody (plain ++ bytes) = (literalBody bytes).map (Prod.map (plain ++ ·) id) := by
  induction plain with
  | nil => exact (congrFun Option.map_id _).symm
  | cons byte plain ih =>
    obtain ⟨⟨hbackslash, hquote, hnewline⟩, hplain⟩ := forall_mem_cons.mp h
    rw [cons_append, literalBody_cons hbackslash, if_neg hquote, if_neg hnewline,
      ih hplain, Option.map_map]
    rfl

theorem literalBody_escaped {plain : List UInt8} (h : ∀ byte ∈ plain, IsPlain byte)
    (escaped : UInt8) (bytes : List UInt8) :
    literalBody (backslash :: escaped :: (plain ++ bytes)) =
      (literalBody bytes).map (Prod.map (unescape escaped :: plain ++ ·) id) := by
  rw [literalBody_backslash, literalBody_plain h, Option.map_map]
  rfl

/-- What the function leaves for a literal of which this is read. -/
def ReadsLiteral (text : List UInt8) (start : Nat) (buffer : List UInt8) :
    Option (List UInt8 × List UInt8) → StringLiteral → Prop
  | none, literal => literal.stream = Stream.seek text start ∧ literal.error = .errorSyntax
  | some (value, rest), literal =>
    literal = ⟨buffer ++ value, Stream.seek text (text.length - rest.length), .none⟩

theorem ReadsLiteral.map {text buffer bytes : List UInt8} {start : Nat}
    {body : Option (List UInt8 × List UInt8)} {literal : StringLiteral}
    (h : ReadsLiteral text start (buffer ++ bytes) body literal) :
    ReadsLiteral text start buffer (body.map (Prod.map (bytes ++ ·) id)) literal := by
  cases body with
  | none => exact h
  | some body =>
    rw [ReadsLiteral, append_assoc] at h
    exact h

section Loop

variable {text : List UInt8} {start : Nat}

/-- What follows a turn that goes on. -/
def afterTurn (start turns : Nat) (stream : Stream) (prevPosition : Nat) (isEscaped : Bool)
    (buffer : List UInt8) : Option StringLiteral :=
  match stream.advance with
  | (stream, true) => parseStringLoop start turns stream prevPosition isEscaped buffer
  | (stream, false) => some ⟨buffer, stream.reset start, .errorSyntax⟩

variable {buffer : List UInt8} {isEscaped : Bool} {turns prevPosition : Nat}

theorem parseStringLoop_goOn {prevPosition' : Nat} {stream : Stream} {isEscaped' : Bool}
    {buffer' : List UInt8} (h : parseStringTurn start stream prevPosition isEscaped buffer = .goOn
      prevPosition' isEscaped' buffer') :
    parseStringLoop start (turns + 1) stream prevPosition isEscaped buffer =
      afterTurn start turns stream prevPosition' isEscaped' buffer' := by
  rw [parseStringLoop, h]
  rfl

theorem parseStringLoop_finish {stream : Stream} {literal : StringLiteral}
    (h : parseStringTurn start stream prevPosition isEscaped buffer = .finish literal) :
    parseStringLoop start (turns + 1) stream prevPosition isEscaped buffer = some literal := by
  rw [parseStringLoop, h]

theorem afterTurn_eq {position : Nat} :
    afterTurn start turns (Stream.seek text position) prevPosition isEscaped buffer =
      if position + (Stream.seek text position).nextSize < text.length then
        parseStringLoop start turns
          (Stream.seek text (position + (Stream.seek text position).nextSize))
          prevPosition isEscaped buffer
      else some ⟨buffer, Stream.seek text start, .errorSyntax⟩ := by
  rw [afterTurn, Stream.advance_eq_seek, Stream.seek_text, Stream.seek_input]
  split_ifs with h
  · simp [h]
  · simp [h, Stream.reset_eq]

/-- The loop reads the body of a literal in this many turns, from every position that is near
enough to the end. -/
def LoopReads (text : List UInt8) (start turns : Nat) : Prop :=
  ∀ (position prevPosition : Nat) (buffer : List UInt8), prevPosition ≤ position →
    position ≤ text.length → text.length < turns + position →
    ∃ literal, parseStringLoop start turns (Stream.seek text position) prevPosition false buffer =
        some literal ∧
      ReadsLiteral text start (buffer ++ (Stream.seek text position).since prevPosition)
        (literalBody (text.drop position)) literal

section Turn

variable {turns position prevPosition : Nat} {buffer : List UInt8} {first : UInt8}
  {rest : List UInt8}

theorem afterTurn_reads (h : LoopReads text start turns)
    (hchar : Stream.CharAt text position first rest)
    (hprev : prevPosition ≤ position + (rest.length + 1))
    (hturns : text.length < turns + (position + (rest.length + 1))) :
    ∃ literal, afterTurn start turns (Stream.seek text position) prevPosition false buffer =
        some literal ∧
      ReadsLiteral text start
        (buffer ++ (Stream.seek text (position + (rest.length + 1))).since prevPosition)
        (literalBody (text.drop (position + (rest.length + 1)))) literal := by
  rw [afterTurn_eq, hchar.seek_nextSize]
  split_ifs with hnext
  · exact h _ _ _ hprev hchar.next_le hturns
  · refine ⟨_, rfl, ?_⟩
    rw [drop_eq_nil_of_le (not_lt.mp hnext)]
    exact ⟨rfl, rfl⟩

theorem loopReads_backslash (h : ∀ turns' < turns, LoopReads text start turns')
    (hchar : Stream.CharAt text position backslash rest)
    (hturns : text.length < turns + (position + 1)) :
    ∃ literal, afterTurn start turns (Stream.seek text position) (position + 1) true buffer =
        some literal ∧
      ReadsLiteral text start buffer (literalBody (text.drop position)) literal := by
  obtain ⟨hbytes, hsize⟩ := hchar.ascii (by decide)
  rw [afterTurn_eq, hsize, hbytes]
  split_ifs with hnext
  · obtain ⟨escaped, rest, hescaped⟩ := Stream.exists_charAt hnext
    obtain ⟨turns, rfl⟩ : ∃ n, turns = n + 1 := ⟨turns - 1, by omega⟩
    rw [parseStringLoop_goOn (by rw [parseStringTurn, if_pos rfl]), Stream.seek_input,
      hescaped.seek_nextSize, hescaped.escaped_eq]
    obtain ⟨literal, hliteral, hreads⟩ := afterTurn_reads
      (h turns turns.lt_succ_self) hescaped le_rfl
      (by omega)
    refine ⟨literal, hliteral, ?_⟩
    rw [Stream.since_self, append_nil] at hreads
    rw [hescaped.bytes, cons_append,
      literalBody_escaped (fun byte hbyte => isPlain_of_le (hescaped.rest byte hbyte))]
    exact hreads.map
  · refine ⟨_, rfl, ?_⟩
    rw [drop_eq_nil_of_le (not_lt.mp hnext)]
    exact ⟨rfl, rfl⟩

theorem loopReads_plain (h : LoopReads text start turns)
    (hchar : Stream.CharAt text position first rest) (hplain : IsPlain first)
    (hprev : prevPosition ≤ position)
    (hturns : text.length < turns + (position + (rest.length + 1))) :
    ∃ literal, afterTurn start turns (Stream.seek text position) prevPosition false buffer =
        some literal ∧
      ReadsLiteral text start (buffer ++ (Stream.seek text position).since prevPosition)
        (literalBody (text.drop position)) literal := by
  obtain ⟨literal, hliteral, hreads⟩ :=
    afterTurn_reads h hchar (hprev.trans (Nat.le_add_right ..)) hturns
  refine ⟨literal, hliteral, ?_⟩
  rw [hchar.since_eq hprev, ← append_assoc] at hreads
  rw [hchar.bytes, literalBody_plain]
  · exact hreads.map
  · rintro byte hbyte
    rcases mem_cons.mp hbyte with rfl | hbyte
    · exact hplain
    · exact isPlain_of_le (hchar.rest byte hbyte)

end Turn

/-- **The loop reads the body of a literal.** -/
theorem loopReads (turns : Nat) : LoopReads text start turns := by
  induction turns using Nat.strong_induction_on with
  | _ turns ih =>
    intro position prevPosition buffer hprev hposition hturns
    obtain ⟨turns, rfl⟩ : ∃ n, turns = n + 1 := ⟨turns - 1, by omega⟩
    replace ih : ∀ turns' ≤ turns, LoopReads text start turns' :=
      fun turns' hle => ih turns' (Nat.lt_succ_of_le hle)
    rcases hposition.eq_or_lt with rfl | hlt
    · -- The bytes end before a quote.
      have hturn : parseStringTurn start (Stream.seek text text.length) prevPosition false
          buffer = .goOn prevPosition false buffer := by
        rw [parseStringTurn, Stream.nextIs_of_ge le_rfl (by decide),
          Stream.nextIs_of_ge le_rfl (by decide), Stream.nextIs_of_ge le_rfl (by decide)]
        simp
      rw [parseStringLoop_goOn hturn, afterTurn_eq, Stream.nextSize_of_ge le_rfl, if_neg (by simp), drop_length]
      exact ⟨_, rfl, rfl, rfl⟩
    obtain ⟨first, rest, hchar⟩ := Stream.exists_charAt hlt
    have hnext : ∀ byte < 0x80, (Stream.seek text position).nextIs byte = decide (first = byte) :=
      fun byte hbyte => Bool.eq_iff_iff.mpr ((hchar.nextIs_iff hbyte).trans decide_eq_true_iff.symm)
    have hturn : parseStringTurn start (Stream.seek text position) prevPosition false buffer =
        if first = backslash then
          .goOn (position + 1) true (buffer ++ (Stream.seek text position).since prevPosition)
        else if first = quote then
          .finish ⟨buffer ++ (Stream.seek text position).since prevPosition,
            (Stream.seek text position).advance.1, .none⟩
        else if first = newline then
          .finish ⟨buffer, Stream.seek text start, .errorSyntax⟩
        else .goOn prevPosition false buffer := by
      rw [parseStringTurn, hnext backslash (by decide), hnext quote (by decide),
        hnext newline (by decide), Stream.reset_eq]
      simp
    split_ifs at hturn with hbackslash hquote hnewline
    · subst hbackslash
      rw [parseStringLoop_goOn hturn]
      exact loopReads_backslash (fun turns' hlt => ih turns' hlt.le) hchar (by omega)
    · subst hquote
      obtain ⟨hbytes, hsize⟩ := hchar.ascii (by decide)
      rw [parseStringLoop_finish hturn]
      refine ⟨_, rfl, ?_⟩
      rw [hbytes, literalBody_cons (by decide), if_pos rfl, ReadsLiteral, append_nil,
        Stream.advance_eq_seek, hsize, Stream.seek_text, Stream.seek_input, length_drop,
        Nat.sub_sub_self hlt]
    · subst hnewline
      rw [parseStringLoop_finish hturn, (hchar.ascii (by decide)).1,
        literalBody_cons (by decide), if_neg (by decide), if_pos rfl]
      exact ⟨_, rfl, rfl, rfl⟩
    · rw [parseStringLoop_goOn hturn]
      exact loopReads_plain (ih turns le_rfl) hchar ⟨hbackslash, hquote, hnewline⟩ hprev (by omega)

end Loop

/-! ### Pieces of a literal -/

/-- **A piece of a literal**: a byte that stands for itself, or any byte behind a backslash. -/
inductive Piece where
  | plain (byte : UInt8) (h : IsPlain byte)
  | escaped (byte : UInt8)

namespace Piece

/-- How a piece is written. -/
def bytes : Piece → List UInt8
  | plain byte _ => [byte]
  | escaped byte => [backslash, byte]

def value : Piece → UInt8
  | plain byte _ => byte
  | escaped byte => unescape byte

end Piece

theorem literalBody_eq_some_iff (bytes value rest : List UInt8) :
    literalBody bytes = some (value, rest) ↔ ∃ pieces : List Piece,
      bytes = pieces.flatMap Piece.bytes ++ quote :: rest ∧ value = pieces.map Piece.value := by
  constructor
  · intro h
    fun_induction literalBody bytes generalizing value with
    | case1 | case2 => cases h
    | case3 escaped bytes ih =>
      obtain ⟨⟨value, rest⟩, hbody, ⟨⟩⟩ := Option.map_eq_some_iff.mp h
      obtain ⟨pieces, rfl, rfl⟩ := ih value hbody
      exact ⟨.escaped escaped :: pieces, rfl, rfl⟩
    | case4 bytes =>
      cases h
      exact ⟨[], rfl, rfl⟩
    | case5 => cases h
    | case6 byte bytes hbackslash hquote hnewline ih =>
      obtain ⟨⟨value, rest⟩, hbody, ⟨⟩⟩ := Option.map_eq_some_iff.mp h
      obtain ⟨pieces, rfl, rfl⟩ := ih value hbody
      exact ⟨.plain byte ⟨hbackslash, hquote, hnewline⟩ :: pieces, rfl, rfl⟩
  · rintro ⟨pieces, rfl, rfl⟩
    induction pieces with
    | nil =>
      rw [flatMap_nil, nil_append, literalBody_cons (by decide), if_pos rfl]
      rfl
    | cons piece pieces ih =>
      cases piece with
      | plain byte h =>
        rw [flatMap_cons, append_assoc, Piece.bytes, literalBody_plain (by simpa using h), ih]
        rfl
      | escaped byte =>
        rw [flatMap_cons, append_assoc, Piece.bytes]
        exact (literalBody_backslash byte _).trans (congrArg (Option.map _) ih)

/-- A byte of a string, in a literal. -/
def escapeByte (byte : UInt8) : List UInt8 :=
  if byte = quote ∨ byte = backslash then [backslash, byte]
  else if byte = newline then [backslash, 0x6e]
  else if byte = 0x0d then [backslash, 0x72]
  else if byte = 0x09 then [backslash, 0x74]
  else if byte = 0 then [backslash, 0x30]
  else [byte]

theorem exists_piece (byte : UInt8) :
    ∃ piece : Piece, escapeByte byte = piece.bytes ∧ byte = piece.value := by
  rw [escapeByte]
  split_ifs with hself hnewline hreturn htab hnul
  · exact ⟨.escaped byte, rfl, by rcases hself with rfl | rfl <;> decide⟩
  · exact ⟨.escaped 0x6e, rfl, hnewline⟩
  · exact ⟨.escaped 0x72, rfl, hreturn⟩
  · exact ⟨.escaped 0x74, rfl, htab⟩
  · exact ⟨.escaped 0x30, rfl, hnul⟩
  · rw [not_or] at hself
    exact ⟨.plain byte ⟨hself.2, hself.1, hnewline⟩, rfl, rfl⟩

theorem exists_pieces (s : List UInt8) : ∃ pieces : List Piece,
    s.flatMap escapeByte = pieces.flatMap Piece.bytes ∧ s = pieces.map Piece.value := by
  induction s with
  | nil => exact ⟨[], rfl, rfl⟩
  | cons byte s ih =>
    obtain ⟨piece, hbytes, hvalue⟩ := exists_piece byte
    obtain ⟨pieces, hbytes', hvalue'⟩ := ih
    refine ⟨piece :: pieces, ?_, ?_⟩
    · rw [flatMap_cons, flatMap_cons, hbytes, hbytes']
    · rw [map_cons, ← hvalue, ← hvalue']

section Literal

variable {text : List UInt8} {start : Nat} {buffer : List UInt8}

theorem parseStringLiteral_reads {bytes : List UInt8} (h : text.drop start = quote :: bytes) :
    ∃ literal, parseStringLiteral buffer (Stream.seek text start) = some literal ∧
      ReadsLiteral text start [] (literalBody bytes) literal := by
  have hlt : start < text.length := by
    by_contra hge
    rw [drop_eq_nil_of_le (not_lt.mp hge)] at h
    cases h
  obtain ⟨first, rest, hchar⟩ := Stream.exists_charAt hlt
  obtain ⟨rfl, hrest⟩ := List.cons.inj (hchar.bytes.symm.trans h)
  obtain ⟨hbytes, hsize⟩ := hchar.ascii (by decide)
  obtain rfl := (List.cons.inj (hbytes.symm.trans h)).2
  rw [parseStringLiteral, if_pos ((hchar.nextIs_iff (by decide)).mpr rfl)]
  simp only [Stream.advance_eq_seek, Stream.seek_text, Stream.seek_input, hsize]
  have hreads := @loopReads text start (text.length + 1) (start + 1) (start + 1) [] le_rfl hlt
    (by omega)
  rwa [Stream.since_self] at hreads

theorem parseStringLiteral_of_ne (h : ∀ bytes, text.drop start ≠ quote :: bytes) :
    parseStringLiteral buffer (Stream.seek text start) =
      some ⟨buffer, Stream.seek text start, .errorSyntax⟩ := by
  have hnext : (Stream.seek text start).nextIs quote = false := by
    rcases Nat.lt_or_ge start text.length with hlt | hge
    · obtain ⟨first, rest, hchar⟩ := Stream.exists_charAt hlt
      refine Bool.eq_false_iff.mpr fun hquote => ?_
      obtain rfl := (hchar.nextIs_iff (by decide)).mp hquote
      exact h _ hchar.bytes
    · exact Stream.nextIs_of_ge hge (by decide)
  rw [parseStringLiteral, hnext]
  rfl

theorem parseStringLiteral_pieces {pieces : List Piece} {rest : List UInt8}
    (h : text.drop start = quote :: pieces.flatMap Piece.bytes ++ quote :: rest) :
    parseStringLiteral buffer (Stream.seek text start) =
      some ⟨pieces.map Piece.value,
        Stream.seek text (start + (pieces.flatMap Piece.bytes).length + 2), .none⟩ := by
  rw [cons_append] at h
  obtain ⟨literal, hliteral, hreads⟩ := @parseStringLiteral_reads text start buffer _ h
  rw [(literalBody_eq_some_iff _ _ rest).mpr ⟨pieces, rfl, rfl⟩] at hreads
  have hend : text.length - rest.length = start + (pieces.flatMap Piece.bytes).length + 2 := by
    have hlen := congrArg List.length h
    simp only [length_drop, length_append, length_cons] at hlen
    omega
  rw [hliteral, hreads, hend]
  rfl

end Literal

/-- **A literal is read exactly if it is one.** What stands for a string is read as that string,
and the stream is behind the closing quote; otherwise it stays where it is. -/
theorem parseStringLiteral_exact (text : List UInt8) (start : Nat) (buffer : List UInt8) :
    (∀ s rest, text.drop start = quote :: s.flatMap escapeByte ++ quote :: rest →
      parseStringLiteral buffer (Stream.seek text start) =
        some ⟨s, Stream.seek text (start + (s.flatMap escapeByte).length + 2), .none⟩) ∧
    (∀ (pieces : List Piece) rest,
      text.drop start = quote :: pieces.flatMap Piece.bytes ++ quote :: rest →
      parseStringLiteral buffer (Stream.seek text start) = some ⟨pieces.map Piece.value,
          Stream.seek text (start + (pieces.flatMap Piece.bytes).length + 2), .none⟩) ∧
    ((¬ ∃ (pieces : List Piece) (rest : List UInt8),
        text.drop start = quote :: pieces.flatMap Piece.bytes ++ quote :: rest) →
      ∃ buffer', parseStringLiteral buffer (Stream.seek text start) =
        some ⟨buffer', Stream.seek text start, .errorSyntax⟩) := by
  refine ⟨fun s rest h => ?_, fun pieces rest => parseStringLiteral_pieces, fun h => ?_⟩
  · obtain ⟨pieces, hbytes, hvalue⟩ := exists_pieces s
    rw [hbytes] at h ⊢
    rw [hvalue]
    exact parseStringLiteral_pieces h
  · by_cases hquote : ∃ bytes, text.drop start = quote :: bytes
    · obtain ⟨bytes, hbytes⟩ := hquote
      obtain ⟨⟨buffer', stream, error⟩, hliteral, hreads⟩ :=
        @parseStringLiteral_reads text start buffer _ hbytes
      cases hbody : literalBody bytes with
      | none =>
        rw [hbody] at hreads
        obtain ⟨rfl, rfl⟩ := hreads
        exact ⟨buffer', hliteral⟩
      | some body =>
        obtain ⟨pieces, rfl, -⟩ := (literalBody_eq_some_iff _ body.1 body.2).mp hbody
        exact absurd ⟨pieces, body.2, hbytes⟩ h
    · exact ⟨buffer, parseStringLiteral_of_ne (not_exists.mp hquote)⟩

theorem parseStringLiteral_tab :
    parseStringLiteral [] (Stream.seek [quote, backslash, 0x74, quote] 0) =
      some ⟨[0x09], Stream.seek [quote, backslash, 0x74, quote] 4, .none⟩ :=
  (parseStringLiteral_exact [quote, backslash, 0x74, quote] 0 []).1 [0x09] [] (by decide)

/-- A letter behind a backslash is no way to write a string, yet it is read. -/
theorem parseStringLiteral_escapedLetter :
    (¬ ∃ s rest : List UInt8, [quote, backslash, 0x61, quote] =
      quote :: s.flatMap escapeByte ++ quote :: rest) ∧
    parseStringLiteral [] (Stream.new [quote, backslash, 0x61, quote]) =
      some ⟨[0x61], Stream.seek [quote, backslash, 0x61, quote] 4, .none⟩ := by
  refine ⟨?_, by decide +kernel⟩
  rintro ⟨s, rest, h⟩
  cases s with
  | nil => simp [quote, backslash] at h
  | cons byte s =>
    rw [flatMap_cons, escapeByte] at h
    split_ifs at h with hself hnewline hreturn htab hnul
    · rcases hself with rfl | rfl <;> simp [quote, backslash] at h
    all_goals simp [quote, backslash] at h
    obtain ⟨rfl, -⟩ := h
    exact hself (Or.inr rfl)

end TreeSitter.Lib
