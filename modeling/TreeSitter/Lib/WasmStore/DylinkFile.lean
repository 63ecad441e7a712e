import TreeSitter.Lib.WasmStore.DylinkInfo

/-!
# TreeSitter.Lib.WasmStore.DylinkFile

Wasm files with a **`dylink.0` section**, and that the parser reads them back. Lengths and numbers
may have any encoding of five bytes at most; sections and subsections that are not asked for may
stand in front, and any bytes behind.
-/

namespace TreeSitter.Lib.WasmStore

open List Library WasmReader

/-! ### The form of a file -/

/-- A section or a subsection: a byte for its kind, the length of the contents, the contents. -/
def Tagged (tag : UInt8) (payload bytes : List UInt8) : Prop :=
  ∃ size, Uleb32 size payload.length ∧ bytes = tag :: (size ++ payload)

/-- The payload of a custom section: the name with its length, and what the name is for. -/
def IsCustom (name content payload : List UInt8) : Prop :=
  ∃ size, Uleb32 size name.length ∧ payload = size ++ (name ++ content)

/-- The payload of a mem-info subsection. -/
def IsMemInfo (info : DylinkInfo) (payload : List UInt8) : Prop :=
  ∃ memorySize memoryAlign tableSize tableAlign,
    Uleb32 memorySize info.memorySize.toNat ∧ Uleb32 memoryAlign info.memoryAlign.toNat ∧
      Uleb32 tableSize info.tableSize.toNat ∧ Uleb32 tableAlign info.tableAlign.toNat ∧
      payload = memorySize ++ (memoryAlign ++ (tableSize ++ tableAlign))

/-- A subsection of another type. -/
def IsOtherSubsection (bytes : List UInt8) : Prop :=
  ∃ kind payload, kind ≠ wasmDylinkMemInfo ∧ Tagged kind payload bytes

/-- A section without the numbers. -/
inductive IsOtherSection (bytes : List UInt8) : Prop where
  /-- no custom section -/
  | standard (kind : UInt8) (payload : List UInt8) (hkind : kind ≠ wasmCustomSection)
      (h : Tagged kind payload bytes)
  /-- a custom section of another name -/
  | custom (name content payload : List UInt8) (hname : name ≠ dylinkName)
      (hpayload : IsCustom name content payload) (h : Tagged wasmCustomSection payload bytes)
  /-- one of the name `dylink.0`, but with no mem-info subsection -/
  | dylink (subsections : List (List UInt8)) (payload : List UInt8)
      (hsubsections : ∀ subsection ∈ subsections, IsOtherSubsection subsection)
      (hpayload : IsCustom dylinkName subsections.flatten payload)
      (h : Tagged wasmCustomSection payload bytes)

/-- The `dylink.0` section: other subsections, the mem-info subsection, and what follows it. -/
def IsDylinkSection (info : DylinkInfo) (bytes : List UInt8) : Prop :=
  ∃ (others : List (List UInt8)) (memory memInfo tail payload : List UInt8),
    (∀ subsection ∈ others, IsOtherSubsection subsection) ∧ IsMemInfo info memory ∧
      Tagged wasmDylinkMemInfo memory memInfo ∧
      IsCustom dylinkName (others.flatten ++ (memInfo ++ tail)) payload ∧
      Tagged wasmCustomSection payload bytes

/-- The file: the header, other sections, the `dylink.0` section, and what follows it. -/
def IsDylinkFile (info : DylinkInfo) (bytes : List UInt8) : Prop :=
  ∃ (others : List (List UInt8)) (dylink tail : List UInt8),
    (∀ bytes ∈ others, IsOtherSection bytes) ∧ IsDylinkSection info dylink ∧
      bytes = wasmMagicNumber ++ (wasmVersion ++ (others.flatten ++ (dylink ++ tail)))

/-! ### Reading one piece -/

theorem orInvalid_some {α β : Type} (a : α) (next : α → Except Fault (Except WasmError β)) :
    orInvalid (.ok (some a)) next = next a := rfl

variable {reader : WasmReader} {bytes payload tail : List UInt8}

theorem valid_advance (h : reader.Valid) (hrest : reader.rest = bytes ++ tail) :
    (reader.advance bytes.length).Valid := h.advance (by rw [hrest]; simp)

theorem rest_advance_append (hrest : reader.rest = bytes ++ tail) :
    (reader.advance bytes.length).rest = tail := by
  rw [rest_advance, hrest, drop_left]

theorem rest_cut (h : reader.Valid) (hrest : reader.rest = payload ++ tail) :
    ({ reader with size := reader.offset + payload.length } : WasmReader).rest = payload := by
  have hlen := length_rest h
  have hle := h.offset_le
  rw [hrest, length_append] at hlen
  calc (reader.data.take (reader.offset + payload.length)).drop reader.offset
      = ((reader.data.take reader.size).take (reader.offset + payload.length)).drop
          reader.offset := by rw [take_take, Nat.min_eq_left (by omega)]
    _ = reader.rest.take payload.length := by rw [drop_take, Nat.add_sub_cancel_left, rest]
    _ = payload := by rw [hrest, take_left]

theorem valid_cut (h : reader.Valid) (hrest : reader.rest = payload ++ tail) :
    ({ reader with size := reader.offset + payload.length } : WasmReader).Valid := by
  have hlen := length_rest h
  have hsize := h.size_le
  rw [hrest, length_append] at hlen
  refine ⟨Nat.le_add_right _ _, ?_⟩
  have := h.offset_le
  dsimp only
  omega

variable {tag : UInt8}

/-- The header of a section or subsection, and where the reader stands then. -/
theorem exists_read_tagged (h : reader.Valid) (hrest : reader.rest = bytes ++ tail)
    (hbytes : Tagged tag payload bytes) :
    ∃ count, reader.readU8 = .ok (some (tag, reader.advance 1)) ∧
      (reader.advance 1).readUleb128 =
        .ok (some (UInt32.ofNat payload.length, reader.advance count)) ∧
      (reader.advance count).Valid ∧ (reader.advance count).rest = payload ++ tail ∧
      (UInt32.ofNat payload.length).toNat = payload.length ∧
      count + payload.length = bytes.length := by
  obtain ⟨size, hsize, rfl⟩ := hbytes
  have hrest₁ : reader.rest = [tag] ++ (size ++ (payload ++ tail)) := by
    rw [hrest]
    simp
  have h₁ : (reader.advance 1).Valid := valid_advance h hrest₁
  have hrest₂ : (reader.advance 1).rest = size ++ (payload ++ tail) := rest_advance_append hrest₁
  refine ⟨1 + size.length, ?_, ?_, ?_, ?_, UInt32.toNat_ofNat_of_lt' hsize.lt, ?_⟩
  · rw [readU8_eq h, hrest₁]
    rfl
  · rw [readUleb128_append h₁ hrest₂ hsize, advance_advance]
  · rw [← advance_advance]
    exact valid_advance h₁ hrest₂
  · rw [← advance_advance]
    exact rest_advance_append hrest₂
  · rw [length_cons, length_append]
    omega

theorem checkedSub_size (h : reader.Valid) (hrest : reader.rest = payload ++ tail) :
    checkedSub reader.size reader.offset = .ok (payload.length + tail.length) := by
  rw [checkedSub, if_pos h.offset_le, ← length_rest h, hrest, length_append]

theorem offset_lt_size (h : reader.Valid) (hne : reader.rest ≠ []) :
    reader.offset < reader.size := by
  have hpos := length_pos_iff.mpr hne
  rw [length_rest h] at hpos
  omega

theorem Tagged.append_ne_nil (h : Tagged tag payload bytes) (hrest : reader.rest = bytes ++ tail) :
    reader.rest ≠ [] := by
  obtain ⟨size, -, rfl⟩ := h
  rw [hrest]
  exact cons_ne_nil _ _

/-! ### The subsections -/

theorem readUleb128_value (h : reader.Valid) {value : UInt32}
    (hrest : reader.rest = bytes ++ tail) (hbytes : Uleb32 bytes value.toNat) :
    reader.readUleb128 = .ok (some (value, reader.advance bytes.length)) := by
  rw [readUleb128_append h hrest hbytes, UInt32.ofNat_toNat]

variable {info : DylinkInfo}

theorem memInfo_of_isMemInfo (h : reader.Valid) (hpayload : IsMemInfo info reader.rest) :
    memInfo reader.size reader = .ok (.ok info) := by
  obtain ⟨size, align, tableSize, tableAlign, hs, ha, hts, hta, hrest⟩ := hpayload
  have h₁ := valid_advance h hrest
  have hrest₁ := rest_advance_append hrest
  have h₂ := valid_advance h₁ hrest₁
  have hrest₂ := rest_advance_append hrest₁
  have h₃ := valid_advance h₂ hrest₂
  have hrest₃ := rest_advance_append hrest₂
  rw [← append_nil tableAlign] at hrest₃
  have h₄ := valid_advance h₃ hrest₃
  have hrest₄ := rest_advance_append hrest₃
  have hend := length_rest h₄
  have hle := h₄.offset_le
  rw [hrest₄, length_nil] at hend
  rw [memInfo, readUleb128_value h hrest hs, orInvalid_some]
  dsimp only
  rw [readUleb128_value h₁ hrest₁ ha, orInvalid_some]
  dsimp only
  rw [readUleb128_value h₂ hrest₂ hts, orInvalid_some]
  dsimp only
  rw [readUleb128_value h₃ hrest₃ hta, orInvalid_some]
  dsimp only
  have hsize : ((((reader.advance size.length).advance align.length).advance
      tableSize.length).advance tableAlign.length).size = reader.size := rfl
  rw [if_neg (by omega)]

theorem subsections_other (h : reader.Valid) (hrest : reader.rest = bytes ++ tail)
    (hbytes : IsOtherSubsection bytes) (fuel : Nat) :
    subsections reader.size (fuel + 1) reader =
      subsections reader.size fuel (reader.advance bytes.length) := by
  obtain ⟨kind, payload, hkind, htagged⟩ := hbytes
  obtain ⟨count, hread, hlength, hvalid, hrest', hnat, hcount⟩ :=
    exists_read_tagged h hrest htagged
  have hlt := offset_lt_size h (htagged.append_ne_nil hrest)
  have hsub := checkedSub_size hvalid hrest'
  change checkedSub reader.size _ = _ at hsub
  rw [subsections, if_neg (Nat.not_le.mpr hlt), hread, orInvalid_some]
  dsimp only
  rw [hlength, orInvalid_some]
  dsimp only
  rw [hsub, ok_bind, hnat, if_neg (by omega), if_neg hkind]
  have hmoved : reader.advance bytes.length =
      { reader.advance count with offset := (reader.advance count).offset + payload.length } := by
    rw [← hcount, ← advance_advance]
    rfl
  rw [hmoved]

variable {others : List (List UInt8)}

/-- A loop that passes over each of the pieces passes over all of them. -/
theorem passes_flatten {α : Type} {f : Nat → Nat → WasmReader → α} {P : List UInt8 → Prop}
    (hone : ∀ {reader : WasmReader} {bytes tail : List UInt8}, reader.Valid →
      reader.rest = bytes ++ tail → P bytes → ∀ fuel,
        f reader.size (fuel + 1) reader = f reader.size fuel (reader.advance bytes.length))
    (h : reader.Valid) (hrest : reader.rest = others.flatten ++ tail)
    (hothers : ∀ bytes ∈ others, P bytes) (fuel : Nat) :
    f reader.size (fuel + others.length) reader =
      f reader.size fuel (reader.advance others.flatten.length) := by
  induction others generalizing reader with
  | nil => rfl
  | cons bytes others ih =>
    obtain ⟨hbytes, hothers⟩ := forall_mem_cons.mp hothers
    rw [flatten_cons, append_assoc] at hrest
    rw [length_cons, ← Nat.add_assoc, hone h hrest hbytes, flatten_cons, length_append,
      ← advance_advance]
    exact ih (valid_advance h hrest) (rest_advance_append hrest) hothers

theorem subsections_others (h : reader.Valid) (hrest : reader.rest = others.flatten ++ tail)
    (hothers : ∀ subsection ∈ others, IsOtherSubsection subsection) (fuel : Nat) :
    subsections reader.size (fuel + others.length) reader =
      subsections reader.size fuel (reader.advance others.flatten.length) :=
  passes_flatten subsections_other h hrest hothers fuel

theorem subsections_memInfo (h : reader.Valid) {memory : List UInt8}
    (hrest : reader.rest = bytes ++ tail) (hmemory : IsMemInfo info memory)
    (hbytes : Tagged wasmDylinkMemInfo memory bytes) (fuel : Nat) :
    subsections reader.size (fuel + 1) reader = .ok (.ok (some info)) := by
  obtain ⟨count, hread, hlength, hvalid, hrest', hnat, hcount⟩ :=
    exists_read_tagged h hrest hbytes
  have hlt := offset_lt_size h (hbytes.append_ne_nil hrest)
  have hsub := checkedSub_size hvalid hrest'
  change checkedSub reader.size _ = _ at hsub
  rw [subsections, if_neg (Nat.not_le.mpr hlt), hread, orInvalid_some]
  dsimp only
  rw [hlength, orInvalid_some]
  dsimp only
  rw [hsub, ok_bind, hnat, if_neg (by omega), if_pos rfl]
  have hinfo := memInfo_of_isMemInfo (valid_cut hvalid hrest')
    (by rw [rest_cut hvalid hrest']; exact hmemory)
  dsimp only at hinfo
  rw [hinfo]
  rfl

theorem subsections_nil (h : reader.Valid) (hrest : reader.rest = []) (fuel : Nat) :
    subsections reader.size (fuel + 1) reader = .ok (.ok none) := by
  have hlen := length_rest h
  rw [hrest, length_nil] at hlen
  rw [subsections, if_pos (by omega)]

/-! ### The sections -/

theorem Tagged.one_le_length (h : Tagged tag payload bytes) : 1 ≤ bytes.length := by
  obtain ⟨size, -, rfl⟩ := h
  rw [length_cons]
  exact Nat.le_add_left 1 _

theorem IsOtherSection.one_le_length (h : IsOtherSection bytes) : 1 ≤ bytes.length := by
  cases h with
  | standard kind payload hkind h | custom name content payload hname hpayload h
  | dylink subsections payload hsubsections hpayload h => exact h.one_le_length

theorem length_le_length_flatten {pieces : List (List UInt8)}
    (h : ∀ piece ∈ pieces, 1 ≤ piece.length) : pieces.length ≤ pieces.flatten.length := by
  have hsum := card_nsmul_le_sum (pieces.map List.length) 1 (by simpa using h)
  simpa [length_flatten] using hsum

section

variable (h : reader.Valid)

include h

theorem customSection_eq {name content : List UInt8} (hrest : IsCustom name content reader.rest) :
    ∃ count, (reader.advance count).Valid ∧ (reader.advance count).rest = content ∧
      customSection reader.size reader =
        if name = dylinkName then
          subsections reader.size (reader.data.length + 1) (reader.advance count)
        else .ok (.ok none) := by
  obtain ⟨size, hsize, hrest⟩ := hrest
  have h₁ := valid_advance h hrest
  have hrest₁ := rest_advance_append hrest
  have hsub := checkedSub_size h₁ hrest₁
  have hname : ((reader.data.take (reader.offset + size.length + name.length)).drop
      (reader.offset + size.length)) = name := rest_cut h₁ hrest₁
  have hbound := (valid_cut h₁ hrest₁).size_le
  refine ⟨size.length + name.length, ?_, ?_, ?_⟩
  · rw [← advance_advance]
    exact valid_advance h₁ hrest₁
  · rw [← advance_advance]
    exact rest_advance_append hrest₁
  · rw [customSection, readUleb128_append h hrest hsize, orInvalid_some]
    dsimp only
    rw [hsub, ok_bind, UInt32.toNat_ofNat_of_lt' hsize.lt, if_neg (by omega)]
    by_cases hlen : name.length = 8
    · have hslice : slice reader.data (reader.offset + size.length)
          (reader.offset + size.length + name.length) = .ok name := by
        rw [slice, if_pos ⟨Nat.le_add_right _ _, hbound⟩, hname]
      change (if UInt32.ofNat name.length = 8 then (do
        let name ← slice reader.data (reader.offset + size.length)
          (reader.offset + size.length + name.length)
        _) else _) = _
      rw [if_pos (by rw [hlen]; rfl), hslice, ok_bind, ← advance_advance]
      rfl
    · have hother : UInt32.ofNat name.length ≠ 8 := by
        rw [Ne, ← UInt32.toNat_inj, UInt32.toNat_ofNat_of_lt' hsize.lt]
        exact hlen
      rw [if_neg hother, if_neg (fun h => hlen (by rw [h]; rfl))]

theorem length_rest_le : reader.rest.length ≤ reader.data.length := by
  rw [length_rest h]
  exact (Nat.sub_le _ _).trans h.size_le

omit h in
theorem IsOtherSubsection.one_le_length (h : IsOtherSubsection bytes) : 1 ≤ bytes.length := by
  obtain ⟨kind, payload, -, h⟩ := h
  exact h.one_le_length

/-- The loop over the subsections, started by a custom section, gets past all other ones. -/
theorem subsections_start (hrest : reader.rest = others.flatten ++ tail)
    (hothers : ∀ subsection ∈ others, IsOtherSubsection subsection) :
    ∃ fuel, subsections reader.size (reader.data.length + 1) reader =
      subsections reader.size (fuel + 1) (reader.advance others.flatten.length) := by
  have hcount := length_le_length_flatten fun piece hpiece => (hothers piece hpiece).one_le_length
  have hlen := length_rest_le h
  rw [hrest, length_append] at hlen
  refine ⟨reader.data.length - others.length, ?_⟩
  rw [← subsections_others h hrest hothers]
  congr 1
  omega

theorem customSection_others (hothers : ∀ subsection ∈ others, IsOtherSubsection subsection)
    (hrest : IsCustom dylinkName others.flatten reader.rest) :
    customSection reader.size reader = .ok (.ok none) := by
  obtain ⟨count, hvalid, hcontent, hcustom⟩ := customSection_eq h hrest
  rw [← append_nil others.flatten] at hcontent
  obtain ⟨fuel, hstart⟩ := subsections_start hvalid hcontent hothers
  rw [hcustom, if_pos rfl]
  exact hstart.trans (subsections_nil (valid_advance hvalid hcontent)
    (rest_advance_append hcontent) fuel)

theorem customSection_memInfo {memory memInfo : List UInt8}
    (hothers : ∀ subsection ∈ others, IsOtherSubsection subsection)
    (hmemory : IsMemInfo info memory) (hmemInfo : Tagged wasmDylinkMemInfo memory memInfo)
    (hrest : IsCustom dylinkName (others.flatten ++ (memInfo ++ tail)) reader.rest) :
    customSection reader.size reader = .ok (.ok (some info)) := by
  obtain ⟨count, hvalid, hcontent, hcustom⟩ := customSection_eq h hrest
  obtain ⟨fuel, hstart⟩ := subsections_start hvalid hcontent hothers
  rw [hcustom, if_pos rfl]
  exact hstart.trans (subsections_memInfo (valid_advance hvalid hcontent)
    (rest_advance_append hcontent) hmemory hmemInfo fuel)

theorem sections_tagged (hrest : reader.rest = bytes ++ tail)
    (hbytes : Tagged tag payload bytes) (fuel : Nat) :
    ∃ inner : WasmReader, inner.Valid ∧ inner.rest = payload ∧
      (tag ≠ wasmCustomSection ∨ customSection inner.size inner = .ok (.ok none) →
        sections (fuel + 1) reader = sections fuel (reader.advance bytes.length)) ∧
      ∀ info, tag = wasmCustomSection → customSection inner.size inner = .ok (.ok (some info)) →
        sections (fuel + 1) reader = .ok (.ok info) := by
  obtain ⟨count, hread, hlength, hvalid, hrest', hnat, hcount⟩ :=
    exists_read_tagged h hrest hbytes
  have hlt := offset_lt_size h (hbytes.append_ne_nil hrest)
  have hmoved : reader.advance bytes.length =
      { reader.advance count with offset := (reader.advance count).offset + payload.length } := by
    rw [← hcount, ← advance_advance]
    rfl
  refine ⟨_, valid_cut hvalid hrest', rest_cut hvalid hrest', fun hskip => ?_,
    fun info htag hinfo => ?_⟩
  · rw [sections, if_neg (Nat.not_le.mpr hlt), hread, orInvalid_some]
    dsimp only
    rw [hlength, orInvalid_some]
    dsimp only
    rw [checkedSub_size hvalid hrest', ok_bind, hnat, if_neg (by omega), hmoved]
    split
    next htag =>
      rw [hskip.resolve_left fun h => h htag]
      rfl
    next => rfl
  · rw [sections, if_neg (Nat.not_le.mpr hlt), hread, orInvalid_some]
    dsimp only
    rw [hlength, orInvalid_some]
    dsimp only
    rw [checkedSub_size hvalid hrest', ok_bind, hnat, if_neg (by omega), if_pos htag, hinfo]
    rfl

theorem sections_other (hrest : reader.rest = bytes ++ tail)
    (hbytes : IsOtherSection bytes) (fuel : Nat) :
    sections (fuel + 1) reader = sections fuel (reader.advance bytes.length) := by
  cases hbytes with
  | standard kind payload hkind htagged =>
    obtain ⟨inner, -, -, hskip, -⟩ := sections_tagged h hrest htagged fuel
    exact hskip (.inl hkind)
  | custom name content payload hname hpayload htagged =>
    obtain ⟨inner, hinner, rfl, hskip, -⟩ := sections_tagged h hrest htagged fuel
    obtain ⟨count, -, -, hcustom⟩ := customSection_eq hinner hpayload
    rw [if_neg hname] at hcustom
    exact hskip (.inr hcustom)
  | dylink subsections payload hsubsections hpayload htagged =>
    obtain ⟨inner, hinner, rfl, hskip, -⟩ := sections_tagged h hrest htagged fuel
    exact hskip (.inr (customSection_others hinner hsubsections hpayload))

theorem sections_others (hrest : reader.rest = others.flatten ++ tail)
    (hothers : ∀ bytes ∈ others, IsOtherSection bytes) (fuel : Nat) :
    sections (fuel + others.length) reader =
      sections fuel (reader.advance others.flatten.length) :=
  passes_flatten (f := fun _ => sections) sections_other h hrest hothers fuel

theorem sections_dylink (hrest : reader.rest = bytes ++ tail)
    (hbytes : IsDylinkSection info bytes) (fuel : Nat) :
    sections (fuel + 1) reader = .ok (.ok info) := by
  obtain ⟨others, memory, memInfo, rest, payload, hothers, hmemory, hmemInfo, hpayload,
    htagged⟩ := hbytes
  obtain ⟨inner, hinner, rfl, -, hinfo⟩ := sections_tagged h hrest htagged fuel
  exact hinfo info rfl (customSection_memInfo hinner hothers hmemory hmemInfo hpayload)

end

/-! ### The whole file -/

/-- **A file with a `dylink.0` section is read back.** -/
theorem dylinkInfoParse_of_isDylinkFile (h : IsDylinkFile info bytes) :
    dylinkInfoParse bytes = .ok (.ok info) := by
  obtain ⟨others, dylink, tail, hothers, hdylink, rfl⟩ := h
  set bytes := wasmMagicNumber ++ (wasmVersion ++ (others.flatten ++ (dylink ++ tail)))
  have hlen : bytes.length = 8 + (others.flatten.length + (dylink.length + tail.length)) := by
    simp [bytes, wasmMagicNumber, wasmVersion]
    omega
  have hmagic : slice bytes 0 4 = .ok wasmMagicNumber := by
    rw [slice, if_pos ⟨by omega, by omega⟩]
    rfl
  have hversion : slice bytes 4 8 = .ok wasmVersion := by
    rw [slice, if_pos ⟨by omega, by omega⟩]
    rfl
  have hvalid : (⟨bytes, 8, bytes.length⟩ : WasmReader).Valid := ⟨by dsimp only; omega, le_refl _⟩
  have hrest : (⟨bytes, 8, bytes.length⟩ : WasmReader).rest =
      others.flatten ++ (dylink ++ tail) := by
    rw [rest, take_length]
    rfl
  have hcount := length_le_length_flatten fun piece hpiece => (hothers piece hpiece).one_le_length
  have hfuel : bytes.length + 1 = (bytes.length - others.length) + 1 + others.length := by omega
  rw [dylinkInfoParse, if_neg (by omega), hmagic, ok_bind, if_neg (fun h => h rfl), hversion,
    ok_bind, if_neg (fun h => h rfl), hfuel, sections_others hvalid hrest hothers]
  exact sections_dylink (valid_advance hvalid hrest) (rest_advance_append hrest) hdylink _

/-- A section or subsection with the shortest encoding of its length. -/
def tagged (tag : UInt8) (payload : List UInt8) : List UInt8 :=
  tag :: (ulebEncode payload.length ++ payload)

theorem tagged_spec (tag : UInt8) (h : payload.length < 2 ^ 32) :
    Tagged tag payload (tagged tag payload) := ⟨_, uleb32_ulebEncode h, rfl⟩

theorem length_tagged_le (tag : UInt8) (h : payload.length < 2 ^ 32) :
    (tagged tag payload).length ≤ payload.length + 6 := by
  have hlen := (uleb32_ulebEncode h).length_le
  rw [tagged, length_cons, length_append]
  omega

/-- The numbers, each in its shortest encoding. -/
def memInfoBytes (info : DylinkInfo) : List UInt8 :=
  ulebEncode info.memorySize.toNat ++ (ulebEncode info.memoryAlign.toNat ++
    (ulebEncode info.tableSize.toNat ++ ulebEncode info.tableAlign.toNat))

/-- The payload of a `dylink.0` section with nothing but the numbers. -/
def dylinkPayload (info : DylinkInfo) : List UInt8 :=
  ulebEncode 8 ++ (dylinkName ++ tagged wasmDylinkMemInfo (memInfoBytes info))

/-- A file with nothing but the numbers. -/
def dylinkFile (info : DylinkInfo) : List UInt8 :=
  wasmMagicNumber ++ (wasmVersion ++ tagged wasmCustomSection (dylinkPayload info))

theorem length_ulebEncode_toNat_le (value : UInt32) : (ulebEncode value.toNat).length ≤ 5 :=
  (uleb32_ulebEncode value.toNat_lt).length_le

theorem length_memInfoBytes_le (info : DylinkInfo) : (memInfoBytes info).length ≤ 20 := by
  have h₁ := length_ulebEncode_toNat_le info.memorySize
  have h₂ := length_ulebEncode_toNat_le info.memoryAlign
  have h₃ := length_ulebEncode_toNat_le info.tableSize
  have h₄ := length_ulebEncode_toNat_le info.tableAlign
  rw [memInfoBytes, length_append, length_append, length_append]
  omega

theorem isDylinkFile_dylinkFile (info : DylinkInfo) : IsDylinkFile info (dylinkFile info) := by
  have hmemory := length_memInfoBytes_le info
  have hmemory' : (memInfoBytes info).length < 2 ^ 32 := by omega
  have hmemInfo := length_tagged_le wasmDylinkMemInfo hmemory'
  have hname : Uleb32 (ulebEncode 8) dylinkName.length := uleb32_ulebEncode (by norm_num)
  have hpayload : (dylinkPayload info).length < 2 ^ 32 := by
    have hlen := hname.length_le
    have height : dylinkName.length = 8 := rfl
    rw [dylinkPayload, length_append, length_append]
    omega
  refine ⟨[], _, [], forall_mem_nil _, ⟨[], memInfoBytes info, _, [], dylinkPayload info,
    forall_mem_nil _, ?_, tagged_spec _ hmemory', ?_, tagged_spec _ hpayload⟩, ?_⟩
  · exact ⟨_, _, _, _, uleb32_ulebEncode (UInt32.toNat_lt _), uleb32_ulebEncode (UInt32.toNat_lt _),
      uleb32_ulebEncode (UInt32.toNat_lt _), uleb32_ulebEncode (UInt32.toNat_lt _), rfl⟩
  · refine ⟨_, hname, ?_⟩
    rw [append_nil]
    rfl
  · rw [append_nil]
    rfl

/-- **The parser is safe and faithful**: it always comes back, it reads every file with the numbers
back, for all numbers there is such a file, and `read_uleb128` accepts just the encodings. -/
theorem dylinkInfoParse_safe_and_faithful :
    (∀ bytes, NoFault (dylinkInfoParse bytes)) ∧
      (∀ info bytes, IsDylinkFile info bytes → dylinkInfoParse bytes = .ok (.ok info)) ∧
      (∀ info, IsDylinkFile info (dylinkFile info)) ∧
      ∀ reader : WasmReader, reader.Valid → NoFault reader.readUleb128 ∧
        ∀ value reader', reader.readUleb128 = .ok (some (value, reader')) ↔
          ∃ enc, enc <+: reader.rest ∧ Uleb32 enc value.toNat ∧
            reader' = reader.advance enc.length :=
  ⟨dylinkInfoParse_noFault, fun _ _ => dylinkInfoParse_of_isDylinkFile, isDylinkFile_dylinkFile,
    fun _ h => ⟨noFault_readUleb128 h, fun value _ => readUleb128_eq_some_iff h value⟩⟩

theorem dylinkInfoParse_safe_and_faithful_example :
    dylinkInfoParse (dylinkFile ⟨300, 2, 0, 0⟩) = .ok (.ok ⟨300, 2, 0, 0⟩) ∧
      (⟨[0xFF, 0xE5, 0x8E, 0x26], 1, 4⟩ : WasmReader).readUleb128 =
        .ok (some (624485, ⟨[0xFF, 0xE5, 0x8E, 0x26], 4, 4⟩)) :=
  ⟨dylinkInfoParse_safe_and_faithful.2.1 _ _
      (dylinkInfoParse_safe_and_faithful.2.2.1 ⟨300, 2, 0, 0⟩),
    ((dylinkInfoParse_safe_and_faithful.2.2.2 ⟨[0xFF, 0xE5, 0x8E, 0x26], 1, 4⟩
      ⟨by decide, by decide⟩).2 _ _).mpr ⟨[0xE5, 0x8E, 0x26], by decide, by decide, rfl⟩⟩

end TreeSitter.Lib.WasmStore
