import TreeSitter.Lib.WasmStdlib.Allocator

/-!
# TreeSitter.Lib.WasmStdlib.Regions

What the allocator keeps about its **regions**, and that each of its functions keeps it.

The headers in the memory cut the heap, from its start to the bump pointer, into consecutive
regions; each region is a live block or in the free list, and never both (`Heap.Inv`). Both are
paths in the memory: a region leads to the one behind it by its size, and a free one to its
successor in the free list.

Nothing here depends on where the memory ends: an access outside of it traps.
-/

namespace TreeSitter.Lib.WasmStdlib

open List Library

/-! ### Words -/

variable {bytes : Nat → UInt8} {address value : Nat}

theorem word_setWord_self (h : value < 2 ^ 32) :
    word (setWord bytes address value) address = value := by
  simp only [word, setWord, if_true, Nat.add_eq_left, Nat.add_left_cancel_iff, one_ne_zero,
    OfNat.ofNat_ne_zero, OfNat.ofNat_ne_one, if_false, UInt8.toNat_ofNat', Nat.reducePow,
    Nat.reduceEqDiff]
  omega

theorem setWord_of_outside {x : Nat} (h : x < address ∨ address + 4 ≤ x) :
    setWord bytes address value x = bytes x := by
  unfold setWord
  rw [if_neg (by omega), if_neg (by omega), if_neg (by omega), if_neg (by omega)]

theorem word_congr {bytes' : Nat → UInt8}
    (h : ∀ x, address ≤ x → x < address + 4 → bytes' x = bytes x) :
    word bytes' address = word bytes address := by
  unfold word
  rw [h _ (by omega) (by omega), h (address + 1) (by omega) (by omega),
    h (address + 2) (by omega) (by omega), h (address + 3) (by omega) (by omega)]

theorem word_setWord_of_outside {x : Nat} (h : x + 4 ≤ address ∨ address + 4 ≤ x) :
    word (setWord bytes address value) x = word bytes x :=
  word_congr fun y hy hy' => setWord_of_outside (by omega)

theorem word_lt (bytes : Nat → UInt8) (address : Nat) : word bytes address < 2 ^ 32 := by
  have h0 := (bytes address).toNat_lt
  have h1 := (bytes (address + 1)).toNat_lt
  have h2 := (bytes (address + 2)).toNat_lt
  have h3 := (bytes (address + 3)).toNat_lt
  unfold word
  omega

/-! ### Addresses -/

namespace Heap

variable {region : Nat}

theorem data_of_lt (h : region + 8 < 2 ^ 32) : data region = region + 8 :=
  addU32_of_lt h

theorem regionForPtr_data (h : region + 8 < 2 ^ 32) :
    regionForPtr (data region) = region := by
  rw [regionForPtr, data_of_lt h, subU32_of_le (by omega)]
  omega

theorem regionAfter_eq {len : Nat} (h : region + len + 11 < 2 ^ 32) :
    regionAfter region len = (region + len + 11) / 4 * 4 := by
  have hlen : addU32 (region + 8) len = region + 8 + len := addU32_of_lt (by omega)
  rw [regionAfter, data_of_lt (by omega), hlen, addU32_of_lt (by omega)]
  congr 2
  omega

theorem le_regionAfter {len : Nat} (h : region + len + 11 < 2 ^ 32) :
    region + 8 + len ≤ regionAfter region len := by
  rw [regionAfter_eq h]
  omega

theorem regionAfter_lt (region len : Nat) : regionAfter region len < 2 ^ 32 := by
  have := addU32_lt (addU32 (data region) len) 3
  unfold regionAfter
  omega

end Heap

/-! ### The invariant -/

/-- A pointer that was handed out and not freed since, with the number of bytes asked for. -/
structure Block where
  ptr : Nat
  size : Nat
deriving DecidableEq

namespace Block

/-- The header before the data. -/
def region (block : Block) : Nat := block.ptr - 8

end Block

namespace Heap

/-- The size in the header of a region. -/
def sizeAt (self : Heap) (region : Nat) : Nat := word self.bytes region

/-- The successor of a free region. -/
def linkAt (self : Heap) (region : Nat) : Nat := word self.bytes (region + 4)

def after (self : Heap) (region : Nat) : Nat := regionAfter region (self.sizeAt region)

def setLink (self : Heap) (region link : Nat) : Heap :=
  { self with bytes := setWord self.bytes (region + 4) link }

/-- The heap after the last region is given its size, with the bump pointer behind it. -/
def setRegion (self : Heap) (region size : Nat) : Heap :=
  { self with bytes := setWord self.bytes region size, next := regionAfter region size }

/-- The regions in order of their addresses, and those of the free list in its order. -/
structure Inv (heap : Heap) (live : List Block) (regions free : List Nat) : Prop where
  tiled : Path heap.after heap.heapStart regions heap.next
  noWrap : ∀ a ∈ regions, a + heap.sizeAt a + 11 < 2 ^ 32
  linked : Path heap.linkAt heap.freeList free 0
  start_pos : 0 < heap.heapStart
  next_lt : heap.next < 2 ^ 32
  owned : (live.map Block.region ++ free).Perm regions
  blocks : ∀ b ∈ live, 8 ≤ b.ptr ∧ b.size ≤ heap.sizeAt b.region

/-- The bytes of a region, header included, are the same in two heaps. -/
def SameRegion (heap heap' : Heap) (region : Nat) : Prop :=
  ∀ x, region ≤ x → x < region + 8 + heap.sizeAt region → heap'.bytes x = heap.bytes x

variable {region : Nat} {heap' heap : Heap}

theorem SameRegion.sizeAt (h : SameRegion heap heap' region) :
    heap'.sizeAt region = heap.sizeAt region :=
  word_congr fun x hx hx' => h x hx (by omega)

theorem SameRegion.linkAt (h : SameRegion heap heap' region) :
    heap'.linkAt region = heap.linkAt region :=
  word_congr fun x hx hx' => h x (by omega) (by omega)

theorem SameRegion.refl (heap : Heap) (region : Nat) : SameRegion heap heap region :=
  fun _ _ _ => rfl

theorem SameRegion.trans {heap'' : Heap} (h : SameRegion heap heap' region)
    (h' : SameRegion heap' heap'' region) :
    SameRegion heap heap'' region := fun x hx hx' =>
  (h' x hx (by rw [h.sizeAt]; exact hx')).trans (h x hx hx')

namespace Inv

variable {heap heap' : Heap} {live : List Block} {regions free : List Nat}

theorem lt_after (h : heap.Inv live regions free) : ∀ a ∈ regions, a < heap.after a := by
  intro a ha
  have := le_regionAfter (h.noWrap a ha)
  rw [after]
  omega

variable {a : Nat}

theorem disjoint (h : heap.Inv live regions free) {b : Nat} (ha : a ∈ regions) (hb : b ∈ regions)
    (hne : a ≠ b) :
    a + 8 + heap.sizeAt a ≤ b ∨ b + 8 + heap.sizeAt b ≤ a := by
  have hle := le_regionAfter (h.noWrap a ha)
  have hle' := le_regionAfter (h.noWrap b hb)
  refine (h.tiled.link_le_or h.lt_after ha hb hne).imp (fun h => ?_) (fun h => ?_)
  · exact hle.trans h
  · exact hle'.trans h

theorem bounds (h : heap.Inv live regions free) (ha : a ∈ regions) :
    heap.heapStart ≤ a ∧ a + 8 + heap.sizeAt a ≤ heap.next := by
  obtain ⟨hstart, hnext⟩ := h.tiled.bounds h.lt_after a ha
  exact ⟨hstart, (le_regionAfter (h.noWrap a ha)).trans hnext⟩

theorem nodup (h : heap.Inv live regions free) : (live.map Block.region ++ free).Nodup :=
  h.owned.nodup_iff.mpr (h.tiled.nodup h.lt_after)

variable {b : Block}

section

variable (h : heap.Inv live regions free)

include h

theorem mem_of_live (hb : b ∈ live) : b.region ∈ regions :=
  h.owned.mem_iff.mp (mem_append_left _ (mem_map_of_mem hb))

theorem mem_of_free (ha : a ∈ free) : a ∈ regions :=
  h.owned.mem_iff.mp (mem_append_right _ ha)

theorem pos_of_mem (ha : a ∈ regions) : a ≠ 0 := by
  have := (h.bounds ha).1
  have := h.start_pos
  omega

theorem regionForPtr_ptr (hb : b ∈ live) :
    regionForPtr b.ptr = b.region ∧ data b.region = b.ptr := by
  have hptr := (h.blocks b hb).1
  have hwrap := h.noWrap _ (h.mem_of_live hb)
  have hdata : data b.region = b.ptr := by
    rw [data_of_lt (by omega), Block.region]
    omega
  refine ⟨?_, hdata⟩
  rw [← hdata, regionForPtr_data (by omega)]

/-- The invariant is about the globals, the sizes of all regions and the links of the free ones. -/
theorem congr (hstart : heap'.heapStart = heap.heapStart)
    (hnext : heap'.next = heap.next) (hfree : heap'.freeList = heap.freeList)
    (hsize : ∀ a ∈ regions, heap'.sizeAt a = heap.sizeAt a)
    (hlink : ∀ a ∈ free, heap'.linkAt a = heap.linkAt a) : heap'.Inv live regions free where
  tiled := by
    rw [hstart, hnext]
    exact h.tiled.congr fun a ha => by rw [after, after, hsize a ha]
  noWrap := fun a ha => by
    rw [hsize a ha]
    exact h.noWrap a ha
  linked := by
    rw [hfree]
    exact h.linked.congr hlink
  start_pos := hstart ▸ h.start_pos
  next_lt := hnext ▸ h.next_lt
  owned := h.owned
  blocks := fun b hb => by
    rw [hsize _ (h.mem_of_live hb)]
    exact h.blocks b hb

theorem sameRegion_of_change {b : Nat} (ha : a ∈ regions) (hb : b ∈ regions) (hne : b ≠ a)
    (hchange : ∀ x, x < a ∨ a + 8 + heap.sizeAt a ≤ x → heap'.bytes x = heap.bytes x) :
    SameRegion heap heap' b := by
  intro x hx hx'
  refine hchange x ?_
  have := h.disjoint hb ha hne
  omega

theorem change_data (ha : a ∈ regions) {bytes : Nat → UInt8}
    (hchange : ∀ x, x < a + 8 ∨ a + 8 + heap.sizeAt a ≤ x → bytes x = heap.bytes x) :
    { heap with bytes }.Inv live regions free := by
  have hother : ∀ b ∈ regions, b ≠ a → SameRegion heap { heap with bytes } b := fun b hb hne =>
    h.sameRegion_of_change ha hb hne fun x hx => hchange x (by omega)
  refine h.congr rfl rfl rfl (fun b hb => ?_) (fun b hb => ?_)
  · by_cases hne : b = a
    · subst hne
      exact word_congr fun x _ hx' => hchange x (by omega)
    · exact (hother b hb hne).sizeAt
  · by_cases hne : b = a
    · subst hne
      exact word_congr fun x _ hx' => hchange x (by omega)
    · exact (hother b (h.mem_of_free hb) hne).linkAt

end

variable {link : Nat}

section

variable (h : heap.Inv live regions free)

include h

theorem setLink_sameRegion {b : Nat} (ha : a ∈ regions)
    (hb : b ∈ regions) (hne : b ≠ a) : SameRegion heap (heap.setLink a link) b :=
  h.sameRegion_of_change ha hb hne fun x hx => setWord_of_outside (by omega)

theorem setLink_sizeAt {b : Nat} (ha : a ∈ regions)
    (hb : b ∈ regions) : (heap.setLink a link).sizeAt b = heap.sizeAt b := by
  by_cases hne : b = a
  · subst hne
    exact word_setWord_of_outside (.inl le_rfl)
  · exact (h.setLink_sameRegion ha hb hne).sizeAt

theorem setLink_linkAt {b : Nat} (ha : a ∈ regions) (hb : b ∈ regions) (hlink : link < 2 ^ 32) :
    (heap.setLink a link).linkAt b = Function.update heap.linkAt a link b := by
  by_cases hne : b = a
  · subst hne
    rw [Function.update_self]
    exact word_setWord_self hlink
  · rw [Function.update_of_ne hne]
    exact (h.setLink_sameRegion ha hb hne).linkAt

theorem setLink_tiled (ha : a ∈ regions) :
    Path (heap.setLink a link).after heap.heapStart regions heap.next :=
  h.tiled.congr fun b hb => by rw [after, after, h.setLink_sizeAt ha hb]

end

/-! ### The steps of the allocator -/

theorem region_data (h : heap.Inv live regions free) (ha : a ∈ regions) (size : Nat) :
    Block.region ⟨data a, size⟩ = a ∧ 8 ≤ data a := by
  have := h.noWrap a ha
  rw [Block.region, data_of_lt (by omega)]
  exact ⟨Nat.add_sub_cancel _ _, Nat.le_add_left _ _⟩

variable {size : Nat}

theorem takeFirst (h : heap.Inv live regions (a :: free)) (hsize : size ≤ heap.sizeAt a) :
    { heap with freeList := heap.linkAt a }.Inv (⟨data a, size⟩ :: live) regions free := by
  have ha : a ∈ regions := h.mem_of_free (by simp)
  obtain ⟨hregion, hptr⟩ := h.region_data ha size
  obtain ⟨hhead, hlinked⟩ := h.linked.cons_inv
  refine ⟨h.tiled, h.noWrap, hhead ▸ hlinked, h.start_pos, h.next_lt, ?_, ?_⟩
  · rw [map_cons, hregion]
    exact perm_middle.symm.trans h.owned
  · refine forall_mem_cons.mpr ⟨⟨hptr, ?_⟩, h.blocks⟩
    rw [hregion]
    exact hsize

theorem takeLater {free₁ free₂ : List Nat} {prev : Nat}
    (h : heap.Inv live regions (free₁ ++ prev :: a :: free₂)) (hsize : size ≤ heap.sizeAt a) :
    (heap.setLink prev (heap.linkAt a)).Inv (⟨data a, size⟩ :: live) regions
      (free₁ ++ prev :: free₂) := by
  have ha : a ∈ regions := h.mem_of_free (by simp)
  have hprev : prev ∈ regions := h.mem_of_free (by simp)
  obtain ⟨hregion, hptr⟩ := h.region_data ha size
  have hperm : (free₁ ++ prev :: a :: free₂).Perm (a :: (free₁ ++ prev :: free₂)) := by
    rw [append_cons, append_cons free₁ prev free₂]
    exact perm_middle
  refine ⟨h.setLink_tiled hprev, fun b hb => ?_, ?_, h.start_pos, h.next_lt, ?_, ?_⟩
  · rw [h.setLink_sizeAt hprev hb]
    exact h.noWrap b hb
  · refine (h.linked.unlink (nodup_append.mp h.nodup).2.1).congr fun b hb => ?_
    refine h.setLink_linkAt hprev (h.mem_of_free (hperm.mem_iff.mpr ?_)) (word_lt _ _)
    exact mem_cons_of_mem _ hb
  · rw [map_cons, hregion]
    exact (perm_middle.symm.trans (hperm.symm.append_left _)).trans h.owned
  · refine forall_mem_cons.mpr ⟨⟨hptr, ?_⟩, fun b hb => ?_⟩
    · rw [hregion, h.setLink_sizeAt hprev ha]
      exact hsize
    · rw [h.setLink_sizeAt hprev (h.mem_of_live hb)]
      exact h.blocks b hb

section

variable (h : heap.Inv live regions free)

include h

theorem bump_sameRegion (ha : a ∈ regions) : SameRegion heap (heap.setRegion heap.next size) a := by
  intro x _ hx
  have := (h.bounds ha).2
  exact setWord_of_outside (by omega)

theorem bump (hwrap : heap.next + size + 11 < 2 ^ 32) :
    (heap.setRegion heap.next size).Inv (⟨data heap.next, size⟩ :: live) (regions ++ [heap.next])
      free := by
  have hself : (heap.setRegion heap.next size).sizeAt heap.next = size :=
    word_setWord_self (by omega)
  have hsame : ∀ a ∈ regions, SameRegion heap (heap.setRegion heap.next size) a :=
    fun a ha => h.bump_sameRegion ha
  refine ⟨?_, ?_, ?_, h.start_pos, regionAfter_lt _ _, ?_, ?_⟩
  · refine Path.append (h.tiled.congr fun a ha => ?_) (.cons ?_)
    · rw [after, after, (hsame a ha).sizeAt]
    · rw [after, hself]
      exact .nil
  · refine forall_mem_append.mpr ⟨fun a ha => ?_, ?_⟩
    · rw [(hsame a ha).sizeAt]
      exact h.noWrap a ha
    · rw [forall_mem_singleton, hself]
      exact hwrap
  · exact h.linked.congr fun a ha => (hsame a (h.mem_of_free ha)).linkAt
  · rw [map_cons, Block.region, data_of_lt (by omega), Nat.add_sub_cancel]
    exact (h.owned.cons _).trans (perm_append_singleton _ _).symm
  · refine forall_mem_cons.mpr ⟨?_, fun b hb => ?_⟩
    · rw [Block.region, data_of_lt (by omega), Nat.add_sub_cancel, hself]
      exact ⟨Nat.le_add_left _ _, le_rfl⟩
    · rw [(hsame _ (h.mem_of_live hb)).sizeAt]
      exact h.blocks b hb

theorem owned_erase (hb : b ∈ live) :
    (b.region :: ((live.erase b).map Block.region ++ free)).Perm regions := by
  have hperm := (perm_cons_erase hb).map Block.region
  exact ((hperm.append_right free).symm).trans h.owned

theorem region_ne_of_mem_erase {c : Block} (hb : b ∈ live)
    (hc : c ∈ live.erase b) : c.region ≠ b.region := by
  have hnodup := (h.owned_erase hb).nodup_iff.mpr (h.tiled.nodup h.lt_after)
  intro heq
  refine (nodup_cons.mp hnodup).1 (mem_append_left _ ?_)
  rw [← heq]
  exact mem_map_of_mem hc

omit h in
theorem region_ne_head {c : Block} (h : heap.Inv (b :: live) regions free) (hc : c ∈ live) :
    c.region ≠ b.region :=
  h.region_ne_of_mem_erase (mem_cons_self ..) (by rwa [erase_cons_head])

theorem write_block (hb : b ∈ live) (bytes : Nat → UInt8)
    (hchange : ∀ x, x < b.ptr ∨ b.ptr + b.size ≤ x → bytes x = heap.bytes x) :
    { heap with bytes }.Inv live regions free ∧
      ∀ a ∈ regions, a ≠ b.region → SameRegion heap { heap with bytes } a := by
  have hmem := h.mem_of_live hb
  obtain ⟨hptr, hsize⟩ := h.blocks b hb
  have hregion : b.region + 8 = b.ptr := by
    rw [Block.region]
    omega
  exact ⟨h.change_data hmem fun x hx => hchange x (by omega),
    fun a ha hne => h.sameRegion_of_change hmem ha hne fun x hx => hchange x (by omega)⟩

theorem freeLast (hb : b ∈ live) (hlast : heap.after b.region = heap.next) :
    ∃ regions', { heap with next := b.region }.Inv (live.erase b) regions' free := by
  obtain ⟨regions', rfl, htiled⟩ := h.tiled.eq_last h.lt_after (h.mem_of_live hb) hlast
  have hmem : b.region ∈ regions' ++ [b.region] := by simp
  refine ⟨regions', htiled, fun a ha => h.noWrap a (mem_append_left _ ha), h.linked,
    h.start_pos, ?_, ?_, fun c hc => h.blocks c (mem_of_mem_erase hc)⟩
  · have := h.noWrap _ hmem
    change b.region < 2 ^ 32
    omega
  · refine (perm_cons b.region).mp ?_
    exact (h.owned_erase hb).trans (perm_append_singleton _ _)

theorem freeOther (hb : b ∈ live) :
    { heap.setLink b.region heap.freeList with freeList := b.region }.Inv (live.erase b) regions
      (b.region :: free) := by
  have hmem := h.mem_of_live hb
  have hfree : heap.freeList < 2 ^ 32 := by
    cases hl : free with
    | nil =>
      have hnil := (hl ▸ h.linked).nil_inv
      omega
    | cons a free =>
      obtain ⟨ha, -⟩ := (hl ▸ h.linked).cons_inv
      have hmem : a ∈ regions := h.mem_of_free (by simp [hl])
      have := h.noWrap a hmem
      omega
  have hnot : b.region ∉ free := by
    have hnodup := (h.owned_erase hb).nodup_iff.mpr (h.tiled.nodup h.lt_after)
    intro hmem
    exact (nodup_cons.mp hnodup).1 (mem_append_right _ hmem)
  refine ⟨h.setLink_tiled hmem, fun a ha => ?_, .cons ?_, h.start_pos, h.next_lt, ?_,
    fun c hc => ?_⟩
  · have hsize : (heap.setLink b.region heap.freeList).sizeAt a = heap.sizeAt a :=
      h.setLink_sizeAt hmem ha
    exact hsize ▸ h.noWrap a ha
  · have hlink := h.setLink_linkAt hmem hmem hfree
    rw [Function.update_self] at hlink
    change Path (heap.setLink b.region heap.freeList).linkAt
      ((heap.setLink b.region heap.freeList).linkAt b.region) free 0
    rw [hlink]
    refine h.linked.congr fun a ha => ?_
    rw [h.setLink_linkAt hmem (h.mem_of_free ha) hfree]
    refine Function.update_of_ne ?_ _ _
    rintro rfl
    exact hnot ha
  · exact perm_middle.trans (h.owned_erase hb)
  · have hc' := mem_of_mem_erase hc
    have hsize : (heap.setLink b.region heap.freeList).sizeAt c.region = heap.sizeAt c.region :=
      h.setLink_sizeAt hmem (h.mem_of_live hc')
    obtain ⟨hptr, hle⟩ := h.blocks c hc'
    exact ⟨hptr, hsize.symm ▸ hle⟩

theorem setRegion_sameRegion {b : Nat} (ha : a ∈ regions)
    (hb : b ∈ regions) (hne : b ≠ a) : SameRegion heap (heap.setRegion a size) b :=
  h.sameRegion_of_change ha hb hne fun x hx => setWord_of_outside (by omega)

theorem resize (hb : b ∈ live)
    (hlast : heap.after b.region = heap.next) (hwrap : b.region + size + 11 < 2 ^ 32) :
    (heap.setRegion b.region size).Inv (⟨b.ptr, size⟩ :: live.erase b) regions free := by
  have hmem := h.mem_of_live hb
  have hself : (heap.setRegion b.region size).sizeAt b.region = size :=
    word_setWord_self (by omega)
  have hsame : ∀ a ∈ regions, a ≠ b.region → SameRegion heap (heap.setRegion b.region size) a :=
    fun a ha hne => h.setRegion_sameRegion hmem ha hne
  have hnodup := (h.owned_erase hb).nodup_iff.mpr (h.tiled.nodup h.lt_after)
  refine ⟨?_, fun a ha => ?_, ?_, h.start_pos, regionAfter_lt _ _, h.owned_erase hb, ?_⟩
  · obtain ⟨regions', rfl, htiled⟩ := h.tiled.eq_last h.lt_after hmem hlast
    refine Path.append (htiled.congr fun a ha => ?_) (.cons ?_)
    · have hne : a ≠ b.region :=
        (nodup_append.mp (h.tiled.nodup h.lt_after)).2.2 a ha _ (by simp)
      rw [after, after, (hsame a (mem_append_left _ ha) hne).sizeAt]
    · rw [after, hself]
      exact .nil
  · by_cases hne : a = b.region
    · rw [hne, hself]
      exact hwrap
    · rw [(hsame a ha hne).sizeAt]
      exact h.noWrap a ha
  · refine h.linked.congr fun a ha => (hsame a (h.mem_of_free ha) ?_).linkAt
    rintro rfl
    exact (nodup_cons.mp hnodup).1 (mem_append_right _ ha)
  · refine forall_mem_cons.mpr ⟨⟨(h.blocks b hb).1, ?_⟩, fun c hc => ?_⟩
    · change size ≤ (heap.setRegion b.region size).sizeAt b.region
      rw [hself]
    · have hc' := mem_of_mem_erase hc
      rw [(hsame _ (h.mem_of_live hc') (h.region_ne_of_mem_erase hb hc)).sizeAt]
      exact h.blocks c hc'

end

end Inv

end Heap

end TreeSitter.Lib.WasmStdlib
