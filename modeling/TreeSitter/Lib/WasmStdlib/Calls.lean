import TreeSitter.Lib.WasmStdlib.Regions

/-!
# TreeSitter.Lib.WasmStdlib.Calls

What `malloc`, `calloc`, `realloc` and `free` do to the regions of the heap, each as one lemma over
the steps of `TreeSitter.Lib.WasmStdlib.Regions`: which block is live afterwards, and that the
bytes of all other live blocks stay, headers included.

The hypothesis of each lemma is that the end of a new region does not overflow, where the
allocator gets as far as to compute with it.
-/

namespace TreeSitter.Lib.WasmStdlib

open Option List Library

namespace Heap

variable {heap heap' : Heap} {live : List Block} {regions free : List Nat}

theorem load_eq {address value : Nat} (h : heap.load address = some value) :
    value = word heap.bytes address := by
  unfold load at h
  split at h
  · exact (Option.some.inj h).symm
  · cases h

theorem store_eq {address value : Nat} (h : heap.store address value = some heap') :
    heap' = { heap with bytes := setWord heap.bytes address value } := by
  unfold store at h
  split at h
  · exact (Option.some.inj h).symm
  · cases h

theorem memcpy_eq {target source count : Nat} (h : heap.memcpy target source count = some heap') :
    heap' = { heap with
      bytes := fun x =>
        if target ≤ x ∧ x < target + count then heap.bytes (source + (x - target))
        else heap.bytes x } := by
  unfold memcpy at h
  split at h
  · exact (Option.some.inj h).symm
  · cases h

theorem growHeapForRegion_eq (heap : Heap) (grants : Bool) (regionEnd size : Nat) :
    ∃ pages heapEnd, (heap.growHeapForRegion grants regionEnd size).1 =
      { heap with pages, heapEnd } := by
  unfold growHeapForRegion growHeap
  split
  · split
    · exact ⟨_, _, rfl⟩
    · dsimp only
      split
      · next hgrow =>
        split at hgrow
        · cases hgrow
        · cases hgrow
          exact ⟨_, _, rfl⟩
      · next hgrow =>
        split at hgrow
        · cases hgrow
          exact ⟨_, _, rfl⟩
        · cases hgrow
  · exact ⟨_, _, rfl⟩

variable {size fuel : Nat}

/-- The search in the free list finds the first region that is large enough, and the one before
it. -/
theorem findFree_spec {prev curr : Nat} {found : Option (Nat × Nat)}
    (hlinked : Path heap.linkAt curr free 0) (hpos : ∀ a ∈ free, a ≠ 0)
    (h : heap.findFree size fuel prev curr = some found) :
    ∀ p c, found = some (p, c) → size ≤ heap.sizeAt c ∧
      ((p = prev ∧ ∃ free', free = c :: free') ∨ ∃ free₁ free₂, free = free₁ ++ p :: c :: free₂) := by
  induction fuel generalizing prev curr free with
  | zero => cases h
  | succ fuel ih =>
    rw [findFree] at h
    split at h
    · cases h
      intro p c hfound
      cases hfound
    · next hcurr =>
      obtain ⟨free', rfl, hrest⟩ := hlinked.exists_cons hcurr
      obtain ⟨currSize, hsize, h⟩ := bind_eq_some_iff.mp h
      have hsize := load_eq hsize
      split at h
      · next hle =>
        cases h
        intro p c hfound
        cases hfound
        rw [hsize] at hle
        exact ⟨hle, .inl ⟨rfl, free', rfl⟩⟩
      · obtain ⟨currNext, hnext, h⟩ := bind_eq_some_iff.mp h
        have hnext := load_eq hnext
        intro p c hfound
        have hrest' : Path heap.linkAt currNext free' 0 := by rw [hnext]; exact hrest
        obtain ⟨hle, hcase⟩ := ih hrest' (fun a ha => hpos a (by simp [ha])) h p c hfound
        refine ⟨hle, .inr ?_⟩
        rcases hcase with ⟨rfl, free'', rfl⟩ | ⟨free₁, free₂, rfl⟩
        · exact ⟨[], free'', rfl⟩
        · exact ⟨curr :: free₁, free₂, rfl⟩

/-- What `malloc` leaves: nothing new, or a new live block, with the others as they were. -/
inductive Mallocs (heap heap' : Heap) (live : List Block) (size result : Nat) : Prop where
  | null (hresult : result = 0) (hbytes : heap'.bytes = heap.bytes)
      (h : ∀ {regions free}, heap.Inv live regions free → heap'.Inv live regions free)
  | block {regions free : List Nat} (hresult : result ≠ 0)
      (h : heap'.Inv (⟨result, size⟩ :: live) regions free)
      (hsame : ∀ b ∈ live, SameRegion heap heap' b.region)

variable {result : Nat}

theorem takeFree_spec (h : heap.Inv live regions free) {prev curr : Nat}
    (hsize : size ≤ heap.sizeAt curr) (hcase : (prev = 0 ∧ ∃ free', free = curr :: free') ∨ ∃
      free₁ free₂, free = free₁ ++ prev :: curr :: free₂)
    (hm : heap.takeFree prev curr = some (heap', result)) :
    Mallocs heap heap' live size result := by
  have hdata : ∀ {a}, a ∈ free → data a ≠ 0 := fun ha => by
    have := h.noWrap _ (h.mem_of_free ha)
    rw [data_of_lt (by omega)]
    omega
  obtain ⟨currNext, hnext, hm⟩ := bind_eq_some_iff.mp hm
  obtain rfl := load_eq hnext
  rcases hcase with ⟨rfl, free', rfl⟩ | ⟨free₁, free₂, rfl⟩
  · cases hm
    exact .block (hdata (by simp)) (h.takeFirst hsize) fun b _ => .refl heap b.region
  · rw [if_neg (h.pos_of_mem (h.mem_of_free (by simp)))] at hm
    obtain ⟨heap'', hstore, hm⟩ := bind_eq_some_iff.mp hm
    obtain rfl := store_eq hstore
    cases hm
    refine .block (hdata (by simp)) (h.takeLater hsize) fun b hb => ?_
    refine h.setLink_sameRegion (h.mem_of_free (by simp)) (h.mem_of_live hb) ?_
    exact (nodup_append.mp h.nodup).2.2 _ (mem_map_of_mem hb) _ (by simp)

variable {grants : Bool}

section

variable (h : heap.Inv live regions free)

include h

theorem mallocAtEnd_spec (hsmall : (heap.growHeapForRegion grants
      (regionAfter heap.next size) size).2 = true → heap.next + size + 11 < 2 ^ 32)
    (hm : heap.mallocAtEnd grants size = some (heap', result)) :
    Mallocs heap heap' live size result := by
  obtain ⟨pages, heapEnd, hgrow⟩ :=
    heap.growHeapForRegion_eq grants (regionAfter heap.next size) size
  unfold mallocAtEnd at hm
  generalize heap.growHeapForRegion grants (regionAfter heap.next size) size = grown
    at hm hgrow hsmall
  obtain ⟨grown, done⟩ := grown
  obtain rfl : grown = { heap with pages, heapEnd } := hgrow
  have hinv : ∀ {regions free}, heap.Inv live regions free →
      { heap with pages, heapEnd }.Inv live regions free :=
    fun h => h.congr rfl rfl rfl (fun _ _ => rfl) (fun _ _ => rfl)
  cases done with
  | false =>
    cases hm
    exact .null rfl rfl hinv
  | true =>
    obtain ⟨heap'', hstore, hm⟩ := bind_eq_some_iff.mp hm
    obtain rfl := store_eq hstore
    cases hm
    have hsmall := hsmall rfl
    refine .block ?_ ((hinv h).bump hsmall) fun b hb =>
      (hinv h).bump_sameRegion (h.mem_of_live hb)
    rw [data_of_lt (by exact lt_of_le_of_lt (by simp; omega) hsmall)]
    exact Nat.succ_ne_zero _

/-- `malloc` in the free list or at the bump pointer, where the end of the region does not
overflow. -/
theorem malloc_spec (hsmall : size ≠ 0 → heap.findFree size fuel
      0 heap.freeList = some none → (heap.growHeapForRegion grants (regionAfter heap.next size)
      size).2 = true → heap.next + size + 11 < 2 ^ 32)
    (hm : heap.malloc grants fuel size = some (heap', result)) :
    Mallocs heap heap' live size result := by
  have hpos : ∀ a ∈ free, a ≠ 0 := fun a ha => h.pos_of_mem (h.mem_of_free ha)
  unfold malloc at hm
  split at hm
  · cases hm
    exact .null rfl rfl fun h => h
  · next hsize =>
    obtain ⟨found, hfound, hm⟩ := bind_eq_some_iff.mp hm
    split at hm
    · next prev curr =>
      obtain ⟨hle, hcase⟩ := findFree_spec h.linked hpos hfound prev curr rfl
      exact takeFree_spec h hle hcase hm
    · exact mallocAtEnd_spec h (hsmall hsize hfound) hm

theorem free_spec {b : Block} (hb : b ∈ live) (hm : heap.free b.ptr = some heap') :
    ∃ regions' free', heap'.Inv (live.erase b) regions' free' ∧
      ∀ c ∈ live.erase b, SameRegion heap heap' c.region := by
  obtain ⟨hptr, -⟩ := h.regionForPtr_ptr hb
  unfold Heap.free at hm
  rw [if_neg (by have := (h.blocks b hb).1; omega)] at hm
  obtain ⟨size, hsize, hm⟩ := bind_eq_some_iff.mp hm
  obtain rfl := load_eq hsize
  rw [hptr] at hm
  split at hm
  · next hlast =>
    cases hm
    obtain ⟨regions', h'⟩ := h.freeLast hb hlast
    exact ⟨regions', free, h', fun c _ => .refl heap c.region⟩
  · obtain ⟨heap'', hstore, hm⟩ := bind_eq_some_iff.mp hm
    obtain rfl := store_eq hstore
    cases hm
    refine ⟨regions, b.region :: free, h.freeOther hb, fun c hc => ?_⟩
    exact h.setLink_sameRegion (h.mem_of_live hb) (h.mem_of_live (mem_of_mem_erase hc))
      (h.region_ne_of_mem_erase hb hc)

theorem calloc_spec {count : Nat}
    (hproduct : count * size < 2 ^ 32) (hsmall : count * size ≠ 0 → heap.findFree (count * size)
      fuel 0 heap.freeList = some none → (heap.growHeapForRegion grants (regionAfter heap.next
      (count * size)) (count * size)).2 = true → heap.next + count * size + 11 < 2 ^ 32)
    (hm : heap.calloc grants fuel count size = some (heap', result)) :
    Mallocs heap heap' live (count * size) result := by
  unfold calloc at hm
  rw [Nat.mod_eq_of_lt hproduct] at hm
  obtain ⟨⟨heap₁, result₁⟩, hmalloc, hm⟩ := bind_eq_some_iff.mp hm
  dsimp only at hm
  cases malloc_spec h hsmall hmalloc with
  | null hresult hbytes hinv =>
    rw [if_pos hresult] at hm
    cases hm
    exact .null rfl hbytes hinv
  | @block regions' free' hresult hinv hsame =>
    rw [if_neg hresult] at hm
    obtain ⟨heap₂, hmemset, hm⟩ := bind_eq_some_iff.mp hm
    cases hm
    unfold memset at hmemset
    split at hmemset
    · cases hmemset
      obtain ⟨hinv', hother⟩ := hinv.write_block (mem_cons_self ..)
        (fun x => if result ≤ x ∧ x < result + count * size then 0 else heap₁.bytes x)
        fun x hx => if_neg (by simp only at hx; omega)
      refine .block hresult hinv' fun b hb => ?_
      exact (hsame b hb).trans
        (hother _ (hinv.mem_of_live (mem_cons_of_mem _ hb)) (hinv.region_ne_head hb))
    · cases hmemset

end

/-- What `realloc` leaves when the new size is not 0: the old block, or a new one with its bytes. -/
inductive Reallocs (heap heap' : Heap) (live : List Block) (old : Block) (newSize result : Nat) :
    Prop where
  | null {regions free : List Nat} (hresult : result = 0) (hbytes : heap'.bytes = heap.bytes)
      (h : heap'.Inv live regions free)
  | block {regions free : List Nat} (hresult : result ≠ 0)
      (h : heap'.Inv (⟨result, newSize⟩ :: live.erase old) regions free)
      (hsame : ∀ b ∈ live.erase old, SameRegion heap heap' b.region)
      (hcopied : ∀ i, i < heap.sizeAt old.region → i < newSize →
        heap'.bytes (result + i) = heap.bytes (old.ptr + i))

theorem reallocAtEnd_spec (h : heap.Inv live regions free) {old : Block} (hold : old ∈ live)
    (hlast : heap.after old.region = heap.next) {newSize : Nat} (hsmall : (heap.growHeapForRegion
      grants (regionAfter old.region newSize) (subU32 (regionAfter old.region newSize)
      heap.heapEnd)).2 = true → old.region + newSize + 11 < 2 ^ 32)
    (hm : heap.reallocAtEnd grants old.region newSize = some (heap', result)) :
    Reallocs heap heap' live old newSize result := by
  obtain ⟨-, hdata⟩ := h.regionForPtr_ptr hold
  obtain ⟨pages, heapEnd, hgrow⟩ :=
    heap.growHeapForRegion_eq grants (regionAfter old.region newSize)
      (subU32 (regionAfter old.region newSize) heap.heapEnd)
  dsimp only [reallocAtEnd] at hm
  generalize heap.growHeapForRegion grants (regionAfter old.region newSize)
    (subU32 (regionAfter old.region newSize) heap.heapEnd) = grown at hm hgrow hsmall
  obtain ⟨grown, done⟩ := grown
  obtain rfl : grown = { heap with pages, heapEnd } := hgrow
  have hinv : { heap with pages, heapEnd }.Inv live regions free :=
    h.congr rfl rfl rfl (fun _ _ => rfl) (fun _ _ => rfl)
  cases done with
  | false =>
    cases hm
    exact .null rfl rfl hinv
  | true =>
    obtain ⟨heap'', hstore, hm⟩ := bind_eq_some_iff.mp hm
    obtain rfl := store_eq hstore
    cases hm
    have hmem := hinv.mem_of_live hold
    have hptr := (h.blocks old hold).1
    rw [hdata]
    refine .block (by omega) (hinv.resize hold hlast (hsmall rfl)) (fun b hb => ?_)
      fun i _ _ => setWord_of_outside ?_
    · exact hinv.setRegion_sameRegion hmem (hinv.mem_of_live (mem_of_mem_erase hb))
        (hinv.region_ne_of_mem_erase hold hb)
    · rw [Block.region]
      omega

theorem reallocMove_spec (h : heap.Inv live regions free) {old : Block} (hold : old ∈ live)
    {newSize : Nat} (hsmall : newSize ≠ 0 → heap.findFree newSize fuel 0 heap.freeList = some none
      → (heap.growHeapForRegion grants (regionAfter heap.next newSize) newSize).2 = true →
      heap.next + newSize + 11 < 2 ^ 32)
    (hm : heap.reallocMove grants fuel old.ptr newSize = some (heap', result)) :
    Reallocs heap heap' live old newSize result := by
  obtain ⟨hptr, hdata⟩ := h.regionForPtr_ptr hold
  obtain ⟨⟨heap₁, result₁⟩, hmalloc, hm⟩ := bind_eq_some_iff.mp hm
  dsimp only at hm
  cases malloc_spec h hsmall hmalloc with
  | null hresult hbytes hinv =>
    rw [if_pos hresult] at hm
    cases hm
    exact .null rfl hbytes (hinv h)
  | @block regions' free' hresult hinv hsame =>
    rw [if_neg hresult, hptr, hdata] at hm
    obtain ⟨size, hsize, hm⟩ := bind_eq_some_iff.mp hm
    replace hsize : size = heap.sizeAt old.region := (load_eq hsize).trans (hsame old hold).sizeAt
    obtain ⟨heap₂, hmemcpy, hm⟩ := bind_eq_some_iff.mp hm
    obtain ⟨heap₃, hfree, hm⟩ := bind_eq_some_iff.mp hm
    cases hm
    obtain rfl := memcpy_eq hmemcpy
    have hcopy : ∀ i, i < heap.sizeAt old.region → i < newSize →
        i < (if size < newSize then size else newSize) := by
      intro i hi hi'
      rw [hsize]
      split <;> assumption
    have hcopySize : (if size < newSize then size else newSize) ≤ newSize := by
      split <;> omega
    generalize (if size < newSize then size else newSize) = copySize at hfree hcopy hcopySize
    obtain ⟨hinv₂, hother⟩ := hinv.write_block (mem_cons_self ..)
      (fun x => if result ≤ x ∧ x < result + copySize then
        heap₁.bytes (old.ptr + (x - result)) else heap₁.bytes x)
      fun x hx => if_neg (by simp only at hx; omega)
    obtain ⟨regions'', free'', hinv₃, hsame₃⟩ :=
      free_spec hinv₂ (mem_cons_of_mem _ hold) hfree
    have hne : ¬ (⟨result, newSize⟩ : Block) == old := by
      rw [beq_iff_eq]
      rintro rfl
      exact hinv.region_ne_head hold rfl
    rw [erase_cons_tail hne] at hinv₃ hsame₃
    refine .block hresult hinv₃ (fun b hb => ?_) fun i hi hi' => ?_
    · have hb' := mem_of_mem_erase hb
      have hsame₂ := hother _ (hinv.mem_of_live (mem_cons_of_mem _ hb'))
        (hinv.region_ne_head hb')
      exact ((hsame b hb').trans hsame₂).trans (hsame₃ b (mem_cons_of_mem _ hb))
    · obtain ⟨hptr', hle⟩ := hinv₂.blocks _ (mem_cons_self ..)
      have hcopied := hcopy i hi hi'
      have holdPtr := (h.blocks old hold).1
      rw [hsame₃ _ (mem_cons_self ..) (result + i) (by simp only [Block.region]; omega)
        (by simp only [Block.region] at hle ⊢; omega)]
      simp only
      rw [if_pos (by omega), Nat.add_sub_cancel_left]
      exact hsame old hold _ (by simp only [Block.region]; omega)
        (by simp only [Block.region] at hi ⊢; omega)

end Heap

end TreeSitter.Lib.WasmStdlib
