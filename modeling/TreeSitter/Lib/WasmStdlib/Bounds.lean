import TreeSitter.Lib.WasmStdlib.Runs

/-!
# TreeSitter.Lib.WasmStdlib.Bounds

Whether the blocks of the allocator lie **inside of the memory**.

`malloc` computes the end of a new region with its header, but grows the memory only by the size
that was asked for. When fewer than 8 bytes are left before the end of the memory and the size
fills its pages, the region ends behind the memory. And for sizes near `2 ^ 32` the end of the
region wraps around, so that nothing is grown at all. `State.Fits` says of a call that this does
not happen; in runs of such calls every block is in bounds (`State.Reachable.inBounds`).
-/

namespace TreeSitter.Lib.WasmStdlib

open Option

namespace Heap

/-- A region that `malloc` makes at the bump pointer ends below `2 ^ 32` and, where the memory is
grown for it, before the end of the new pages. -/
def MallocFits (heap : Heap) (grants : Bool) (fuel size : Nat) : Prop :=
  size ≠ 0 → heap.findFree size fuel 0 heap.freeList = some none →
    (heap.growHeapForRegion grants (regionAfter heap.next size) size).2 = true →
    heap.next + size + 11 < 2 ^ 32 ∧
      (heap.heapEnd < regionAfter heap.next size →
        heap.next + 8 + size ≤ heap.heapEnd + pageSize * ((size - 1) / pageSize + 1))

/-- The block lies between the start of the heap and the end of the memory, header included, and
has at least the bytes that were asked for. -/
structure InBounds (heap : Heap) (b : Block) : Prop where
  start_le : heap.heapStart + 8 ≤ b.ptr
  le_end : b.ptr + heap.sizeAt b.region ≤ heap.memoryEnd
  size_le : b.size ≤ heap.sizeAt b.region

/-- The bump pointer is in the memory. -/
structure Bounded (heap : Heap) : Prop where
  heapEnd_eq : heap.heapEnd = heap.memoryEnd
  pages_le : heap.pages ≤ maxMemorySize
  next_le : heap.next ≤ heap.memoryEnd

variable {heap heap' : Heap}

theorem memoryEnd_lt (h : heap.pages ≤ maxMemorySize) : heap.memoryEnd < 2 ^ 32 := by
  have : heap.memoryEnd ≤ maxMemorySize * pageSize := Nat.mul_le_mul_right _ h
  exact lt_of_le_of_lt this (by decide)

/-- What `growHeapForRegion` adds to the memory when it succeeds. -/
structure Grows (heap heap' : Heap) (regionEnd size : Nat) : Prop where
  pages_le : heap'.pages ≤ maxMemorySize
  heapEnd_eq : heap'.heapEnd = heap'.memoryEnd
  next_eq : heap'.next = heap.next
  bytes_eq : heap'.bytes = heap.bytes
  memoryEnd_eq : heap'.memoryEnd = heap.memoryEnd +
    if heap.heapEnd < regionEnd then pageSize * (subU32 size 1 / pageSize + 1) else 0

variable {grants : Bool} {size : Nat}

theorem growHeapForRegion_grows (h : heap.Bounded) {regionEnd : Nat}
    (hgrow : heap.growHeapForRegion grants regionEnd size = (heap', true)) :
    Grows heap heap' regionEnd size := by
  unfold growHeapForRegion at hgrow
  split at hgrow
  · next hlt =>
    split at hgrow
    · cases hgrow
    · unfold growHeap at hgrow
      dsimp only at hgrow
      split at hgrow
      · next hgranted => cases hgrow
      · next hgranted =>
        split at hgranted
        · next hpages =>
          cases hgranted
          cases hgrow
          refine ⟨hpages.2, Nat.mod_eq_of_lt (memoryEnd_lt hpages.2), rfl, rfl, ?_⟩
          rw [if_pos hlt, memoryEnd, memoryEnd, Nat.add_mul, Nat.mul_comm pageSize]
        · cases hgranted
  · next hle =>
    cases hgrow
    exact ⟨h.pages_le, h.heapEnd_eq, rfl, rfl, by rw [if_neg hle, Nat.add_zero]⟩

theorem growHeapForRegion_refused {regionEnd : Nat}
    (hgrow : heap.growHeapForRegion grants regionEnd size = (heap', false)) : heap' = heap := by
  unfold growHeapForRegion at hgrow
  split at hgrow
  · split at hgrow
    · cases hgrow
      rfl
    · unfold growHeap at hgrow
      dsimp only at hgrow
      split at hgrow
      · next hgranted =>
        split at hgranted
        · cases hgranted
        · cases hgranted
          cases hgrow
          rfl
      · cases hgrow
  · cases hgrow

/-- A region that ends in the memory, which is a whole number of pages, leaves the bump pointer in
the memory. -/
theorem regionAfter_le_memoryEnd {region : Nat} (hwrap : region + size + 11 < 2 ^ 32)
    (h : region + 8 + size ≤ heap.memoryEnd) : regionAfter region size ≤ heap.memoryEnd := by
  rw [regionAfter_eq hwrap]
  unfold memoryEnd pageSize at *
  omega

variable {result : Nat}

theorem mallocAtEnd_bounded (h : heap.Bounded) (hsize : size ≠ 0) (hfits : (heap.growHeapForRegion
      grants (regionAfter heap.next size) size).2 = true → heap.next + size + 11 < 2 ^ 32 ∧
      (heap.heapEnd < regionAfter heap.next size → heap.next + 8 + size ≤ heap.heapEnd + pageSize
      * ((size - 1) / pageSize + 1))) (hm : heap.mallocAtEnd grants size = some (heap', result)) :
    heap'.Bounded := by
  unfold mallocAtEnd at hm
  cases hgrown : heap.growHeapForRegion grants (regionAfter heap.next size) size with
  | mk grown done =>
    rw [hgrown] at hm hfits
    cases done with
    | false =>
      cases hm
      rw [growHeapForRegion_refused hgrown]
      exact h
    | true =>
      obtain ⟨hwrap, hpages⟩ := hfits rfl
      have hgrows := growHeapForRegion_grows h hgrown
      obtain ⟨stored, hstore, hm⟩ := bind_eq_some_iff.mp hm
      obtain rfl := store_eq hstore
      cases hm
      refine ⟨hgrows.heapEnd_eq, hgrows.pages_le, ?_⟩
      change regionAfter grown.next size ≤ grown.memoryEnd
      rw [hgrows.next_eq]
      by_cases hlt : heap.heapEnd < regionAfter heap.next size
      · refine regionAfter_le_memoryEnd hwrap ?_
        rw [hgrows.memoryEnd_eq, if_pos hlt, ← h.heapEnd_eq, subU32_of_le (by omega)]
        exact hpages hlt
      · have := hgrows.memoryEnd_eq
        have := h.heapEnd_eq
        rw [if_neg hlt] at *
        omega

variable {fuel : Nat}

theorem malloc_bounded (h : heap.Bounded) (hfits : heap.MallocFits grants fuel size)
    (hm : heap.malloc grants fuel size = some (heap', result)) : heap'.Bounded := by
  unfold malloc at hm
  split at hm
  · cases hm
    exact h
  · next hsize =>
    obtain ⟨found, hfound, hm⟩ := bind_eq_some_iff.mp hm
    split at hm
    · obtain ⟨currNext, -, hm⟩ := bind_eq_some_iff.mp hm
      split at hm
      · cases hm
        exact ⟨h.heapEnd_eq, h.pages_le, h.next_le⟩
      · obtain ⟨stored, hstore, hm⟩ := bind_eq_some_iff.mp hm
        obtain rfl := store_eq hstore
        cases hm
        exact ⟨h.heapEnd_eq, h.pages_le, h.next_le⟩
    · exact mallocAtEnd_bounded h hsize (hfits hsize hfound) hm

variable {live : List Block} {regions free : List Nat}

theorem free_bounded (h : heap.Bounded) {ptr : Nat} (hregion : regionForPtr ptr ≤ heap.next)
    (hm : heap.free ptr = some heap') : heap'.Bounded := by
  have hnext := h.next_le
  unfold Heap.free at hm
  split at hm
  · cases hm
    exact h
  · obtain ⟨size, -, hm⟩ := bind_eq_some_iff.mp hm
    split at hm
    · cases hm
      exact ⟨h.heapEnd_eq, h.pages_le, hregion.trans hnext⟩
    · obtain ⟨stored, hstore, hm⟩ := bind_eq_some_iff.mp hm
      obtain rfl := store_eq hstore
      cases hm
      exact ⟨h.heapEnd_eq, h.pages_le, h.next_le⟩

theorem calloc_bounded (h : heap.Bounded) {count : Nat} (hproduct : count * size < 2 ^ 32)
    (hfits : heap.MallocFits grants fuel (count * size))
    (hm : heap.calloc grants fuel count size = some (heap', result)) : heap'.Bounded := by
  unfold calloc at hm
  rw [Nat.mod_eq_of_lt hproduct] at hm
  obtain ⟨⟨heap₁, result₁⟩, hmalloc, hm⟩ := bind_eq_some_iff.mp hm
  have hbounded := malloc_bounded h hfits hmalloc
  dsimp only at hm
  split at hm
  · cases hm
    exact hbounded
  · obtain ⟨heap₂, hmemset, hm⟩ := bind_eq_some_iff.mp hm
    cases hm
    unfold memset at hmemset
    split at hmemset
    · cases hmemset
      exact ⟨hbounded.heapEnd_eq, hbounded.pages_le, hbounded.next_le⟩
    · cases hmemset

theorem reallocAtEnd_bounded (h : heap.Bounded) {region newSize : Nat}
    (hsmall : heap.ReallocNoOverflow grants region newSize)
    (hm : heap.reallocAtEnd grants region newSize = some (heap', result)) : heap'.Bounded := by
  dsimp only [reallocAtEnd] at hm
  unfold ReallocNoOverflow at hsmall
  cases hgrown : heap.growHeapForRegion grants (regionAfter region newSize)
      (subU32 (regionAfter region newSize) heap.heapEnd) with
  | mk grown done =>
    rw [hgrown] at hm hsmall
    cases done with
    | false =>
      cases hm
      rw [growHeapForRegion_refused hgrown]
      exact h
    | true =>
      have hgrows := growHeapForRegion_grows h hgrown
      obtain ⟨stored, hstore, hm⟩ := bind_eq_some_iff.mp hm
      obtain rfl := store_eq hstore
      cases hm
      refine ⟨hgrows.heapEnd_eq, hgrows.pages_le, ?_⟩
      change regionAfter region newSize ≤ grown.memoryEnd
      rw [hgrows.memoryEnd_eq, ← h.heapEnd_eq]
      split
      · next hlt =>
        rw [subU32_of_le hlt.le, subU32_of_le (by omega)]
        unfold pageSize
        omega
      · omega

theorem reallocMove_bounded (hinv : heap.Inv live regions free) (h : heap.Bounded) {old : Block}
    (hold : old ∈ live) {newSize : Nat} (hfits : heap.MallocFits grants fuel newSize)
    (hm : heap.reallocMove grants fuel old.ptr newSize = some (heap', result)) :
    heap'.Bounded := by
  obtain ⟨⟨heap₁, result₁⟩, hmalloc, hm⟩ := bind_eq_some_iff.mp hm
  have hbounded := malloc_bounded h hfits hmalloc
  dsimp only at hm
  split at hm
  · cases hm
    exact hbounded
  · next hresult =>
    obtain ⟨size, -, hm⟩ := bind_eq_some_iff.mp hm
    obtain ⟨heap₂, hmemcpy, hm⟩ := bind_eq_some_iff.mp hm
    obtain ⟨heap₃, hfree, hm⟩ := bind_eq_some_iff.mp hm
    cases hm
    obtain rfl := memcpy_eq hmemcpy
    refine free_bounded (by exact ⟨hbounded.heapEnd_eq, hbounded.pages_le, hbounded.next_le⟩) ?_
      hfree
    cases malloc_spec hinv (fun hsize hfound hgrow => (hfits hsize hfound hgrow).1) hmalloc with
    | null hnull => exact absurd hnull hresult
    | block _ hinv₁ =>
      have hold₁ := List.mem_cons_of_mem ⟨result, newSize⟩ hold
      rw [(hinv₁.regionForPtr_ptr hold₁).1]
      have := (hinv₁.bounds (hinv₁.mem_of_live hold₁)).2
      change old.region ≤ heap₁.next
      omega

end Heap

namespace State

/-- The region that the call makes or changes fits in the memory. -/
def Fits (state : State) (grants : Bool) (fuel : Nat) : Call → Prop
  | .malloc size => state.heap.MallocFits grants fuel size
  | .calloc count size =>
    count * size < 2 ^ 32 ∧ state.heap.MallocFits grants fuel (count * size)
  | .realloc ptr newSize =>
    if ptr = 0 then state.heap.MallocFits grants fuel newSize
    else if newSize = 0 then True
    else if state.heap.after (Heap.regionForPtr ptr) = state.heap.next then
      state.heap.ReallocNoOverflow grants (Heap.regionForPtr ptr) newSize
    else state.heap.MallocFits grants fuel newSize
  | .free _ | .write _ _ => True

variable {state state' : State} {grants : Bool} {fuel result : Nat} {call : Call}

theorem noOverflow_of_fits (h : state.Fits grants fuel call) : state.NoOverflow grants fuel call := by
  have hmalloc : ∀ {size}, state.heap.MallocFits grants fuel size →
      state.heap.MallocNoOverflow grants fuel size :=
    fun hfits hsize hfound hgrow => (hfits hsize hfound hgrow).1
  cases call with
  | malloc size => exact hmalloc h
  | calloc count size => exact ⟨h.1, hmalloc h.2⟩
  | realloc ptr newSize =>
    rw [Fits] at h
    rw [NoOverflow]
    split_ifs at h ⊢
    · exact hmalloc h
    · exact h
    · exact hmalloc h
  | free ptr | write address byte => trivial

theorem realloc_bounded (hinv : state.Inv) (h : state.heap.Bounded) {ptr newSize : Nat}
    (hvalid : (Call.realloc ptr newSize).Valid state.live)
    (hfits : state.Fits grants fuel (.realloc ptr newSize)) {heap' : Heap}
    (hm : state.heap.realloc grants fuel ptr newSize = some (heap', result)) : heap'.Bounded := by
  obtain ⟨regions, free, hinv⟩ := hinv
  rw [Fits] at hfits
  rw [Heap.realloc] at hm
  split at hfits
  · next hzero =>
    rw [if_pos hzero] at hm
    exact Heap.malloc_bounded h hfits hm
  · next hne =>
    rw [if_neg hne] at hm
    obtain hzero | ⟨b, hb, rfl⟩ := hvalid
    · exact absurd hzero hne
    · obtain ⟨hptr, -⟩ := hinv.regionForPtr_ptr hb
      have hregion := (hinv.bounds (hinv.mem_of_live hb)).2
      split at hfits
      · next hsize =>
        rw [if_pos hsize] at hm
        obtain ⟨heap'', hfree, hm⟩ := bind_eq_some_iff.mp hm
        cases hm
        exact Heap.free_bounded h (by omega) hfree
      · next hsize =>
        rw [if_neg hsize] at hm
        obtain ⟨size, hload, hm⟩ := bind_eq_some_iff.mp hm
        obtain rfl := Heap.load_eq hload
        rw [Heap.after, Heap.sizeAt] at hfits
        split at hfits
        · next hlast =>
          rw [if_pos hlast] at hm
          exact Heap.reallocAtEnd_bounded h hfits hm
        · next hlast =>
          rw [if_neg hlast] at hm
          exact Heap.reallocMove_bounded hinv h hb hfits hm

theorem step_bounded (hinv : state.Inv) (h : state.heap.Bounded) (hvalid : call.Valid state.live)
    (hfits : state.Fits grants fuel call)
    (hstep : state.step grants fuel call = some (state', result)) : state'.heap.Bounded := by
  cases call with
  | malloc size =>
    obtain ⟨⟨heap', result'⟩, hm, hstep⟩ := bind_eq_some_iff.mp hstep
    cases hstep
    exact Heap.malloc_bounded h hfits hm
  | calloc count size =>
    obtain ⟨⟨heap', result'⟩, hm, hstep⟩ := bind_eq_some_iff.mp hstep
    cases hstep
    exact Heap.calloc_bounded h hfits.1 hfits.2 hm
  | realloc ptr newSize =>
    obtain ⟨⟨heap', result'⟩, hm, hstep⟩ := bind_eq_some_iff.mp hstep
    cases hstep
    exact realloc_bounded hinv h hvalid hfits hm
  | free ptr =>
    obtain ⟨heap', hm, hstep⟩ := bind_eq_some_iff.mp hstep
    cases hstep
    obtain rfl | ⟨b, hb, rfl⟩ := hvalid
    · cases hm
      exact h
    · obtain ⟨regions, free, hinv⟩ := hinv
      have hregion := (hinv.bounds (hinv.mem_of_live hb)).2
      rw [← (hinv.regionForPtr_ptr hb).1] at hregion
      exact Heap.free_bounded h (by omega) hm
  | write address byte =>
    rw [step] at hstep
    split at hstep
    · cases hstep
      exact ⟨h.heapEnd_eq, h.pages_le, h.next_le⟩
    · cases hstep

theorem Reachable.bounded (h : Reachable Fits state) : state.Inv ∧ state.heap.Bounded := by
  induction h with
  | reset heap start hpages hpos hle =>
    exact ⟨inv_reset hpages hpos hle, Nat.mod_eq_of_lt (Heap.memoryEnd_lt hpages), hpages, hle⟩
  | call _ hvalid hfits hstep ih =>
    obtain ⟨hinv, hbounded⟩ := ih
    exact ⟨(step_keeps hinv hvalid (noOverflow_of_fits hfits) hstep).1,
      step_bounded hinv hbounded hvalid hfits hstep⟩

/-- A pointer that a call returns is live, with the bytes that the call asked for. -/
theorem mem_live_of_result (hstep : state.step grants fuel call = some (state', result))
    (hresult : result ≠ 0) : ⟨result, call.size⟩ ∈ state'.live := by
  have hrecord : ∀ live size, ⟨result, size⟩ ∈ record live result size := by
    intro live size
    rw [record, if_neg hresult]
    exact List.mem_cons_self ..
  cases call with
  | malloc size | calloc count size | realloc ptr newSize =>
    obtain ⟨⟨heap', result'⟩, -, hstep⟩ := bind_eq_some_iff.mp hstep
    cases hstep
    exact hrecord _ _
  | free ptr =>
    obtain ⟨heap', -, hstep⟩ := bind_eq_some_iff.mp hstep
    cases hstep
    exact absurd rfl hresult
  | write address byte =>
    rw [step] at hstep
    split at hstep
    · cases hstep
      exact absurd rfl hresult
    · cases hstep

/-- **Bounds.** In every run whose calls fit in the memory, every live block lies in the memory, and
so does the block of each pointer that a call returns, with at least the bytes asked for. -/
theorem Reachable.inBounds (h : Reachable Fits state) :
    (∀ b ∈ state.live, state.heap.InBounds b) ∧
      ∀ {grants fuel call state' result}, call.Valid state.live → state.Fits grants fuel call →
        state.step grants fuel call = some (state', result) → result ≠ 0 →
        state'.heap.InBounds ⟨result, call.size⟩ := by
  have hblocks : ∀ {state : State}, Reachable Fits state →
      ∀ b ∈ state.live, state.heap.InBounds b := by
    intro state h b hb
    obtain ⟨⟨regions, free, hinv⟩, hbounded⟩ := h.bounded
    obtain ⟨hptr, hsize⟩ := hinv.blocks b hb
    obtain ⟨hstart, hnext⟩ := hinv.bounds (hinv.mem_of_live hb)
    have hregion : b.region + 8 = b.ptr := by
      rw [Block.region]
      omega
    have := hbounded.next_le
    exact ⟨by omega, by omega, hsize⟩
  exact ⟨hblocks h, fun hvalid hfits hstep hresult =>
    hblocks (.call h hvalid hfits hstep) _ (mem_live_of_result hstep hresult)⟩

theorem exists_full (Allowed : State → Bool → Nat → Call → Prop)
    (hallowed : Allowed twoPages true 1 (.malloc 63480)) :
    ∃ state result, twoPages.step true 1 (.malloc 63480) = some (state, result) ∧
      Reachable Allowed state ∧ state.live = [⟨67592, 63480⟩] := by
  have hstep : (twoPages.step true 1 (.malloc 63480)).map (fun p => p.1.live) =
      some [⟨67592, 63480⟩] := by
    decide +kernel
  obtain ⟨⟨state, result⟩, hstep, hlive⟩ := map_eq_some_iff.mp hstep
  exact ⟨state, result, hstep, .call reachable_twoPages (by exact trivial) hallowed hstep, hlive⟩

theorem Reachable.inBounds_full :
    ∃ state, Reachable Fits state ∧ state.live = [⟨67592, 63480⟩] ∧
      ∀ b ∈ state.live, state.heap.InBounds b := by
  obtain ⟨state, -, -, hreach, hlive⟩ := exists_full Fits
    fun _ _ _ => ⟨by decide, fun h => absurd h (by decide +kernel)⟩
  exact ⟨state, hreach, hlive, hreach.inBounds.1⟩

/-- The second block gets one page more, and ends 8 bytes behind it. -/
theorem not_inBounds_full :
    ¬ ∀ state, Reachable (fun _ _ _ _ => True) state → ∀ b ∈ state.live, state.heap.InBounds b := by
  intro h
  obtain ⟨state, result, hfirst, hreach, -⟩ :=
    exists_full (fun _ _ _ _ => True) trivial
  have hstep : ((twoPages.step true 1 (.malloc 63480)).bind fun p =>
      p.1.step true 1 (.malloc 65536)).map
        (fun p => (p.2, p.1.heap.sizeAt 131072, p.1.heap.memoryEnd)) =
      some (131080, 65536, 196608) := by
    decide +kernel
  rw [hfirst, bind_some] at hstep
  obtain ⟨⟨state', result'⟩, hstep, hfacts⟩ := map_eq_some_iff.mp hstep
  simp only [Prod.mk.injEq] at hfacts
  obtain ⟨rfl, hsize, hend⟩ := hfacts
  have hmem := mem_live_of_result hstep (by decide)
  have hbounds := (h state' (.call hreach (by exact trivial) trivial hstep) _ hmem).le_end
  have hregion : Block.region ⟨131080, 65536⟩ = 131072 := rfl
  change 131080 + state'.heap.sizeAt (Block.region ⟨131080, 65536⟩) ≤ _ at hbounds
  rw [hregion, hsize, hend] at hbounds
  omega

end State

end TreeSitter.Lib.WasmStdlib
