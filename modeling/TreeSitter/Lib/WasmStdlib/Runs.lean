import TreeSitter.Lib.WasmStdlib.Calls

/-!
# TreeSitter.Lib.WasmStdlib.Runs

**Runs** of the allocator. A scanner calls `malloc`, `calloc`, `realloc` and `free`, the last two
with pointers that are live, and writes to the bytes that it asked for; `State` remembers the live
blocks beside the heap.

* `State.Reachable.separated`: as long as no address overflows, blocks that are live and regions
  that are free do not overlap, and no call touches another live block.
* `State.Reachable.inBounds`: every live block lies in the memory, as long as the heap is grown by
  enough. `malloc` grows it by the size alone, without the header, so that is a condition of its
  own.
-/

namespace TreeSitter.Lib.WasmStdlib

open Option List Library

/-- A call of the allocator, or a write of the scanner to its memory. -/
inductive Call where
  | malloc (size : Nat)
  | calloc (count size : Nat)
  | realloc (ptr newSize : Nat)
  | free (ptr : Nat)
  | write (address : Nat) (byte : UInt8)

namespace Call

/-- The number of bytes that the call asks for. -/
def size : Call → Nat
  | malloc size => size
  | calloc count size => count * size
  | realloc _ newSize => newSize
  | free _ | write _ _ => 0

/-- Only live pointers are passed, and only the bytes of live blocks are written. -/
def Valid (live : List Block) : Call → Prop
  | malloc _ | calloc _ _ => True
  | realloc ptr _ | free ptr => ptr = 0 ∨ ∃ b ∈ live, b.ptr = ptr
  | write address _ => ∃ b ∈ live, b.ptr ≤ address ∧ address < b.ptr + b.size

def Targets (b : Block) : Call → Prop
  | malloc _ | calloc _ _ => False
  | realloc ptr _ | free ptr => b.ptr = ptr
  | write address _ => b.ptr ≤ address ∧ address < b.ptr + b.size

end Call

/-- The heap and the blocks that are live. -/
structure State where
  heap : Heap
  live : List Block

namespace State

/-- The live blocks after a pointer was handed out. -/
def record (live : List Block) (result size : Nat) : List Block :=
  if result = 0 then live else ⟨result, size⟩ :: live

/-- The live blocks after a pointer was given back. -/
def forget (live : List Block) (ptr : Nat) : List Block := live.filter fun b => b.ptr ≠ ptr

/-- One call, with the host's answer and the number of turns that the search in the free list may
take. -/
def step (self : State) (grants : Bool) (fuel : Nat) : Call → Option (State × Nat)
  | .malloc size => do
      let (heap, result) ← self.heap.malloc grants fuel size
      some (⟨heap, record self.live result size⟩, result)
  | .calloc count size => do
      let (heap, result) ← self.heap.calloc grants fuel count size
      some (⟨heap, record self.live result (count * size)⟩, result)
  | .realloc ptr newSize => do
      let (heap, result) ← self.heap.realloc grants fuel ptr newSize
      let live := if newSize = 0 ∨ result ≠ 0 then forget self.live ptr else self.live
      some (⟨heap, record live result newSize⟩, result)
  | .free ptr => do
      let heap ← self.heap.free ptr
      some (⟨heap, forget self.live ptr⟩, 0)
  | .write address byte =>
    if address < self.heap.memoryEnd then
      some (⟨{ self.heap with bytes := Function.update self.heap.bytes address byte },
        self.live⟩, 0)
    else none

/-- A state that a run leads to in which all calls are allowed. The host places the heap inside of
the memory. -/
inductive Reachable (Allowed : State → Bool → Nat → Call → Prop) : State → Prop where
  | reset (heap : Heap) (start : Nat) (hpages : heap.pages ≤ maxMemorySize) (hpos : 0 < start)
      (hle : start ≤ heap.memoryEnd) : Reachable Allowed ⟨heap.resetHeap start, []⟩
  | call {state state' : State} {grants : Bool} {fuel result : Nat} {call : Call}
      (h : Reachable Allowed state) (hvalid : call.Valid state.live)
      (hallowed : Allowed state grants fuel call)
      (hstep : state.step grants fuel call = some (state', result)) : Reachable Allowed state'

end State

/-- Two regions, headers included, have no byte in common. -/
def Heap.Apart (heap : Heap) (a b : Nat) : Prop :=
  a + 8 + heap.sizeAt a ≤ b ∨ b + 8 + heap.sizeAt b ≤ a

/-! ### One step -/

/-- `malloc` does not compute an address that overflows for a region that it hands out. -/
def Heap.MallocNoOverflow (heap : Heap) (grants : Bool) (fuel size : Nat) : Prop :=
  size ≠ 0 → heap.findFree size fuel 0 heap.freeList = some none →
    (heap.growHeapForRegion grants (Heap.regionAfter heap.next size) size).2 = true →
    heap.next + size + 11 < 2 ^ 32

/-- `realloc` does not either, for the last region. -/
def Heap.ReallocNoOverflow (heap : Heap) (grants : Bool) (region newSize : Nat) : Prop :=
  (heap.growHeapForRegion grants (Heap.regionAfter region newSize)
    (subU32 (Heap.regionAfter region newSize) heap.heapEnd)).2 = true →
  region + newSize + 11 < 2 ^ 32

def State.NoOverflow (state : State) (grants : Bool) (fuel : Nat) : Call → Prop
  | .malloc size => state.heap.MallocNoOverflow grants fuel size
  | .calloc count size =>
    count * size < 2 ^ 32 ∧ state.heap.MallocNoOverflow grants fuel (count * size)
  | .realloc ptr newSize =>
    if ptr = 0 then state.heap.MallocNoOverflow grants fuel newSize
    else if newSize = 0 then True
    else if state.heap.after (Heap.regionForPtr ptr) = state.heap.next then
      state.heap.ReallocNoOverflow grants (Heap.regionForPtr ptr) newSize
    else state.heap.MallocNoOverflow grants fuel newSize
  | .free _ | .write _ _ => True

namespace State

/-- The heap and its live blocks are in order. -/
def Inv (state : State) : Prop := ∃ regions free, state.heap.Inv state.live regions free

/-- What a call does to the blocks that were live before. -/
structure Keeps (state : State) (call : Call) (state' : State) (result : Nat) : Prop where
  /-- Blocks that the call is not about stay live, with all of their bytes. -/
  others : ∀ b ∈ state.live, ¬ call.Targets b →
    b ∈ state'.live ∧ state.heap.SameRegion state'.heap b.region
  /-- A block that cannot be made larger stays as it is. -/
  refused : ∀ b ∈ state.live, ∀ newSize, newSize ≠ 0 → call = .realloc b.ptr newSize →
    result = 0 → b ∈ state'.live ∧ state.heap.SameRegion state'.heap b.region
  /-- The bytes of a block are moved with it. -/
  copied : ∀ b ∈ state.live, ∀ newSize, call = .realloc b.ptr newSize → result ≠ 0 →
    ∀ i, i < min b.size newSize → state'.heap.bytes (result + i) = state.heap.bytes (b.ptr + i)

variable {state state' : State} {grants : Bool} {fuel result : Nat} {call : Call}

theorem Keeps.of_others (hcall : ∀ ptr newSize, call ≠ .realloc ptr newSize)
    (h : ∀ b ∈ state.live, ¬ call.Targets b →
      b ∈ state'.live ∧ state.heap.SameRegion state'.heap b.region) :
    state.Keeps call state' result :=
  ⟨h, fun _ _ _ _ hrealloc => absurd hrealloc (hcall _ _),
    fun _ _ _ hrealloc => absurd hrealloc (hcall _ _)⟩

variable {regions free : List Nat}

theorem forget_eq_erase {heap : Heap} {live : List Block}
    (h : heap.Inv live regions free) {b : Block} (hb : b ∈ live) :
    forget live b.ptr = live.erase b := by
  have hnodup := (nodup_append.mp h.nodup).1
  rw [(hnodup.of_map _).erase_eq_filter]
  refine filter_congr fun c hc => ?_
  rw [Bool.eq_iff_iff, decide_eq_true_iff, bne_iff_ne]
  refine not_congr ⟨fun hptr => ?_, fun heq => heq ▸ rfl⟩
  exact inj_on_of_nodup_map hnodup hc hb (by rw [Block.region, Block.region, hptr])

theorem forget_zero {heap : Heap} {live : List Block}
    (h : heap.Inv live regions free) : forget live 0 = live := by
  refine filter_eq_self.mpr fun b hb => ?_
  have := (h.blocks b hb).1
  simp only [decide_eq_true_eq]
  omega

section

variable (h : state.Inv)

include h

theorem inv_of_mallocs {heap' : Heap} {size : Nat}
    (hm : state.heap.Mallocs heap' state.live size result) :
    (State.mk heap' (record state.live result size)).Inv ∧
      ∀ b ∈ state.live, b ∈ record state.live result size ∧
        state.heap.SameRegion heap' b.region := by
  obtain ⟨regions, free, h⟩ := h
  cases hm with
  | null hresult hbytes hinv =>
    rw [record, if_pos hresult]
    exact ⟨⟨regions, free, hinv h⟩, fun b hb => ⟨hb, fun x _ _ => by rw [hbytes]⟩⟩
  | @block regions' free' hresult hinv hsame =>
    rw [record, if_neg hresult]
    exact ⟨⟨regions', free', hinv⟩, fun b hb => ⟨mem_cons_of_mem _ hb, hsame b hb⟩⟩

theorem malloc_keeps {size : Nat} (hsmall : state.NoOverflow grants fuel (.malloc size))
    (hstep : state.step grants fuel (.malloc size) = some (state', result)) :
    state'.Inv ∧ state.Keeps (.malloc size) state' result := by
  obtain ⟨regions, free, hinv⟩ := id h
  obtain ⟨⟨heap', result'⟩, hmalloc, hstep⟩ := bind_eq_some_iff.mp hstep
  cases hstep
  obtain ⟨hinv', hothers⟩ := inv_of_mallocs h (Heap.malloc_spec hinv hsmall hmalloc)
  exact ⟨hinv', .of_others (by simp) fun b hb _ => hothers b hb⟩

theorem calloc_keeps {count size : Nat} (hsmall : state.NoOverflow grants fuel (.calloc count size))
    (hstep : state.step grants fuel (.calloc count size) = some (state', result)) :
    state'.Inv ∧ state.Keeps (.calloc count size) state' result := by
  obtain ⟨regions, free, hinv⟩ := id h
  obtain ⟨⟨heap', result'⟩, hcalloc, hstep⟩ := bind_eq_some_iff.mp hstep
  cases hstep
  obtain ⟨hinv', hothers⟩ := inv_of_mallocs h (Heap.calloc_spec hinv hsmall.1 hsmall.2 hcalloc)
  exact ⟨hinv', .of_others (by simp) fun b hb _ => hothers b hb⟩

theorem free_keeps {ptr : Nat} (hvalid : (Call.free ptr).Valid state.live)
    (hstep : state.step grants fuel (.free ptr) = some (state', result)) :
    state'.Inv ∧ state.Keeps (.free ptr) state' result := by
  obtain ⟨regions, free, hinv⟩ := h
  obtain ⟨heap', hfree, hstep⟩ := bind_eq_some_iff.mp hstep
  cases hstep
  rcases hvalid with rfl | ⟨b, hb, rfl⟩
  · rw [Heap.free, if_pos rfl] at hfree
    cases hfree
    rw [forget_zero hinv]
    exact ⟨⟨regions, free, hinv⟩, .of_others (by simp) fun b hb _ => ⟨hb, .refl _ _⟩⟩
  · obtain ⟨regions', free', hinv', hsame⟩ := Heap.free_spec hinv hb hfree
    rw [forget_eq_erase hinv hb]
    refine ⟨⟨regions', free', hinv'⟩, .of_others (by simp) fun c hc htarget => ?_⟩
    have hc' : c ∈ state.live.erase b :=
      (mem_erase_of_ne (by rintro rfl; exact htarget rfl)).mpr hc
    exact ⟨hc', hsame c hc'⟩

theorem write_keeps {address : Nat} {byte : UInt8}
    (hvalid : (Call.write address byte).Valid state.live)
    (hstep : state.step grants fuel (.write address byte) = some (state', result)) :
    state'.Inv ∧ state.Keeps (.write address byte) state' result := by
  obtain ⟨regions, free, hinv⟩ := h
  obtain ⟨b, hb, hle, hlt⟩ := hvalid
  rw [step] at hstep
  split at hstep
  · cases hstep
    obtain ⟨hinv', hsame⟩ := hinv.write_block hb (Function.update state.heap.bytes address byte)
      fun x hx => Function.update_of_ne (by omega) _ _
    refine ⟨⟨regions, free, hinv'⟩, .of_others (by simp) fun c hc htarget => ⟨hc, ?_⟩⟩
    have hc' : c ∈ state.live.erase b :=
      (mem_erase_of_ne (by rintro rfl; exact htarget ⟨hle, hlt⟩)).mpr hc
    exact hsame _ (hinv.mem_of_live hc) (hinv.region_ne_of_mem_erase hb hc')
  · cases hstep

theorem realloc_spec {b : Block} (hb : b ∈ state.live) {newSize : Nat}
    (hsize : newSize ≠ 0) (hsmall : state.NoOverflow grants fuel (.realloc b.ptr newSize))
    {heap' : Heap} (hm : state.heap.realloc grants fuel b.ptr newSize = some (heap', result)) :
    state.heap.Reallocs heap' state.live b newSize result := by
  obtain ⟨regions, free, hinv⟩ := h
  obtain ⟨hptr, -⟩ := hinv.regionForPtr_ptr hb
  have hne : b.ptr ≠ 0 := by
    have := (hinv.blocks b hb).1
    omega
  rw [NoOverflow, if_neg hne, if_neg hsize, hptr, Heap.after, Heap.sizeAt] at hsmall
  rw [Heap.realloc, if_neg hne, if_neg hsize, hptr] at hm
  obtain ⟨size, hload, hm⟩ := bind_eq_some_iff.mp hm
  obtain rfl := Heap.load_eq hload
  split at hsmall
  · next hlast =>
    rw [if_pos hlast] at hm
    exact Heap.reallocAtEnd_spec hinv hb hlast hsmall hm
  · next hlast =>
    rw [if_neg hlast] at hm
    exact Heap.reallocMove_spec hinv hb hsmall hm

theorem realloc_keeps {ptr newSize : Nat} (hvalid : (Call.realloc ptr newSize).Valid state.live)
    (hsmall : state.NoOverflow grants fuel (.realloc ptr newSize))
    (hstep : state.step grants fuel (.realloc ptr newSize) = some (state', result)) :
    state'.Inv ∧ state.Keeps (.realloc ptr newSize) state' result := by
  obtain ⟨regions, free, hinv⟩ := id h
  obtain ⟨⟨heap', result'⟩, hrealloc, hstep⟩ := bind_eq_some_iff.mp hstep
  cases hstep
  rcases hvalid with rfl | ⟨b, hb, rfl⟩
  · rw [Heap.realloc, if_pos rfl] at hrealloc
    rw [NoOverflow, if_pos rfl] at hsmall
    rw [forget_zero hinv, ite_self]
    obtain ⟨hinv', hothers⟩ := inv_of_mallocs h (Heap.malloc_spec hinv hsmall hrealloc)
    have hne : ∀ b ∈ state.live, ∀ size, Call.realloc 0 newSize ≠ .realloc b.ptr size := by
      intro b hb size hcall
      have := (hinv.blocks b hb).1
      injection hcall
      omega
    exact ⟨hinv', fun b hb _ => hothers b hb, fun b hb size _ hcall => absurd hcall (hne b hb size),
      fun b hb size hcall => absurd hcall (hne b hb size)⟩
  · by_cases hsize : newSize = 0
    · subst hsize
      have hne : b.ptr ≠ 0 := by
        have := (hinv.blocks b hb).1
        omega
      rw [Heap.realloc, if_neg hne, if_pos rfl] at hrealloc
      obtain ⟨heap'', hfree, hrealloc⟩ := bind_eq_some_iff.mp hrealloc
      cases hrealloc
      obtain ⟨regions', free', hinv', hsame⟩ := Heap.free_spec hinv hb hfree
      rw [if_pos (.inl rfl), record, if_pos rfl, forget_eq_erase hinv hb]
      refine ⟨⟨regions', free', hinv'⟩, fun c hc htarget => ?_, fun _ _ size hsize hcall => ?_,
        fun _ _ _ _ hresult => absurd rfl hresult⟩
      · have hc' : c ∈ state.live.erase b :=
          (mem_erase_of_ne (by rintro rfl; exact htarget rfl)).mpr hc
        exact ⟨hc', hsame c hc'⟩
      · injection hcall with _ hzero
        exact absurd hzero.symm hsize
    · cases realloc_spec h hb hsize hsmall hrealloc with
      | @null regions' free' hresult hbytes hinv' =>
        rw [if_neg (by simp [hsize, hresult]), record, if_pos hresult]
        have hsame : ∀ c ∈ state.live, c ∈ state.live ∧ state.heap.SameRegion heap' c.region :=
          fun c hc => ⟨hc, fun x _ _ => by rw [hbytes]⟩
        exact ⟨⟨regions', free', hinv'⟩, fun c hc _ => hsame c hc, fun c hc _ _ _ _ => hsame c hc,
          fun _ _ _ _ hresult' => absurd hresult hresult'⟩
      | @block regions' free' hresult hinv' hsame hcopied =>
        rw [if_pos (.inr hresult), record, if_neg hresult, forget_eq_erase hinv hb]
        refine ⟨⟨regions', free', hinv'⟩, fun c hc htarget => ?_,
          fun _ _ _ _ _ hresult' => absurd hresult' hresult, fun c hc size hcall _ i hi => ?_⟩
        · have hc' : c ∈ state.live.erase b :=
            (mem_erase_of_ne (by rintro rfl; exact htarget rfl)).mpr hc
          exact ⟨mem_cons_of_mem _ hc', hsame c hc'⟩
        · injection hcall with hptr hsize
          subst hsize
          rw [← hptr]
          have hc' := (hinv.blocks c hc).2
          have hregion : c.region = b.region := by rw [Block.region, Block.region, hptr]
          rw [hregion] at hc'
          exact hcopied i (by omega) (by omega)

/-- Every call keeps the invariant, and the live blocks that it is not about. -/
theorem step_keeps (hvalid : call.Valid state.live) (hsmall : state.NoOverflow grants fuel call)
    (hstep : state.step grants fuel call = some (state', result)) :
    state'.Inv ∧ state.Keeps call state' result := by
  cases call with
  | malloc size => exact malloc_keeps h hsmall hstep
  | calloc count size => exact calloc_keeps h hsmall hstep
  | realloc ptr newSize => exact realloc_keeps h hvalid hsmall hstep
  | free ptr => exact free_keeps h hvalid hstep
  | write address byte => exact write_keeps h hvalid hstep

end

/-! ### Separation -/

/-- Live blocks and free regions, headers included, have no byte in common, and the free regions
are below the bump pointer. -/
structure Separated (state : State) : Prop where
  live : state.live.Pairwise fun b c => state.heap.Apart b.region c.region
  free : ∃ free, Path state.heap.linkAt state.heap.freeList free 0 ∧
    ∀ a ∈ free, a + 8 + state.heap.sizeAt a ≤ state.heap.next ∧
      ∀ b ∈ state.live, state.heap.Apart a b.region

theorem Inv.apart (h : state.Inv) : state.Separated := by
  obtain ⟨regions, free, h⟩ := h
  have hnodup := nodup_append.mp h.nodup
  refine ⟨?_, free, h.linked, fun a ha => ⟨(h.bounds (h.mem_of_free ha)).2, fun b hb => ?_⟩⟩
  · refine (pairwise_map.mp hnodup.1).imp_of_mem fun hb hc hne => ?_
    exact h.disjoint (h.mem_of_live hb) (h.mem_of_live hc) hne
  · refine h.disjoint (h.mem_of_free ha) (h.mem_of_live hb) ?_
    exact (hnodup.2.2 _ (mem_map_of_mem hb) a ha).symm

/-- The call asks for so few bytes that the address behind them does not overflow. -/
def Small (state : State) (_grants : Bool) (_fuel : Nat) (call : Call) : Prop :=
  state.heap.next + call.size + 11 < 2 ^ 32

theorem noOverflow_of_small (h : state.Inv) (hvalid : call.Valid state.live)
    (hsmall : state.Small grants fuel call) : state.NoOverflow grants fuel call := by
  obtain ⟨regions, free, h⟩ := h
  cases call with
  | malloc size => exact fun _ _ _ => hsmall
  | calloc count size =>
    refine ⟨?_, fun _ _ _ => hsmall⟩
    have : state.heap.next + count * size + 11 < 2 ^ 32 := hsmall
    omega
  | realloc ptr newSize =>
    have hsmall : state.heap.next + newSize + 11 < 2 ^ 32 := hsmall
    rw [NoOverflow]
    split
    · exact fun _ _ _ => hsmall
    · next hne =>
      split
      · trivial
      · split
        · obtain hzero | ⟨b, hb, rfl⟩ := hvalid
          · exact absurd hzero hne
          · have := (h.bounds (h.mem_of_live hb)).2
            rw [(h.regionForPtr_ptr hb).1]
            exact fun _ => by omega
        · exact fun _ _ _ => hsmall
  | free ptr | write address byte => trivial

theorem inv_reset {heap : Heap} {start : Nat} (hpages : heap.pages ≤ maxMemorySize)
    (hpos : 0 < start) (hle : start ≤ heap.memoryEnd) : (State.mk (heap.resetHeap start) []).Inv := by
  have hend : heap.pages * pageSize < 2 ^ 32 := by
    have : heap.pages * pageSize ≤ maxMemorySize * pageSize := Nat.mul_le_mul_right _ hpages
    exact lt_of_le_of_lt this (by decide)
  exact ⟨[], [], .nil, by simp, .nil, hpos, lt_of_le_of_lt hle hend, by simp, by simp⟩

variable {Allowed : State → Bool → Nat → Call → Prop}

/-- Every state of a run is in order, if the calls that are allowed do not overflow. -/
theorem Reachable.inv
    (hallowed : ∀ {state grants fuel call}, State.Inv state → call.Valid state.live →
      Allowed state grants fuel call → state.NoOverflow grants fuel call)
    (h : Reachable Allowed state) : state.Inv := by
  induction h with
  | reset heap start hpages hpos hle => exact inv_reset hpages hpos hle
  | call _ hvalid hcall hstep ih => exact (step_keeps ih hvalid (hallowed ih hvalid hcall) hstep).1

/-- **Separation.** In every run in which no address overflows, live blocks and free regions do not
overlap, and each call leaves the bytes of the other live blocks alone; `realloc` takes the bytes
along and, unless it is asked for none, leaves the old block when it returns the null pointer. -/
theorem Reachable.separated (h : Reachable Small state) (hvalid : call.Valid state.live)
    (hsmall : state.Small grants fuel call)
    (hstep : state.step grants fuel call = some (state', result)) :
    state.Separated ∧ state'.Separated ∧ state.Keeps call state' result := by
  have hinv := h.inv noOverflow_of_small
  obtain ⟨hinv', hkeeps⟩ :=
    step_keeps hinv hvalid (noOverflow_of_small hinv hvalid hsmall) hstep
  exact ⟨hinv.apart, hinv'.apart, hkeeps⟩

/-- A memory of two pages with a heap of 63488 bytes, in which no byte is 0. -/
def twoPages : State :=
  ⟨{ bytes := fun _ => 1, pages := 2, heapEnd := 0, heapStart := 0, next := 0,
     freeList := 0 : Heap }.resetHeap 67584, []⟩

theorem reachable_twoPages : Reachable Allowed twoPages :=
  .reset _ 67584 (by decide) (by decide) (by decide)

def twoBlocks : Option State :=
  (twoPages.step true 1 (.malloc 16)).bind fun (state, _) =>
    (state.step true 1 (.malloc 16)).map Prod.fst

theorem exists_twoBlocks :
    ∃ state, twoBlocks = some state ∧ Reachable Small state ∧
      state.live = [⟨67616, 16⟩, ⟨67592, 16⟩] ∧ state.heap.next = 67632 := by
  have hfirst : (twoPages.step true 1 (.malloc 16)).map (fun p => (p.1.live, p.1.heap.next)) =
      some ([⟨67592, 16⟩], 67608) := by
    decide +kernel
  have hsecond : twoBlocks.map (fun state => (state.live, state.heap.next)) =
      some ([⟨67616, 16⟩, ⟨67592, 16⟩], 67632) := by
    decide +kernel
  obtain ⟨⟨state, result⟩, hstep, hstate⟩ := map_eq_some_iff.mp hfirst
  obtain ⟨state', hstate', hfacts⟩ := map_eq_some_iff.mp hsecond
  rw [Prod.mk.injEq] at hstate hfacts
  refine ⟨state', hstate', ?_, hfacts⟩
  rw [twoBlocks, hstep, bind_some] at hstate'
  obtain ⟨⟨state'', result'⟩, hstep', hstate'⟩ := map_eq_some_iff.mp hstate'
  subst hstate'
  have hreach : Reachable Small state :=
    .call reachable_twoPages (by exact trivial) (by unfold Small; decide) hstep
  refine .call hreach (by exact trivial) ?_ hstep'
  rw [Small, hstate.2]
  decide

theorem Reachable.separated_twoBlocks :
    ∃ state state' result, Reachable Small state ∧ state.live = [⟨67616, 16⟩, ⟨67592, 16⟩] ∧
      state.step true 1 (.realloc 67592 32) = some (state', result) ∧ result ≠ 0 ∧
      state.Separated ∧ state'.Separated ∧ state.Keeps (.realloc 67592 32) state' result := by
  obtain ⟨state, hstate, hreach, hlive, hnext⟩ := exists_twoBlocks
  have hstep : (twoBlocks.bind fun state => state.step true 1 (.realloc 67592 32)).map Prod.snd =
      some 67640 := by
    decide +kernel
  rw [hstate, bind_some] at hstep
  obtain ⟨⟨state', result⟩, hstep, rfl⟩ := map_eq_some_iff.mp hstep
  refine ⟨state, state', _, hreach, hlive, hstep, by decide, hreach.separated ?_ ?_ hstep⟩
  · exact .inr ⟨⟨67592, 16⟩, by simp [hlive], rfl⟩
  · rw [Small, hnext]
    decide

/-- `realloc` to no bytes returns the null pointer, and has put the block in the free list. -/
theorem not_realloc_null_keeps :
    ¬ ∀ (state state' : State) (grants : Bool) (fuel newSize : Nat) (b : Block),
      Reachable Small state → b ∈ state.live → state.Small grants fuel (.realloc b.ptr newSize) →
      state.step grants fuel (.realloc b.ptr newSize) = some (state', 0) →
      state.heap.SameRegion state'.heap b.region := by
  intro h
  obtain ⟨state, hstate, hreach, hlive, hnext⟩ := exists_twoBlocks
  have hstep : (twoBlocks.bind fun state => state.step true 1 (.realloc 67592 0)).map
      (fun p => (p.2, p.1.heap.bytes 67588)) = some (0, 0) := by
    decide +kernel
  have hsize : twoBlocks.map (fun state => (state.heap.sizeAt 67584, state.heap.bytes 67588)) =
      some (16, 1) := by
    decide +kernel
  rw [hstate, bind_some] at hstep
  rw [hstate, map_some, Option.some.injEq, Prod.mk.injEq] at hsize
  obtain ⟨⟨state', result⟩, hstep, hresult⟩ := map_eq_some_iff.mp hstep
  obtain ⟨rfl, hbyte⟩ := Prod.mk.injEq .. ▸ hresult
  have hsame := h state state' true 1 0 ⟨67592, 16⟩ hreach (by simp [hlive])
    (by rw [Small, hnext]; decide) hstep
  have hregion : Block.region ⟨67592, 16⟩ = 67584 := rfl
  rw [hregion] at hsame
  have heq := hsame 67588 (by decide) (by rw [hsize.1]; decide)
  rw [hbyte, hsize.2] at heq
  exact absurd heq (by decide)

end State

end TreeSitter.Lib.WasmStdlib
