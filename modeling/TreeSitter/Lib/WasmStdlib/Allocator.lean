import TreeSitter.Lib.Lexer
import TreeSitter.Library.Path

/-!
# TreeSitter.Lib.WasmStdlib.Allocator

The **allocator for external scanners** of `external_scanner_allocator.c`, in the linear memory of
a Wasm module: `malloc` takes the first region of the free list that is large enough, or else the
space at the bump pointer `next`, and grows the memory for it.

Each region starts with a header of two words, its size and, in the free list, its successor.
Addresses are 32-bit numbers and 0 is the null pointer. An access outside of the memory traps,
which is `none` here, and so is a free list that takes more than the given number of turns.

The memory is grown by the host, up to the limit that `wasm_store.c` sets. The host may also refuse
to: each call that may have to grow the memory is given its answer.
-/

namespace TreeSitter.Lib.WasmStdlib

/-- `PAGESIZE`. -/
def pageSize : Nat := 0x10000

/-- `MAX_HEAP_SIZE`. -/
def maxHeapSize : Int := 4 * 1024 * 1024

/-- `MAX_MEMORY_SIZE` of `wasm_store.c`, in pages. -/
def maxMemorySize : Nat := 128 * 1024 * 1024 / pageSize

/-! ### Memory -/

/-- The four bytes at an address as a number, the lowest first. -/
def word (bytes : Nat → UInt8) (address : Nat) : Nat :=
  (bytes address).toNat + 2 ^ 8 * (bytes (address + 1)).toNat +
    2 ^ 16 * (bytes (address + 2)).toNat + 2 ^ 24 * (bytes (address + 3)).toNat

/-- The bytes after a number is stored at an address. -/
def setWord (bytes : Nat → UInt8) (address value : Nat) : Nat → UInt8 := fun x =>
  if x = address then UInt8.ofNat value
  else if x = address + 1 then UInt8.ofNat (value / 2 ^ 8)
  else if x = address + 2 then UInt8.ofNat (value / 2 ^ 16)
  else if x = address + 3 then UInt8.ofNat (value / 2 ^ 24)
  else bytes x

/-- The globals of the allocator and the linear memory. -/
structure Heap where
  bytes : Nat → UInt8
  /-- The size of the memory. -/
  pages : Nat
  heapEnd : Nat
  heapStart : Nat
  next : Nat
  freeList : Nat

namespace Heap

def memoryEnd (self : Heap) : Nat := self.pages * pageSize

def load (self : Heap) (address : Nat) : Option Nat :=
  if address + 4 ≤ self.memoryEnd then some (word self.bytes address) else none

def store (self : Heap) (address value : Nat) : Option Heap :=
  if address + 4 ≤ self.memoryEnd then some { self with bytes := setWord self.bytes address value }
  else none

/-- `memset` with 0. -/
def memset (self : Heap) (address count : Nat) : Option Heap :=
  if address + count ≤ self.memoryEnd then
    some { self with
      bytes := fun x => if address ≤ x ∧ x < address + count then 0 else self.bytes x }
  else none

/-- `memcpy`. -/
def memcpy (self : Heap) (target source count : Nat) : Option Heap :=
  if target + count ≤ self.memoryEnd ∧ source + count ≤ self.memoryEnd then
    some { self with
      bytes := fun x =>
        if target ≤ x ∧ x < target + count then self.bytes (source + (x - target))
        else self.bytes x }
  else none

/-! ### The allocator -/

def data (region : Nat) : Nat := addU32 region 8

/-- `region_for_ptr`. -/
def regionForPtr (ptr : Nat) : Nat := subU32 ptr 8

/-- `region_after`: the end of the data, rounded up to a multiple of 4. -/
def regionAfter (region len : Nat) : Nat :=
  addU32 (addU32 (data region) len) 3 / 4 * 4

/-- `get_heap_end`. -/
def getHeapEnd (self : Heap) : Nat := self.pages * pageSize % 2 ^ 32

/-- `grow_heap`; `grants` is what the host answers, within its limit. -/
def growHeap (self : Heap) (grants : Bool) (size : Nat) : Heap × Bool :=
  let newPageCount := subU32 size 1 / pageSize + 1
  if grants ∧ self.pages + newPageCount ≤ maxMemorySize then
    ({ self with pages := self.pages + newPageCount }, true)
  else (self, false)

/-- A 32-bit number read as `ptrdiff_t`. -/
def toSigned (n : Nat) : Int := if n < 2 ^ 31 then n else n - 2 ^ 32

/-- `grow_heap_for_region`. -/
def growHeapForRegion (self : Heap) (grants : Bool) (regionEnd size : Nat) : Heap × Bool :=
  if regionEnd > self.heapEnd then
    if toSigned (subU32 regionEnd self.heapStart) > maxHeapSize then (self, false)
    else
      match self.growHeap grants size with
      | (self, false) => (self, false)
      | (self, true) => ({ self with heapEnd := self.getHeapEnd }, true)
  else (self, true)

/-- `reset_heap`. -/
def resetHeap (self : Heap) (newHeapStart : Nat) : Heap :=
  { self with
    heapStart := newHeapStart, next := newHeapStart, heapEnd := self.getHeapEnd, freeList := 0 }

/-- The loop of `malloc` over the free list: the first region that is large enough, with the one
before it. -/
def findFree (self : Heap) (size : Nat) : Nat → Nat → Nat → Option (Option (Nat × Nat))
  | 0, _, _ => none
  | fuel + 1, prev, curr =>
    if curr = 0 then some none
    else do
      let currSize ← self.load curr
      if currSize ≥ size then some (some (prev, curr))
      else
        let currNext ← self.load (curr + 4)
        self.findFree size fuel curr currNext

/-- The part of `malloc` that takes a region out of the free list. -/
def takeFree (self : Heap) (prev curr : Nat) : Option (Heap × Nat) := do
  let currNext ← self.load (curr + 4)
  if prev = 0 then some ({ self with freeList := currNext }, data curr)
  else
    let self ← self.store (prev + 4) currNext
    some (self, data curr)

/-- The part of `malloc` that makes a region at the bump pointer. -/
def mallocAtEnd (self : Heap) (grants : Bool) (size : Nat) : Option (Heap × Nat) :=
  match self.growHeapForRegion grants (regionAfter self.next size) size with
  | (self, false) => some (self, 0)
  | (self, true) => do
      let stored ← self.store self.next size
      some ({ stored with next := regionAfter self.next size }, data self.next)

/-- `malloc`. -/
def malloc (self : Heap) (grants : Bool) (fuel size : Nat) : Option (Heap × Nat) :=
  if size = 0 then some (self, 0)
  else do
    match ← self.findFree size fuel 0 self.freeList with
    | some (prev, curr) => self.takeFree prev curr
    | none => self.mallocAtEnd grants size

/-- `free`. -/
def free (self : Heap) (ptr : Nat) : Option Heap :=
  if ptr = 0 then some self
  else do
    let region := regionForPtr ptr
    let size ← self.load region
    if regionAfter region size = self.next then some { self with next := region }
    else
      let self ← self.store (region + 4) self.freeList
      some { self with freeList := region }

/-- `calloc`; the product is one of 32-bit numbers. -/
def calloc (self : Heap) (grants : Bool) (fuel count size : Nat) : Option (Heap × Nat) := do
  let (self, result) ← self.malloc grants fuel (count * size % 2 ^ 32)
  if result = 0 then some (self, 0)
  else
    let self ← self.memset result (count * size % 2 ^ 32)
    some (self, result)

/-- The part of `realloc` that changes the size of the last region. -/
def reallocAtEnd (self : Heap) (grants : Bool) (region newSize : Nat) : Option (Heap × Nat) :=
  let newRegionEnd := regionAfter region newSize
  match self.growHeapForRegion grants newRegionEnd (subU32 newRegionEnd self.heapEnd) with
  | (self, false) => some (self, 0)
  | (self, true) => do
      let stored ← self.store region newSize
      some ({ stored with next := newRegionEnd }, data region)

/-- The part of `realloc` that moves a region. -/
def reallocMove (self : Heap) (grants : Bool) (fuel ptr newSize : Nat) : Option (Heap × Nat) := do
  let (self, result) ← self.malloc grants fuel newSize
  if result = 0 then some (self, 0)
  else
    let size ← self.load (regionForPtr ptr)
    let copySize := if size < newSize then size else newSize
    let self ← self.memcpy result (data (regionForPtr ptr)) copySize
    let self ← self.free ptr
    some (self, result)

/-- `realloc`. -/
def realloc (self : Heap) (grants : Bool) (fuel ptr newSize : Nat) : Option (Heap × Nat) :=
  if ptr = 0 then self.malloc grants fuel newSize
  else if newSize = 0 then do
    let self ← self.free ptr
    some (self, 0)
  else do
    let region := regionForPtr ptr
    let size ← self.load region
    if regionAfter region size = self.next then self.reallocAtEnd grants region newSize
    else self.reallocMove grants fuel ptr newSize

end Heap

end TreeSitter.Lib.WasmStdlib
