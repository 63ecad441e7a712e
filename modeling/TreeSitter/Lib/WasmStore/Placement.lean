import Mathlib

/-!
# TreeSitter.Lib.WasmStore.Placement

Where a **wasm store** places its modules (`module.rs`). All modules share one memory and one table
of functions; a module gets what is behind the current offsets, and the offsets move on if it can be
loaded. The sums have 32 bits. As long as the memory that a module asks for does not make them wrap,
modules are apart and within what the store has (`StoreInner.holds_of_fits`).
-/

namespace TreeSitter.Lib

/-! ### Spans -/

/-- The positions from `base` on. -/
structure Span where
  base : Nat
  size : Nat
deriving DecidableEq

namespace Span

/-- The position behind a span. -/
def stop (span : Span) : Nat := span.base + span.size

/-- No position is in both spans. -/
def Apart (span span' : Span) : Prop := span.stop ≤ span'.base ∨ span'.stop ≤ span.base

instance (span span' : Span) : Decidable (span.Apart span') :=
  inferInstanceAs (Decidable (_ ∨ _))

end Span

/-! ### The store -/

/-- `DylinkInfo`, less the alignments, which nothing reads. -/
structure DylinkInfo where
  memorySize : Nat
  tableSize : Nat

/-- A module that has been loaded: its memory and its part of the table. -/
structure Placement where
  memory : Span
  table : Span
deriving DecidableEq

/-- `StoreInner`, of what decides where modules are, with the sizes of the memory and the table. The
placements are not in the source. -/
structure StoreInner where
  memorySize : Nat
  tableSize : Nat
  currentMemoryOffset : Nat
  currentFunctionTableOffset : Nat
  /-- The language ids of the instances. -/
  instances : List Nat
  placements : List Placement
deriving DecidableEq

def memoryPageSize : Nat := 0x10000
def maxMemoryPages : Nat := 128 * 1024 * 1024 / memoryPageSize
def serializationBufferSize : Nat := 1024

/-- What the table of a store can have at most. -/
def maxTableSize : Nat := 2 ^ 32 - 1

/-- What the source does not decide: whether the parts of a call succeed. -/
structure Answers where
  /-- The dylink section can be read, and the module be compiled. -/
  compiles : Bool
  tableGrows : Bool
  memoryGrows : Bool
  /-- The imports are known, and an instance can be made. -/
  instantiates : Bool
  /-- The initializers and the language function do not trap. -/
  runs : Bool
  /-- The pages that the code of the module adds to the memory, if it can. -/
  pagesAdded : Nat
  /-- The language can be read from the memory. -/
  copiesOut : Bool

/-- `heap_address`. -/
def heapAddress (currentMemoryOffset : Nat) : Nat :=
  (currentMemoryOffset + serializationBufferSize) % 2 ^ 32

namespace StoreInner

/-- `Table::grow`. -/
def growTable (inner : StoreInner) (delta : Nat) (succeeds : Bool) : Option StoreInner :=
  if succeeds ∧ inner.tableSize + delta ≤ maxTableSize then
    some { inner with tableSize := inner.tableSize + delta }
  else none

/-- `Memory::grow`. -/
def growMemory (inner : StoreInner) (pages : Nat) (succeeds : Bool) : Option StoreInner :=
  if succeeds ∧ inner.memorySize + pages * memoryPageSize ≤ maxMemoryPages * memoryPageSize then
    some { inner with memorySize := inner.memorySize + pages * memoryPageSize }
  else none

/-- `needed_memory_size`. -/
def neededMemorySize (inner : StoreInner) (info : DylinkInfo) : Nat :=
  (heapAddress inner.currentMemoryOffset + info.memorySize) % 2 ^ 32

/-- Grow the memory, if it is smaller than the module needs it to be. -/
def reserveMemory (inner : StoreInner) (info : DylinkInfo) (succeeds : Bool) :
    Option StoreInner :=
  let neededMemorySize := inner.neededMemorySize info
  let currentMemorySize := inner.memorySize % 2 ^ 32
  if neededMemorySize > currentMemorySize then
    inner.growMemory ((neededMemorySize - currentMemorySize + memoryPageSize - 1) / memoryPageSize)
      succeeds
  else some inner

/-- Move the offsets on. -/
def advance (inner : StoreInner) (info : DylinkInfo) : StoreInner :=
  { inner with
    currentMemoryOffset := (inner.currentMemoryOffset + info.memorySize) % 2 ^ 32
    currentFunctionTableOffset := (inner.currentFunctionTableOffset + info.tableSize) % 2 ^ 32 }

/-- `instantiate_inner`: whether it succeeds, and the store behind it. -/
def instantiateInner (inner : StoreInner) (info : DylinkInfo) (answers : Answers) :
    Bool × StoreInner :=
  match inner.growTable info.tableSize answers.tableGrows with
  | none => (false, inner)
  | some inner =>
    match inner.reserveMemory info answers.memoryGrows with
    | none => (false, inner)
    | some inner =>
      if answers.instantiates then
        let inner := inner.advance info
        (answers.runs, (inner.growMemory answers.pagesAdded true).getD inner)
      else (false, inner)

def withOffsetsOf (inner initial : StoreInner) : StoreInner :=
  { inner with
    currentMemoryOffset := initial.currentMemoryOffset
    currentFunctionTableOffset := initial.currentFunctionTableOffset }

/-- `instantiate`: the offsets are rolled back on failure. -/
def instantiate (inner : StoreInner) (info : DylinkInfo) (answers : Answers) :
    Bool × StoreInner :=
  match inner.instantiateInner info answers with
  | (true, inner') => (true, inner')
  | (false, inner') => (false, inner'.withOffsetsOf inner)

/-- `gc_deleted_instances`. -/
def gcDeletedInstances (inner : StoreInner) (deleted : List Nat) : StoreInner :=
  { inner with instances := inner.instances.filter (· ∉ deleted) }

/-- `cache_instance`, and where the module is: it was instantiated at the offsets of `initial`. -/
def cacheInstance (inner initial : StoreInner) (languageId : Nat) (info : DylinkInfo) :
    StoreInner :=
  { inner with
    instances := inner.instances ++ [languageId]
    placements := inner.placements ++
      [⟨⟨initial.currentMemoryOffset, info.memorySize⟩,
        ⟨initial.currentFunctionTableOffset, info.tableSize⟩⟩] }

/-- `load_language`, with the id that the language gets and the ids of deleted ones. -/
def loadLanguage (inner : StoreInner) (languageId : Nat) (deleted : List Nat) (info : DylinkInfo)
    (answers : Answers) : Bool × StoreInner :=
  if answers.compiles then
    match inner.instantiate info answers with
    | (true, inner') =>
      if answers.copiesOut then
        (true, (inner'.gcDeletedInstances deleted).cacheInstance inner languageId info)
      else (false, inner'.withOffsetsOf inner)
    | (false, inner') => (false, inner'.withOffsetsOf inner)
  else (false, inner.withOffsetsOf inner)

/-- `add_language`. -/
def addLanguage (inner : StoreInner) (languageId : Nat) (deleted : List Nat) (info : DylinkInfo)
    (answers : Answers) : Bool × StoreInner :=
  let inner := inner.gcDeletedInstances deleted
  if languageId ∈ inner.instances then (true, inner)
  else
    match inner.instantiate info answers with
    | (true, inner') =>
      if answers.copiesOut then (true, inner'.cacheInstance inner languageId info)
      else (false, inner'.withOffsetsOf inner)
    | (false, inner') => (false, inner')

/-- `store_new`: the stdlib module wants some pages and leaves the table with some entries, and its
code may add pages. `none` if the store cannot be made. -/
def storeNew (initialMemoryPages tableBase pagesAdded : Nat) (memoryGrows : Bool) :
    Option StoreInner :=
  if initialMemoryPages ≤ maxMemoryPages then do
    let lexerAddress := initialMemoryPages * memoryPageSize
    -- Five functions of the lexer, and 28 bytes for its fields.
    let inner ← growTable ⟨lexerAddress, tableBase, lexerAddress + 28, tableBase + 5, [], []⟩ 5 true
    let inner := (inner.growMemory pagesAdded true).getD inner
    let inner := (inner.growMemory 1 memoryGrows).getD inner
    if inner.currentMemoryOffset ≤ inner.memorySize then some inner else none
  else none

end StoreInner

/-! ### Calls -/

/-- A call that may place a module. -/
inductive StoreCall where
  | load (languageId : Nat) (deleted : List Nat) (info : DylinkInfo) (answers : Answers)
  | add (languageId : Nat) (deleted : List Nat) (info : DylinkInfo) (answers : Answers)

namespace StoreCall

/-- Whether a call succeeds, and the store behind it. -/
def step (inner : StoreInner) : StoreCall → Bool × StoreInner
  | load languageId deleted info answers => inner.loadLanguage languageId deleted info answers
  | add languageId deleted info answers => inner.addLanguage languageId deleted info answers

/-- What a call asks for, if it gets to the sum of the memory: the table could be grown. -/
def summed (inner : StoreInner) : StoreCall → Option DylinkInfo
  | load _ _ info answers =>
    if answers.compiles then
      (inner.growTable info.tableSize answers.tableGrows).map fun _ => info
    else none
  | add languageId deleted info answers =>
    if languageId ∈ (inner.gcDeletedInstances deleted).instances then none
    else (inner.growTable info.tableSize answers.tableGrows).map fun _ => info

/-- The memory that is asked for, behind the buffer for serialization, ends below 2^32. -/
def Fits (inner : StoreInner) (call : StoreCall) : Prop :=
  ∀ info ∈ call.summed inner,
    inner.currentMemoryOffset + serializationBufferSize + info.memorySize < 2 ^ 32

end StoreCall

namespace StoreInner

/-- The modules are apart, below the offsets, and within the memory and the table. -/
structure Placed (inner : StoreInner) : Prop where
  memory_apart : inner.placements.Pairwise fun p p' => p.memory.Apart p'.memory
  table_apart : inner.placements.Pairwise fun p p' => p.table.Apart p'.table
  memory_below : ∀ p ∈ inner.placements, p.memory.stop ≤ inner.currentMemoryOffset
  table_below : ∀ p ∈ inner.placements, p.table.stop ≤ inner.currentFunctionTableOffset
  memory_within : ∀ p ∈ inner.placements, p.memory.stop ≤ inner.memorySize
  table_within : ∀ p ∈ inner.placements, p.table.stop ≤ inner.tableSize

/-- What a call has to do: no sum wraps, and a call that fails leaves the offsets as they are. -/
structure StepOk (inner : StoreInner) (call : StoreCall) : Prop where
  needed : ∀ info ∈ call.summed inner, inner.neededMemorySize info =
    inner.currentMemoryOffset + serializationBufferSize + info.memorySize
  offsets : ∀ info ∈ call.summed inner, (call.step inner).1 = true →
    (call.step inner).2.currentMemoryOffset = inner.currentMemoryOffset + info.memorySize ∧
      (call.step inner).2.currentFunctionTableOffset =
        inner.currentFunctionTableOffset + info.tableSize
  failed : (call.step inner).1 = false →
    (call.step inner).2.currentMemoryOffset = inner.currentMemoryOffset ∧
      (call.step inner).2.currentFunctionTableOffset = inner.currentFunctionTableOffset

/-- In every state that calls reach, the modules are placed, and every call does what it has to. -/
def Holds : StoreInner → List StoreCall → Prop
  | inner, [] => inner.Placed
  | inner, call :: calls =>
    inner.Placed ∧ inner.StepOk call ∧ Holds (call.step inner).2 calls

def FitsAll : StoreInner → List StoreCall → Prop
  | _, [] => True
  | inner, call :: calls => call.Fits inner ∧ FitsAll (call.step inner).2 calls

/-! ### The invariant -/

/-- What holds in every state: the offsets are within the sizes, and modules lie one behind the
other below them. -/
structure Inv (inner : StoreInner) : Prop where
  memory_offset : inner.currentMemoryOffset ≤ inner.memorySize
  memory_size : inner.memorySize ≤ maxMemoryPages * memoryPageSize
  table_offset : inner.currentFunctionTableOffset ≤ inner.tableSize
  table_size : inner.tableSize ≤ maxTableSize
  ordered : inner.placements.Pairwise fun p p' =>
    p.memory.stop ≤ p'.memory.base ∧ p.table.stop ≤ p'.table.base
  below : ∀ p ∈ inner.placements, p.memory.stop ≤ inner.currentMemoryOffset ∧
    p.table.stop ≤ inner.currentFunctionTableOffset

variable {inner : StoreInner}

theorem Inv.placed (h : inner.Inv) : inner.Placed where
  memory_apart := h.ordered.imp fun hle => .inl hle.1
  table_apart := h.ordered.imp fun hle => .inl hle.2
  memory_below p hp := (h.below p hp).1
  table_below p hp := (h.below p hp).2
  memory_within p hp := (h.below p hp).1.trans h.memory_offset
  table_within p hp := (h.below p hp).2.trans h.table_offset

/-- The store may have more than before, and nothing else has changed but the offsets. -/
structure Grown (inner inner' : StoreInner) : Prop where
  memory : inner.memorySize ≤ inner'.memorySize
  memory_size : inner'.memorySize ≤ maxMemoryPages * memoryPageSize
  table : inner.tableSize ≤ inner'.tableSize
  table_size : inner'.tableSize ≤ maxTableSize
  placements : inner'.placements = inner.placements

theorem Grown.refl (h : inner.Inv) : Grown inner inner :=
  ⟨le_refl _, h.memory_size, le_refl _, h.table_size, rfl⟩

variable {inner' : StoreInner}

theorem Grown.inv_withOffsetsOf (hgrown : Grown inner inner') (h : inner.Inv) :
    (inner'.withOffsetsOf inner).Inv where
  memory_offset := h.memory_offset.trans hgrown.memory
  memory_size := hgrown.memory_size
  table_offset := h.table_offset.trans hgrown.table
  table_size := hgrown.table_size
  ordered := hgrown.placements ▸ h.ordered
  below p hp := h.below p (hgrown.placements ▸ hp)

variable {succeeds : Bool}

theorem growMemory_spec {pages : Nat} (h : inner.growMemory pages succeeds = some inner') :
    inner' = { inner with memorySize := inner.memorySize + pages * memoryPageSize } ∧
      inner.memorySize + pages * memoryPageSize ≤ maxMemoryPages * memoryPageSize := by
  rw [growMemory] at h
  split at h
  next hcond =>
    cases h
    exact ⟨rfl, hcond.2⟩
  next => cases h

theorem growTable_spec {delta : Nat} (h : inner.growTable delta succeeds = some inner') :
    inner' = { inner with tableSize := inner.tableSize + delta } ∧
      inner.tableSize + delta ≤ maxTableSize := by
  rw [growTable] at h
  split at h
  next hcond =>
    cases h
    exact ⟨rfl, hcond.2⟩
  next => cases h

variable {info : DylinkInfo}

theorem reserveMemory_spec (hsize : inner.memorySize ≤ maxMemoryPages * memoryPageSize)
    (h : inner.reserveMemory info succeeds = some inner') :
    ∃ memorySize, inner' = { inner with memorySize } ∧ inner.memorySize ≤ memorySize ∧
      memorySize ≤ maxMemoryPages * memoryPageSize ∧ inner.neededMemorySize info ≤ memorySize := by
  have hmod : inner.memorySize % 2 ^ 32 = inner.memorySize := by
    refine Nat.mod_eq_of_lt (lt_of_le_of_lt hsize ?_)
    decide
  rw [reserveMemory, hmod] at h
  split at h
  next hlt =>
    obtain ⟨rfl, hle⟩ := growMemory_spec h
    refine ⟨_, rfl, Nat.le_add_right _ _, hle, ?_⟩
    have hpages : ∀ n : Nat, n ≤ (n + memoryPageSize - 1) / memoryPageSize * memoryPageSize := by
      intro n
      rw [memoryPageSize]
      omega
    have hneeded := hpages (inner.neededMemorySize info - inner.memorySize)
    omega
  next hge =>
    cases h
    exact ⟨_, rfl, le_refl _, hsize, not_lt.mp hge⟩

theorem getD_growMemory (inner : StoreInner) (pages : Nat) (succeeds : Bool)
    (hsize : inner.memorySize ≤ maxMemoryPages * memoryPageSize) :
    ∃ memorySize, (inner.growMemory pages succeeds).getD inner = { inner with memorySize } ∧
      inner.memorySize ≤ memorySize ∧ memorySize ≤ maxMemoryPages * memoryPageSize := by
  cases hgrow : inner.growMemory pages succeeds with
  | none => exact ⟨inner.memorySize, rfl, le_refl _, hsize⟩
  | some inner' =>
    obtain ⟨rfl, hle⟩ := growMemory_spec hgrow
    exact ⟨_, rfl, Nat.le_add_right _ _, hle⟩

theorem neededMemorySize_eq
    (hfits : inner.currentMemoryOffset + serializationBufferSize + info.memorySize < 2 ^ 32) :
    inner.neededMemorySize info =
      inner.currentMemoryOffset + serializationBufferSize + info.memorySize := by
  rw [neededMemorySize, heapAddress]
  omega

variable {answers : Answers}

/-- What `instantiate_inner` leaves: more memory and table, and if it succeeds, the offsets behind
the module. -/
theorem instantiateInner_spec (h : inner.Inv) (hfits : (inner.growTable info.tableSize
      answers.tableGrows).isSome → inner.currentMemoryOffset + serializationBufferSize +
      info.memorySize < 2 ^ 32) :
    Grown inner (inner.instantiateInner info answers).2 ∧
      ((inner.instantiateInner info answers).1 = true →
        (inner.instantiateInner info answers).2.currentMemoryOffset =
            inner.currentMemoryOffset + info.memorySize ∧
          inner.currentMemoryOffset + info.memorySize ≤
            (inner.instantiateInner info answers).2.memorySize ∧
          (inner.instantiateInner info answers).2.currentFunctionTableOffset =
            inner.currentFunctionTableOffset + info.tableSize ∧
          inner.currentFunctionTableOffset + info.tableSize ≤
            (inner.instantiateInner info answers).2.tableSize) := by
  rw [instantiateInner]
  cases htable : inner.growTable info.tableSize answers.tableGrows with
  | none => exact ⟨Grown.refl h, fun hok => nomatch hok⟩
  | some grown =>
    obtain ⟨rfl, htableSize⟩ := growTable_spec htable
    have hfits := hfits (Option.isSome_of_eq_some htable)
    dsimp only
    cases hmemory : reserveMemory { inner with tableSize := inner.tableSize + info.tableSize }
        info answers.memoryGrows with
    | none =>
      exact ⟨⟨le_refl _, h.memory_size, Nat.le_add_right _ _, htableSize, rfl⟩,
        fun hok => nomatch hok⟩
    | some reserved =>
      obtain ⟨memorySize, rfl, hle, hmax, hneeded⟩ := @reserveMemory_spec
        { inner with tableSize := inner.tableSize + info.tableSize } _ _ _ h.memory_size hmemory
      have hsum : neededMemorySize
          { inner with tableSize := inner.tableSize + info.tableSize } info =
            inner.currentMemoryOffset + serializationBufferSize + info.memorySize :=
        neededMemorySize_eq hfits
      rw [hsum] at hneeded
      dsimp only
      split
      next =>
        rw [advance]
        dsimp only
        obtain ⟨memorySize', hcode, hle', hmax'⟩ := getD_growMemory
          { inner with
            memorySize
            tableSize := inner.tableSize + info.tableSize
            currentMemoryOffset := (inner.currentMemoryOffset + info.memorySize) % 2 ^ 32
            currentFunctionTableOffset :=
              (inner.currentFunctionTableOffset + info.tableSize) % 2 ^ 32 }
          answers.pagesAdded true hmax
        rw [hcode]
        have hoffset := h.table_offset
        have hmaxTable : maxTableSize = 2 ^ 32 - 1 := rfl
        refine ⟨⟨hle.trans hle', hmax', Nat.le_add_right _ _, htableSize, rfl⟩,
          fun _ => ⟨?_, ?_, ?_, ?_⟩⟩
        · exact Nat.mod_eq_of_lt (by omega)
        · exact (by omega : inner.currentMemoryOffset + info.memorySize ≤ memorySize).trans hle'
        · exact Nat.mod_eq_of_lt (by omega)
        · exact Nat.add_le_add_right hoffset _
      next =>
        exact ⟨⟨hle, hmax, Nat.le_add_right _ _, htableSize, rfl⟩, fun hok => nomatch hok⟩

/-- `instantiate`, likewise; if it fails, the offsets are those of before. -/
theorem instantiate_spec {ok : Bool} (h : inner.Inv) (hfits : (inner.growTable info.tableSize
      answers.tableGrows).isSome → inner.currentMemoryOffset + serializationBufferSize +
      info.memorySize < 2 ^ 32) (heq : inner.instantiate info answers = (ok, inner')) :
    Grown inner inner' ∧
      match ok with
      | true => inner'.currentMemoryOffset = inner.currentMemoryOffset + info.memorySize ∧
          inner'.currentFunctionTableOffset = inner.currentFunctionTableOffset + info.tableSize ∧
          inner'.currentMemoryOffset ≤ inner'.memorySize ∧
          inner'.currentFunctionTableOffset ≤ inner'.tableSize
      | false => inner'.withOffsetsOf inner = inner' := by
  obtain ⟨hgrown, hok⟩ := instantiateInner_spec h hfits
  rw [instantiate] at heq
  generalize inner.instantiateInner info answers = result at heq hgrown hok
  obtain ⟨ok', inner''⟩ := result
  cases ok' with
  | true =>
    cases heq
    obtain ⟨hmemory, hmemoryLe, htable, htableLe⟩ := hok rfl
    exact ⟨hgrown, hmemory, htable, hmemory ▸ hmemoryLe, htable ▸ htableLe⟩
  | false =>
    cases heq
    exact ⟨⟨hgrown.memory, hgrown.memory_size, hgrown.table, hgrown.table_size,
      hgrown.placements⟩, rfl⟩

theorem cacheInstance_inv (h : inner.Inv) (languageId : Nat) (hgrown : Grown inner inner')
    (hmemory : inner'.currentMemoryOffset = inner.currentMemoryOffset + info.memorySize) (htable :
      inner'.currentFunctionTableOffset = inner.currentFunctionTableOffset + info.tableSize)
    (hmemoryLe : inner'.currentMemoryOffset ≤ inner'.memorySize)
    (htableLe : inner'.currentFunctionTableOffset ≤ inner'.tableSize) :
    (inner'.cacheInstance inner languageId info).Inv where
  memory_offset := hmemoryLe
  memory_size := hgrown.memory_size
  table_offset := htableLe
  table_size := hgrown.table_size
  ordered := by
    rw [cacheInstance, hgrown.placements]
    refine List.pairwise_append.mpr ⟨h.ordered, List.pairwise_singleton _ _, fun p hp p' hp' => ?_⟩
    rw [List.mem_singleton.mp hp']
    exact h.below p hp
  below p hp := by
    rw [cacheInstance, hgrown.placements, List.mem_append, List.mem_singleton] at hp
    rcases hp with hp | rfl
    · obtain ⟨hmemoryBelow, htableBelow⟩ := h.below p hp
      exact ⟨hmemoryBelow.trans (hmemory ▸ Nat.le_add_right _ _),
        htableBelow.trans (htable ▸ Nat.le_add_right _ _)⟩
    · exact ⟨hmemory.ge, htable.ge⟩

/-! ### One call -/

theorem gcDeletedInstances_inv (h : inner.Inv) (deleted : List Nat) :
    (inner.gcDeletedInstances deleted).Inv :=
  ⟨h.memory_offset, h.memory_size, h.table_offset, h.table_size, h.ordered, h.below⟩

/-- What a call leaves: the invariant, the offsets if it fails, and the sums if it places a
module. -/
def StepSpec (inner : StoreInner) (info : Option DylinkInfo) (result : Bool × StoreInner) :
    Prop :=
  result.2.Inv ∧
    (∀ info' ∈ info, result.1 = true →
      result.2.currentMemoryOffset = inner.currentMemoryOffset + info'.memorySize ∧
        result.2.currentFunctionTableOffset = inner.currentFunctionTableOffset + info'.tableSize) ∧
    (result.1 = false → result.2.currentMemoryOffset = inner.currentMemoryOffset ∧
      result.2.currentFunctionTableOffset = inner.currentFunctionTableOffset)

theorem loadLanguage_spec (h : inner.Inv) {languageId : Nat} {deleted : List Nat}
    (hfits : (StoreCall.load languageId deleted info answers).Fits inner) :
    StepSpec inner ((StoreCall.load languageId deleted info answers).summed inner)
      (inner.loadLanguage languageId deleted info answers) := by
  rw [StoreCall.Fits, StoreCall.summed] at hfits
  rw [StoreCall.summed, loadLanguage]
  split
  next hcompiles =>
    rw [if_pos hcompiles] at hfits
    have hsum : (inner.growTable info.tableSize answers.tableGrows).isSome →
        inner.currentMemoryOffset + serializationBufferSize + info.memorySize < 2 ^ 32 := by
      intro hsome
      obtain ⟨grown, hgrown⟩ := Option.isSome_iff_exists.mp hsome
      exact hfits info (by rw [hgrown]; rfl)
    have hinfo : ∀ info' ∈ (inner.growTable info.tableSize answers.tableGrows).map fun _ => info,
        info' = info := by
      intro info' hinfo'
      obtain ⟨-, -, rfl⟩ := Option.map_eq_some_iff.mp hinfo'
      rfl
    cases hresult : inner.instantiate info answers with
    | mk ok inner' =>
      obtain ⟨hgrown, hok⟩ := instantiate_spec h hsum hresult
      cases ok with
      | false =>
        exact ⟨hgrown.inv_withOffsetsOf h, (fun _ _ hok => nomatch hok), fun _ => ⟨rfl, rfl⟩⟩
      | true =>
        obtain ⟨hmemory, htable, hmemoryLe, htableLe⟩ := hok
        dsimp only
        split
        next =>
          have hcollected : Grown inner (inner'.gcDeletedInstances deleted) :=
            ⟨hgrown.memory, hgrown.memory_size, hgrown.table, hgrown.table_size, hgrown.placements⟩
          refine ⟨cacheInstance_inv h languageId hcollected hmemory htable hmemoryLe htableLe,
            fun info' hinfo' _ => ?_, fun hfail => nomatch hfail⟩
          rw [hinfo info' hinfo']
          exact ⟨hmemory, htable⟩
        next =>
          exact ⟨hgrown.inv_withOffsetsOf h, (fun _ _ hok => nomatch hok), fun _ => ⟨rfl, rfl⟩⟩
  next =>
    exact ⟨(Grown.refl h).inv_withOffsetsOf h, (fun _ hinfo => nomatch hinfo), fun _ => ⟨rfl, rfl⟩⟩

theorem addLanguage_spec (h : inner.Inv) {languageId : Nat} {deleted : List Nat}
    (hfits : (StoreCall.add languageId deleted info answers).Fits inner) :
    StepSpec inner ((StoreCall.add languageId deleted info answers).summed inner)
      (inner.addLanguage languageId deleted info answers) := by
  have hcollected := gcDeletedInstances_inv h deleted
  rw [StoreCall.Fits, StoreCall.summed] at hfits
  rw [StoreCall.summed, addLanguage]
  split
  next => exact ⟨hcollected, (fun _ hinfo => nomatch hinfo), fun hfail => nomatch hfail⟩
  next hnew =>
    rw [if_neg hnew] at hfits
    have hsum : ((inner.gcDeletedInstances deleted).growTable info.tableSize
        answers.tableGrows).isSome →
        inner.currentMemoryOffset + serializationBufferSize + info.memorySize < 2 ^ 32 := by
      intro hsome
      refine hfits info ?_
      rw [growTable] at hsome ⊢
      split at hsome
      next hcond =>
        have hcond' : answers.tableGrows = true ∧ inner.tableSize + info.tableSize ≤ maxTableSize :=
          hcond
        rw [if_pos hcond']
        rfl
      next => cases hsome
    have hinfo : ∀ info' ∈ (inner.growTable info.tableSize answers.tableGrows).map fun _ => info,
        info' = info := by
      intro info' hinfo'
      obtain ⟨-, -, rfl⟩ := Option.map_eq_some_iff.mp hinfo'
      rfl
    cases hresult : (inner.gcDeletedInstances deleted).instantiate info answers with
    | mk ok inner' =>
      obtain ⟨hgrown, hok⟩ := instantiate_spec hcollected hsum hresult
      cases ok with
      | false =>
        have hrolled := hgrown.inv_withOffsetsOf hcollected
        rw [hok] at hrolled
        refine ⟨hrolled, (fun _ _ hok => nomatch hok), fun _ => ?_⟩
        rw [← hok]
        exact ⟨rfl, rfl⟩
      | true =>
        obtain ⟨hmemory, htable, hmemoryLe, htableLe⟩ := hok
        dsimp only
        split
        next =>
          refine ⟨cacheInstance_inv hcollected languageId hgrown hmemory htable hmemoryLe
            htableLe, fun info' hinfo' _ => ?_, fun hfail => nomatch hfail⟩
          rw [hinfo info' hinfo']
          exact ⟨hmemory, htable⟩
        next =>
          exact ⟨hgrown.inv_withOffsetsOf hcollected, (fun _ _ hok => nomatch hok),
            fun _ => ⟨rfl, rfl⟩⟩

theorem step_spec (h : inner.Inv) {call : StoreCall} (hfits : call.Fits inner) :
    (call.step inner).2.Inv ∧ inner.StepOk call := by
  have hspec : StepSpec inner (call.summed inner) (call.step inner) := by
    match call with
    | .load languageId deleted info answers => exact loadLanguage_spec h hfits
    | .add languageId deleted info answers => exact addLanguage_spec h hfits
  obtain ⟨hinv, hoffsets, hfailed⟩ := hspec
  exact ⟨hinv, fun info hinfo => neededMemorySize_eq (hfits info hinfo), hoffsets, hfailed⟩

/-! ### Runs -/

theorem Inv.holds {calls : List StoreCall} : ∀ {inner : StoreInner}, inner.Inv →
    inner.FitsAll calls → inner.Holds calls := by
  induction calls with
  | nil => exact fun h _ => h.placed
  | cons call calls ih =>
    intro inner h hfits
    obtain ⟨hinv, hok⟩ := step_spec h hfits.1
    exact ⟨h.placed, hok, ih hinv hfits.2⟩

theorem storeNew_inv {initialMemoryPages tableBase pagesAdded : Nat} {memoryGrows : Bool}
    (h : storeNew initialMemoryPages tableBase pagesAdded memoryGrows = some inner) :
    inner.Inv := by
  rw [storeNew] at h
  split at h
  next hpages =>
    obtain ⟨table, htable, h⟩ := Option.bind_eq_some_iff.mp h
    obtain ⟨rfl, hmax⟩ := growTable_spec htable
    have hsize : initialMemoryPages * memoryPageSize ≤ maxMemoryPages * memoryPageSize :=
      Nat.mul_le_mul_right _ hpages
    obtain ⟨memorySize, hcode, -, hmemory⟩ := getD_growMemory
      ⟨initialMemoryPages * memoryPageSize, tableBase + 5, initialMemoryPages * memoryPageSize + 28,
        tableBase + 5, [], []⟩ pagesAdded true hsize
    obtain ⟨memorySize', hpage, -, hmemory'⟩ := getD_growMemory
      ⟨memorySize, tableBase + 5, initialMemoryPages * memoryPageSize + 28, tableBase + 5, [], []⟩
      1 memoryGrows hmemory
    dsimp only at h
    rw [hcode, hpage] at h
    split at h
    next hle =>
      cases h
      exact ⟨hle, hmemory', le_refl _, hmax, List.Pairwise.nil, fun _ hp => nomatch hp⟩
    next => cases h
  next => cases h

/-- **Placement.** If the memory that each call asks for ends below 2^32, modules are apart and
within what the store has in every state that the calls reach. -/
theorem holds_of_fits {initialMemoryPages tableBase pagesAdded : Nat} {memoryGrows : Bool}
    {inner : StoreInner}
    (h : storeNew initialMemoryPages tableBase pagesAdded memoryGrows = some inner)
    (calls : List StoreCall) (hfits : inner.FitsAll calls) : inner.Holds calls :=
  (storeNew_inv h).holds hfits

/-- Nothing fails. -/
def allSucceed : Answers := ⟨true, true, true, true, true, 0, true⟩

/-- A store behind the stdlib, with one page for the lexer. -/
def smallStore : StoreInner := ⟨2 * memoryPageSize, 6, memoryPageSize + 28, 6, [], []⟩

/-- Two languages are loaded; the first try to load the second one fails when its code runs. -/
def twoLoads : List StoreCall :=
  [.load 0 [] ⟨70000, 3⟩ allSucceed, .load 1 [] ⟨200000, 2⟩ { allSucceed with runs := false },
    .load 1 [] ⟨200000, 2⟩ allSucceed]

theorem holds_smallStore :
    storeNew 1 1 0 true = some smallStore ∧ smallStore.FitsAll twoLoads ∧
      (twoLoads.foldl (fun inner call => (call.step inner).2) smallStore).placements =
        [⟨⟨65564, 70000⟩, ⟨6, 3⟩⟩, ⟨⟨135564, 200000⟩, ⟨9, 2⟩⟩] ∧
      smallStore.Holds twoLoads := by
  have hfits : smallStore.FitsAll twoLoads := by
    refine ⟨fun info hinfo => ?_, fun info hinfo => ?_, fun info hinfo => ?_, trivial⟩
    all_goals
      cases hinfo
      decide
  exact ⟨by decide, hfits, by decide,
    holds_of_fits (by decide : storeNew 1 1 0 true = some smallStore) _ hfits⟩

/-- The sum of the memory of a large module wraps to zero, and it is placed without any memory. -/
theorem exists_not_holds :
    ¬ ∀ (initialMemoryPages tableBase pagesAdded : Nat) (memoryGrows : Bool) (inner : StoreInner)
        (calls : List StoreCall),
      storeNew initialMemoryPages tableBase pagesAdded memoryGrows = some inner →
        inner.Holds calls := by
  intro h
  have hholds := h 1 1 0 true smallStore
    [.load 0 [] ⟨2 ^ 32 - 1024 - (memoryPageSize + 28), 3⟩ allSucceed] (by decide)
  have hwithin := hholds.2.2.memory_within
  exact absurd hwithin (by decide)

end StoreInner

end TreeSitter.Lib
