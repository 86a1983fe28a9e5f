/-
`PageTable32` and its cursor on ARMv7-A (`page_table_multiarch/src/bits32.rs`, target
`arm`).

The state is that of `PageTable64`, but memory is a function from physical addresses to
words: the entries of a table lie at consecutive addresses, whatever frames they belong
to.  A table is given by its address and by the number of its frames, four for the first
level and one for the second.
-/
import PageTableMultiarch.Entry.A32
import PageTableMultiarch.Loop
import PageTableMultiarch.Lib.AllocTrace
import Mathlib.Data.List.FinRange

namespace PageTableMultiarch.Bits32

open GenericPTE

abbrev PhysAddr := BitVec 32
abbrev VirtAddr := BitVec 32
abbrev Usize := BitVec 32

def ENTRY_COUNT : ℕ := 4096

/-- The indices `0..ENTRY_COUNT` of a table.  Loops over them are not to be unrolled by
unfolding. -/
@[irreducible] def entryIndices : List (Fin ENTRY_COUNT) := List.finRange ENTRY_COUNT

theorem mem_entryIndices (i : Fin ENTRY_COUNT) : i ∈ entryIndices := by
  unfold entryIndices
  exact List.mem_finRange i

theorem nodup_entryIndices : entryIndices.Nodup := by
  unfold entryIndices
  exact List.nodup_finRange _

theorem length_entryIndices : entryIndices.length = ENTRY_COUNT := by
  unfold entryIndices
  exact List.length_finRange

/-- The size of an entry in bytes. -/
def ENTRY_SIZE : ℕ := 4

/-- The number of frames of a first level table. -/
def L1_SIZE_PAGES : ℕ := 4

/-- The alignment of a first level table. -/
def L1_ALIGN : ℕ := 16384

def p1Index (vaddr : VirtAddr) : Fin ENTRY_COUNT :=
  ⟨((vaddr >>> 20) &&& 0xfff).toNat, by
    rw [BitVec.toNat_and]
    exact Nat.lt_of_le_of_lt Nat.and_le_right (by decide)⟩

def p2Index (vaddr : VirtAddr) : Fin ENTRY_COUNT :=
  ⟨((vaddr >>> 12) &&& 0xff).toNat, by
    rw [BitVec.toNat_and]
    exact Nat.lt_of_le_of_lt Nat.and_le_right (by decide)⟩

/-- A table: its address and the number of its frames. -/
structure Table where
  paddr : PhysAddr
  frames : ℕ
  deriving DecidableEq

/-- The state in which the methods of a page table run. -/
structure World (PTE σ : Type) where
  mem : PhysAddr → PTE
  os : σ
  trace : List (MemEvent Table)
  flusher : TlbFlusher 32

/-- A reference to an entry. -/
structure Slot where
  table : Table
  index : Fin ENTRY_COUNT
  deriving DecidableEq

/-- Where an entry lies. -/
def Slot.addr (slot : Slot) : PhysAddr :=
  slot.table.paddr + BitVec.ofNat 32 (ENTRY_SIZE * slot.index)

/-- A generic page table struct for 32-bit ARM platform. -/
structure PageTable32 (B : Build) (M : PagingMetaData) (PTE : Type) {σ : Type}
    (H : PagingHandler 32 σ) where
  rootPaddr : PhysAddr
  borrowedEntries : Fin ENTRY_COUNT → Bool

section Memory

variable {PTE σ : Type}

/-- Read the entry a reference points to. -/
def readEntry (slot : Slot) : Op (World PTE σ) PTE := fun w =>
  (.ok (w.mem slot.addr), { w with trace := .access slot.table :: w.trace })

/-- `*entry = value`. -/
def writeEntry (slot : Slot) (value : PTE) : Op (World PTE σ) Unit := fun w =>
  (.ok (), { w with
    mem := Function.update w.mem slot.addr value
    trace := .access slot.table :: w.trace })

/-- `H::dealloc_frame(paddr)`. -/
def deallocFrame (H : PagingHandler 32 σ) (paddr : PhysAddr) : Op (World PTE σ) Unit := fun w =>
  (.ok (), { w with
    os := H.deallocFrame w.os paddr
    trace := .free ⟨paddr, 1⟩ :: w.trace })

/-- `H::dealloc_frames(paddr, num)`. -/
def deallocFrames (H : PagingHandler 32 σ) (paddr : PhysAddr) (num : ℕ) :
    Op (World PTE σ) Unit := fun w =>
  (.ok (), { w with
    os := H.deallocFrames w.os paddr num
    trace := .free ⟨paddr, num⟩ :: w.trace })

/-- `write_bytes(ptr, 0, bytes)`. -/
def zeroed [GenericPTE 32 PTE] (mem : PhysAddr → PTE) (paddr : PhysAddr) (bytes : ℕ) :
    PhysAddr → PTE :=
  fun a => if (a - paddr).toNat < bytes then empty else mem a

/-- `PageTable32Cursor::push`. -/
def push (vaddr : VirtAddr) : Op (World PTE σ) Unit :=
  Op.modify fun w => { w with flusher := w.flusher.push vaddr }

/-- `flush`, which returns the arguments of its calls of `M::flush_tlb`.  Dropping a cursor is a
flush. -/
def flush : Op (World PTE σ) (List (Option VirtAddr)) := fun w =>
  (.ok w.flusher.calls, { w with flusher := .none })

/-- A `pre_func` or `post_func` of `walk`: it is given the level, the index, the virtual address
and the entry, and keeps its own state. -/
abbrev Visitor (PTE α : Type) := ℕ → ℕ → VirtAddr → PTE → α → α

/-- A method that the visitors take no part in. -/
def onWorld {α β : Type} (x : Op (World PTE σ) β) : Op (World PTE σ × α) β := fun s =>
  ((x s.1).1, (x s.1).2, s.2)

/-- `if let Some(func) = func { func(level, i, vaddr, entry); }`. -/
def visit {α : Type} (func : Option (Visitor PTE α)) (level i : ℕ) (vaddr : VirtAddr)
    (entry : PTE) : Op (World PTE σ × α) Unit :=
  match func with
  | some func => Op.modify fun s => (s.1, func level i vaddr entry s.2)
  | none => pure ()

end Memory

namespace PageTable32

variable {B : Build} {M : PagingMetaData} {PTE σ : Type} {H : PagingHandler 32 σ}
  [GenericPTE 32 PTE]

/-- `try_new`: four frames, zeroed. -/
def tryNew (B : Build) (M : PagingMetaData) (PTE : Type) [GenericPTE 32 PTE]
    (H : PagingHandler 32 σ) : Op (World PTE σ) (PageTable32 B M PTE H) := fun w =>
  match H.allocFrames w.os L1_SIZE_PAGES L1_ALIGN with
  | (some rootPaddr, os) =>
    (.ok ⟨rootPaddr, fun _ => false⟩, { w with
      mem := zeroed w.mem rootPaddr (L1_SIZE_PAGES * 0x1000)
      os := os
      trace := .access ⟨rootPaddr, L1_SIZE_PAGES⟩ :: .alloc ⟨rootPaddr, L1_SIZE_PAGES⟩ :: w.trace })
  | (none, os) => (.err .noMemory, { w with os := os })

/-- The first level table. -/
def root (self : PageTable32 B M PTE H) : Table := ⟨self.rootPaddr, L1_SIZE_PAGES⟩

/-! ### Private methods -/

/-- `H::alloc_frame()` and zeroing of the frame. -/
def allocTable (H : PagingHandler 32 σ) : Op (World PTE σ) PhysAddr := fun w =>
  match H.allocFrame w.os with
  | (some paddr, os) =>
    (.ok paddr, { w with
      mem := zeroed w.mem paddr 0x1000
      os := os
      trace := .access ⟨paddr, 1⟩ :: .alloc ⟨paddr, 1⟩ :: w.trace })
  | (none, os) => (.err .noMemory, { w with os := os })

def getEntry (self : PageTable32 B M PTE H) (vaddr : VirtAddr) :
    Op (World PTE σ) (Slot × PageSize) := do
  let entry : PTE ← readEntry ⟨self.root, p1Index vaddr⟩
  if isUnused entry then Op.throw .notMapped
  else if isHuge entry then
    return (⟨self.root, p1Index vaddr⟩, .size1M)
  else
    return (⟨⟨paddr entry, 1⟩, p2Index vaddr⟩, .size4K)

/-- The same walk as `get_entry`, for a mutable reference. -/
def getEntryMut (self : PageTable32 B M PTE H) (vaddr : VirtAddr) :
    Op (World PTE σ) (Slot × PageSize) :=
  self.getEntry vaddr

def getEntryMutOrCreate (self : PageTable32 B M PTE H) (vaddr : VirtAddr) (pageSize : PageSize) :
    Op (World PTE σ) Slot :=
  if pageSize = .size1M then
    return ⟨self.root, p1Index vaddr⟩
  else do
    let entry : PTE ← readEntry ⟨self.root, p1Index vaddr⟩
    if isUnused entry then do
      let frame ← (allocTable H : Op (World PTE σ) PhysAddr)
      writeEntry ⟨self.root, p1Index vaddr⟩ (newTable frame : PTE)
      return ⟨⟨paddr (newTable frame : PTE), 1⟩, p2Index vaddr⟩
    else if isHuge entry then Op.throw .alreadyMapped
    else
      return ⟨⟨paddr entry, 1⟩, p2Index vaddr⟩

/-- One round of `walk_recursive`: `descend` walks the table that the entry points to. -/
def walkEntry {α : Type} (B : Build) (preFunc postFunc : Option (Visitor PTE α))
    (descend : PhysAddr → VirtAddr → Op (World PTE σ × α) Unit) (table : Table) (level : ℕ)
    (startVaddr : VirtAddr) (i : Fin ENTRY_COUNT) : Op (World PTE σ × α) Bool := do
  let shift := if level = 0 then 20 else 12
  let vaddr ← checkedAdd B startVaddr (BitVec.ofNat 32 i.val <<< shift)
  let entry : PTE ← onWorld (readEntry ⟨table, i⟩)
  if !isUnused entry then do
    visit preFunc level i.val vaddr entry
    if decide (level = 0) && !isHuge entry then descend (paddr entry) vaddr else pure ()
    visit postFunc level i.val vaddr entry
    return true
  else return false

/-- `walk_recursive` for a table with `below` levels of tables under it.  It takes every table
for one of `ENTRY_COUNT` entries. -/
def walkRecursive {α : Type} (B : Build) (limit : Usize)
    (preFunc postFunc : Option (Visitor PTE α)) :
    ℕ → Table → ℕ → VirtAddr → Op (World PTE σ × α) Unit
  | 0, table, level, startVaddr =>
    forLimited limit.toNat
      (walkEntry B preFunc postFunc (fun _ _ => pure ()) table level startVaddr)
      entryIndices 0
  | below + 1, table, level, startVaddr =>
    forLimited limit.toNat (walkEntry B preFunc postFunc (fun nextTable vaddr =>
      walkRecursive B limit preFunc postFunc below ⟨nextTable, 1⟩ (level + 1) vaddr) table level
      startVaddr) entryIndices 0

/-! ### Public methods -/

/-- `query`; the sum cannot overflow, since the address is aligned. -/
def query (self : PageTable32 B M PTE H) (vaddr : VirtAddr) :
    Op (World PTE σ) (PhysAddr × MappingFlags 32 × PageSize) := do
  let (slot, size) ← self.getEntry vaddr
  let entry : PTE ← readEntry slot
  if isUnused entry then Op.throw .notMapped
  else
    let off := vaddr &&& (size.toUsize 32 - 1)
    return (paddr entry + off, flags entry, size)

/-- `walk`. -/
def walk {α : Type} (self : PageTable32 B M PTE H) (limit : Usize)
    (preFunc postFunc : Option (Visitor PTE α)) : Op (World PTE σ × α) Unit :=
  walkRecursive B limit preFunc postFunc 1 self.root 0 0

/-- `impl Drop for PageTable32`. -/
def drop (self : PageTable32 B M PTE H) : Op (World PTE σ) Unit := do
  forEach entryIndices fun i =>
    if self.borrowedEntries i then pure ()
    else do
      let entry : PTE ← readEntry ⟨self.root, i⟩
      if !isUnused entry && !isHuge entry then deallocFrame H (paddr entry) else pure ()
  deallocFrames H self.rootPaddr 4

/-! ### Methods of the cursor -/

def map (self : PageTable32 B M PTE H) (vaddr : VirtAddr) (target : PhysAddr)
    (pageSize : PageSize) (f : MappingFlags 32) : Op (World PTE σ) Unit := do
  let slot ← self.getEntryMutOrCreate vaddr pageSize
  let entry : PTE ← readEntry slot
  if !isUnused entry then Op.throw .alreadyMapped
  else do
    writeEntry slot
      (newPage (MemoryAddr.alignDown target (pageSize.toUsize 32)) f pageSize.isHuge : PTE)
    push vaddr

def remap (self : PageTable32 B M PTE H) (vaddr : VirtAddr) (target : PhysAddr)
    (f : MappingFlags 32) : Op (World PTE σ) PageSize := do
  let (slot, size) ← self.getEntryMut vaddr
  writeEntry slot (newPage target f size.isHuge : PTE)
  push vaddr
  return size

def protect (self : PageTable32 B M PTE H) (vaddr : VirtAddr) (f : MappingFlags 32) :
    Op (World PTE σ) PageSize := do
  let (slot, size) ← self.getEntryMut vaddr
  let entry : PTE ← readEntry slot
  if isUnused entry then Op.throw .notMapped
  else do
    writeEntry slot (newPage (paddr entry) f size.isHuge : PTE)
    push vaddr
    return size

def unmap (self : PageTable32 B M PTE H) (vaddr : VirtAddr) :
    Op (World PTE σ) (PhysAddr × MappingFlags 32 × PageSize) := do
  let (slot, size) ← self.getEntryMut vaddr
  let entry : PTE ← readEntry slot
  if isUnused entry then Op.throw .notMapped
  else do
    writeEntry slot (clear entry)
    push vaddr
    return (paddr entry, flags entry, size)

/-- The page size that `map_region` picks at an address. -/
def regionPageSize (vaddr : VirtAddr) (paddr : PhysAddr) (size : Usize) (allowHuge : Bool) :
    PageSize :=
  if allowHuge && PageSize.size1M.isAligned vaddr
      && MemoryAddr.isAligned paddr (PageSize.size1M.toUsize 32)
      && decide (PageSize.size1M.toUsize 32 ≤ size) then .size1M
  else .size4K

/-- One round of `map_region`. -/
def mapRegionStep (self : PageTable32 B M PTE H) (getPaddr : VirtAddr → PhysAddr)
    (f : MappingFlags 32) (allowHuge : Bool) (vaddr : VirtAddr) (size : Usize) :
    Op (World PTE σ) PageSize := do
  let pageSize := regionPageSize vaddr (getPaddr vaddr) size allowHuge
  self.map vaddr (getPaddr vaddr) pageSize f
  return pageSize

def mapRegion (self : PageTable32 B M PTE H) (vaddr : VirtAddr) (getPaddr : VirtAddr → PhysAddr)
    (size : Usize) (f : MappingFlags 32) (allowHuge : Bool) : Op (World PTE σ) Unit :=
  if !PageSize.size4K.isAligned vaddr || !PageSize.size4K.isAligned size then
    Op.throw .notAligned
  else
    regionLoop B (self.mapRegionStep getPaddr f allowHuge) (regionFuel size) vaddr size

/-- One round of `unmap_region`. -/
def unmapRegionStep (self : PageTable32 B M PTE H) (vaddr : VirtAddr) (size : Usize) :
    Op (World PTE σ) PageSize := do
  let (_, _, pageSize) ← self.unmap vaddr
  assertStep pageSize vaddr size

def unmapRegion (self : PageTable32 B M PTE H) (vaddr : VirtAddr) (size : Usize) :
    Op (World PTE σ) Unit :=
  regionLoop B self.unmapRegionStep (regionFuel size) vaddr size

/-- One round of `protect_region`. -/
def protectRegionStep (self : PageTable32 B M PTE H) (f : MappingFlags 32) (vaddr : VirtAddr)
    (size : Usize) : Op (World PTE σ) PageSize := do
  let found ← attempt (self.getEntryMut vaddr)
  let pageSize ← match found with
    | .ok (slot, pageSize) => do
      let entry : PTE ← readEntry slot
      if !isUnused entry then do
        writeEntry slot (setFlags entry f pageSize.isHuge)
        push vaddr
        pure pageSize
      else
        pure pageSize
    | .error .notMapped => pure .size4K
    | .error e => Op.throw e
  assertStep pageSize vaddr size

def protectRegion (self : PageTable32 B M PTE H) (vaddr : VirtAddr) (size : Usize)
    (f : MappingFlags 32) : Op (World PTE σ) Unit :=
  regionLoop B (self.protectRegionStep f) (regionFuel size) vaddr size

/-- `copy_from` (feature `copy-from`), which also returns the table with its new
`borrowed_entries`. -/
def copyFrom (self other : PageTable32 B M PTE H) (start : VirtAddr) (size : Usize) :
    Op (World PTE σ) (PageTable32 B M PTE H) :=
  if size = 0 then pure self
  else do
    let startIdx := p1Index start
    let stop ← checkedAdd B start size
    let last ← checkedSub B stop 1
    let endIdx := (p1Index last).val + 1
    Op.assert (decide (startIdx.val < ENTRY_COUNT))
    Op.assert (decide (endIdx ≤ ENTRY_COUNT))
    let copied (i : Fin ENTRY_COUNT) : Bool := decide (startIdx.val ≤ i.val ∧ i.val < endIdx)
    forEach (entryIndices.filter copied) fun i => do
      if self.borrowedEntries i then pure ()
      else do
        let entry : PTE ← readEntry ⟨self.root, i⟩
        if !isUnused entry && !isHuge entry then deallocFrame H (paddr entry) else pure ()
      let value : PTE ← readEntry ⟨other.root, i⟩
      writeEntry ⟨self.root, i⟩ value
    Op.modify fun w => { w with flusher := .full }
    return { self with borrowedEntries := fun i => self.borrowedEntries i || copied i }

end PageTable32

end PageTableMultiarch.Bits32
