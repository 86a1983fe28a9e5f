/-
`PageTable64` and its cursor (`page_table_multiarch/src/bits64.rs`).

The state of the methods is a `World`: physical memory seen as tables of entries, the
operating system behind the handler, the pending TLB flushes of the cursor in use,
and a trace of every allocation, every free and every access to a table frame.
A reference to an entry (`&PTE`, `&mut PTE`) is a `Slot`, the frame of its table and
the index in it; each read or write through it is an access to that frame.

The field `borrowed_entries` exists with the feature `copy-from` only; without the
feature no method sets a bit of it.
-/
import PageTableMultiarch.Entry.Lawful
import PageTableMultiarch.Loop
import PageTableMultiarch.Lib.AllocTrace
import PageTableMultiarch.Lib.Radix
import Mathlib.Data.List.FinRange

namespace PageTableMultiarch

open GenericPTE

abbrev PhysAddr := BitVec 64
abbrev VirtAddr := BitVec 64
abbrev Usize := BitVec 64

def ENTRY_COUNT : ℕ := 512

/-- The indices `0..ENTRY_COUNT` of a table.  Loops over them are not to be unrolled by
unfolding. -/
@[irreducible] def entryIndices : List (Fin ENTRY_COUNT) := List.finRange ENTRY_COUNT

theorem mem_entryIndices (i : Fin ENTRY_COUNT) : i ∈ entryIndices := by
  unfold entryIndices
  exact List.mem_finRange i

theorem length_entryIndices : entryIndices.length = ENTRY_COUNT := by
  unfold entryIndices
  exact List.length_finRange

theorem pairwise_entryIndices : entryIndices.Pairwise (· < ·) := by
  unfold entryIndices
  exact List.pairwise_lt_finRange _

theorem nodup_entryIndices : entryIndices.Nodup := by
  unfold entryIndices
  exact List.nodup_finRange _

/-- The index `(vaddr >> k) & (ENTRY_COUNT - 1)`. -/
def tableIndex (k : ℕ) (vaddr : VirtAddr) : Fin ENTRY_COUNT :=
  ⟨((vaddr >>> k) &&& (BitVec.ofNat 64 ENTRY_COUNT - 1)).toNat, by
    rw [BitVec.toNat_and]
    exact Nat.lt_of_le_of_lt Nat.and_le_right (by decide)⟩

def p4Index (vaddr : VirtAddr) : Fin ENTRY_COUNT := tableIndex (12 + 27) vaddr
def p3Index (vaddr : VirtAddr) : Fin ENTRY_COUNT := tableIndex (12 + 18) vaddr
def p2Index (vaddr : VirtAddr) : Fin ENTRY_COUNT := tableIndex (12 + 9) vaddr
def p1Index (vaddr : VirtAddr) : Fin ENTRY_COUNT := tableIndex 12 vaddr

/-- The state in which the methods of a page table run. -/
structure World (PTE σ : Type) where
  mem : PhysAddr → Fin ENTRY_COUNT → PTE
  os : σ
  trace : List (MemEvent PhysAddr)
  flusher : TlbFlusher 64

/-- A reference to an entry. -/
structure Slot where
  table : PhysAddr
  index : Fin ENTRY_COUNT
  deriving DecidableEq

/-- A generic page table struct for 64-bit platform. -/
structure PageTable64 (B : Build) (M : PagingMetaData) (PTE : Type) {σ : Type}
    (H : PagingHandler 64 σ) where
  rootPaddr : PhysAddr
  borrowedEntries : Fin ENTRY_COUNT → Bool

section Memory

variable {PTE σ : Type}

/-- Read the entry a reference points to. -/
def readEntry (slot : Slot) : Op (World PTE σ) PTE := fun w =>
  (.ok (w.mem slot.table slot.index), { w with trace := .access slot.table :: w.trace })

/-- `*entry = value`. -/
def writeEntry (slot : Slot) (value : PTE) : Op (World PTE σ) Unit := fun w =>
  (.ok (), { w with
    mem := Radix.set w.mem slot.table slot.index value
    trace := .access slot.table :: w.trace })

/-- `H::dealloc_frame(paddr)`. -/
def deallocFrame (H : PagingHandler 64 σ) (paddr : PhysAddr) : Op (World PTE σ) Unit := fun w =>
  (.ok (), { w with os := H.deallocFrame w.os paddr, trace := .free paddr :: w.trace })

/-- `PageTable64Cursor::push`. -/
def push (vaddr : VirtAddr) : Op (World PTE σ) Unit :=
  Op.modify fun w => { w with flusher := w.flusher.push vaddr }

/-- The `debug_assert!` of `new_page` and `set_flags`. -/
def assertFlags {S : Type} (B : Build) (PTE : Type) [GenericPTE 64 PTE] (f : MappingFlags 64) :
    Op S Unit :=
  Op.assert (!B.debugAssertions || debugAssert PTE f)

/-- A `pre_func` or `post_func` of `walk`: it is given the level, the index, the virtual address
and the entry, and keeps its own state. -/
abbrev Visitor (PTE α : Type) := ℕ → ℕ → VirtAddr → PTE → α → α

/-- A method that the visitors take no part in. -/
def onWorld {α β : Type} (x : Op (World PTE σ) β) : Op (World PTE σ × α) β := fun s =>
  ((x s.1).1, (x s.1).2, s.2)

/-- `if let Some(func) = func { func(level, i, vaddr, entry); }`. -/
def visit {α : Type} (func : Option (Visitor PTE α)) (level i : ℕ) (vaddr : VirtAddr)
    (entry : PTE) : Op (World PTE σ × α) Unit :=
  match func with
  | some func => Op.modify fun s => (s.1, func level i vaddr entry s.2)
  | none => pure ()

end Memory

namespace PageTable64

variable {B : Build} {M : PagingMetaData} {PTE σ : Type} {H : PagingHandler 64 σ}
  [GenericPTE 64 PTE]

/-! ### Private methods -/

/-- `H::alloc_frame()` and zeroing of the frame. -/
def allocTable (H : PagingHandler 64 σ) : Op (World PTE σ) PhysAddr := fun w =>
  match H.allocFrame w.os with
  | (some paddr, os) =>
    (.ok paddr, { w with
      mem := Function.update w.mem paddr fun _ => empty
      os := os
      trace := .access paddr :: .alloc paddr :: w.trace })
  | (none, os) => (.err .noMemory, { w with os := os })

/-- `next_table` and `next_table_mut`: the frame of the next level table. -/
def nextTable (entry : PTE) : Except PagingError PhysAddr :=
  if paddr entry == 0 then .error .notMapped
  else if isHuge entry then .error .mappedToHugePage
  else .ok (paddr entry)

def nextTableMutOrCreate (H : PagingHandler 64 σ) (slot : Slot) : Op (World PTE σ) PhysAddr := do
  let entry ← readEntry slot
  if isUnused entry then
    let paddr ← allocTable H
    writeEntry slot (newTable paddr)
    return paddr
  else
    Op.ofResult (nextTable entry)

def getEntry (self : PageTable64 B M PTE H) (vaddr : VirtAddr) :
    Op (World PTE σ) (Slot × PageSize) := do
  let p3 ← if M.LEVELS = 3 then pure self.rootPaddr
    else if M.LEVELS = 4 then do
      let p4e ← readEntry ⟨self.rootPaddr, p4Index vaddr⟩
      Op.ofResult (nextTable p4e)
    else Op.panic
  let p3e ← readEntry ⟨p3, p3Index vaddr⟩
  if isHuge p3e then
    return (⟨p3, p3Index vaddr⟩, .size1G)
  else do
    let p2 ← Op.ofResult (nextTable p3e)
    let p2e ← readEntry ⟨p2, p2Index vaddr⟩
    if isHuge p2e then
      return (⟨p2, p2Index vaddr⟩, .size2M)
    else do
      let p1 ← Op.ofResult (nextTable p2e)
      return (⟨p1, p1Index vaddr⟩, .size4K)

/-- The same walk as `get_entry`, for a mutable reference. -/
def getEntryMut (self : PageTable64 B M PTE H) (vaddr : VirtAddr) :
    Op (World PTE σ) (Slot × PageSize) :=
  self.getEntry vaddr

def getEntryMutOrCreate (self : PageTable64 B M PTE H) (vaddr : VirtAddr) (pageSize : PageSize) :
    Op (World PTE σ) Slot := do
  let p3 ← if M.LEVELS = 3 then pure self.rootPaddr
    else if M.LEVELS = 4 then nextTableMutOrCreate H ⟨self.rootPaddr, p4Index vaddr⟩
    else Op.panic
  if pageSize = .size1G then
    return ⟨p3, p3Index vaddr⟩
  else do
    let p2 ← nextTableMutOrCreate H ⟨p3, p3Index vaddr⟩
    if pageSize = .size2M then
      return ⟨p2, p2Index vaddr⟩
    else do
      let p1 ← nextTableMutOrCreate H ⟨p2, p2Index vaddr⟩
      return ⟨p1, p1Index vaddr⟩

/-- `dealloc_tree` for a table with `below` levels of tables under it. -/
def deallocTreeBelow (H : PagingHandler 64 σ) : ℕ → PhysAddr → Op (World PTE σ) Unit
  | 0, tablePaddr => deallocFrame H tablePaddr
  | below + 1, tablePaddr => do
    forEach entryIndices fun i => do
      let entry : PTE ← readEntry ⟨tablePaddr, i⟩
      if (nextTable entry).isOk then deallocTreeBelow H below (paddr entry) else pure ()
    deallocFrame H tablePaddr

/-- `dealloc_tree`: the tables at level `LEVELS - 1` are the last ones. -/
def deallocTree (M : PagingMetaData) (H : PagingHandler 64 σ) (tablePaddr : PhysAddr)
    (level : ℕ) : Op (World PTE σ) Unit :=
  deallocTreeBelow H (M.LEVELS - 1 - level) tablePaddr

/-- One round of `walk_recursive`: `descend` walks the table that the entry points to. -/
def walkEntry {α : Type} (B : Build) (M : PagingMetaData)
    (preFunc postFunc : Option (Visitor PTE α))
    (descend : PhysAddr → VirtAddr → Op (World PTE σ × α) Unit) (tablePaddr : PhysAddr) (level : ℕ)
    (startVaddr : VirtAddr) (i : Fin ENTRY_COUNT) : Op (World PTE σ × α) Bool := do
  let vaddr ← checkedAdd B startVaddr
    (BitVec.ofNat 64 i.val <<< (12 + (M.LEVELS - 1 - level) * 9))
  let entry : PTE ← onWorld (readEntry ⟨tablePaddr, i⟩)
  if isPresent entry then do
    visit preFunc level i.val vaddr entry
    if level < M.LEVELS - 1 && !isHuge entry then
      match nextTable entry with
      | .ok table => descend table vaddr
      | .error _ => pure ()
    else pure ()
    visit postFunc level i.val vaddr entry
    return true
  else return false

/-- `walk_recursive` for a table with `below` levels of tables under it. -/
def walkBelow {α : Type} (B : Build) (M : PagingMetaData) (limit : Usize)
    (preFunc postFunc : Option (Visitor PTE α)) :
    ℕ → PhysAddr → ℕ → VirtAddr → Op (World PTE σ × α) Unit
  | 0, tablePaddr, level, startVaddr =>
    forLimited limit.toNat (walkEntry B M preFunc postFunc (fun _ _ => pure ()) tablePaddr level
      startVaddr) entryIndices 0
  | below + 1, tablePaddr, level, startVaddr =>
    forLimited limit.toNat (walkEntry B M preFunc postFunc (fun table vaddr =>
      walkBelow B M limit preFunc postFunc below table (level + 1) vaddr) tablePaddr level
      startVaddr) entryIndices 0

/-! ### Public methods -/

def tryNew (B : Build) (M : PagingMetaData) (PTE : Type) [GenericPTE 64 PTE]
    (H : PagingHandler 64 σ) : Op (World PTE σ) (PageTable64 B M PTE H) := do
  let rootPaddr ← allocTable H
  return ⟨rootPaddr, fun _ => false⟩

/-- `query`; the sum cannot overflow, see `LawfulPTE.paddr_le`. -/
def query (self : PageTable64 B M PTE H) (vaddr : VirtAddr) :
    Op (World PTE σ) (PhysAddr × MappingFlags 64 × PageSize) := do
  let (slot, size) ← self.getEntry vaddr
  let entry ← readEntry slot
  if !isPresent entry then Op.throw .notMapped
  else
    let off := size.alignOffset vaddr
    return (paddr entry + off, flags entry, size)

/-- `walk`. -/
def walk {α : Type} (self : PageTable64 B M PTE H) (limit : Usize)
    (preFunc postFunc : Option (Visitor PTE α)) : Op (World PTE σ × α) Unit :=
  walkBelow B M limit preFunc postFunc (M.LEVELS - 1) self.rootPaddr 0 0

/-- `impl Drop for PageTable64`. -/
def drop (self : PageTable64 B M PTE H) : Op (World PTE σ) Unit := do
  forEach entryIndices fun i =>
    if self.borrowedEntries i then pure ()
    else do
      let entry : PTE ← readEntry ⟨self.rootPaddr, i⟩
      if (nextTable entry).isOk then deallocTree M H (paddr entry) 1 else pure ()
  deallocFrame H self.rootPaddr

/-! ### Methods of the cursor -/

def map (self : PageTable64 B M PTE H) (vaddr : VirtAddr) (target : PhysAddr)
    (pageSize : PageSize) (f : MappingFlags 64) : Op (World PTE σ) Unit := do
  let slot ← self.getEntryMutOrCreate vaddr pageSize
  let entry : PTE ← readEntry slot
  if !isUnused entry then Op.throw .alreadyMapped
  else do
    assertFlags B PTE f
    writeEntry slot
      (newPage (MemoryAddr.alignDown target (pageSize.toUsize 64)) f pageSize.isHuge : PTE)
    push vaddr

def remap (self : PageTable64 B M PTE H) (vaddr : VirtAddr) (target : PhysAddr)
    (f : MappingFlags 64) : Op (World PTE σ) PageSize := do
  let (slot, size) ← self.getEntryMut vaddr
  let entry : PTE ← readEntry slot
  writeEntry slot (setPaddr entry target)
  assertFlags B PTE f
  writeEntry slot (setFlags (setPaddr entry target) f size.isHuge)
  push vaddr
  return size

def protect (self : PageTable64 B M PTE H) (vaddr : VirtAddr) (f : MappingFlags 64) :
    Op (World PTE σ) PageSize := do
  let (slot, size) ← self.getEntryMut vaddr
  let entry : PTE ← readEntry slot
  if !isPresent entry then Op.throw .notMapped
  else do
    assertFlags B PTE f
    writeEntry slot (setFlags entry f size.isHuge)
    push vaddr
    return size

def unmap (self : PageTable64 B M PTE H) (vaddr : VirtAddr) :
    Op (World PTE σ) (PhysAddr × MappingFlags 64 × PageSize) := do
  let (slot, size) ← self.getEntryMut vaddr
  let entry : PTE ← readEntry slot
  if !isPresent entry then do
    writeEntry slot (clear entry)
    Op.throw .notMapped
  else do
    writeEntry slot (clear entry)
    push vaddr
    return (paddr entry, flags entry, size)

/-- The page size that `map_region` picks at an address. -/
def regionPageSize (vaddr : VirtAddr) (paddr : PhysAddr) (size : Usize) (allowHuge : Bool) :
    PageSize :=
  if allowHuge then
    if PageSize.size1G.isAligned vaddr && MemoryAddr.isAligned paddr (PageSize.size1G.toUsize 64)
        && decide (PageSize.size1G.toUsize 64 ≤ size) then .size1G
    else if PageSize.size2M.isAligned vaddr
        && MemoryAddr.isAligned paddr (PageSize.size2M.toUsize 64)
        && decide (PageSize.size2M.toUsize 64 ≤ size) then .size2M
    else .size4K
  else .size4K

/-- One round of `map_region`. -/
def mapRegionStep (self : PageTable64 B M PTE H) (getPaddr : VirtAddr → PhysAddr)
    (f : MappingFlags 64) (allowHuge : Bool) (vaddr : VirtAddr) (size : Usize) :
    Op (World PTE σ) PageSize := do
  let pageSize := regionPageSize vaddr (getPaddr vaddr) size allowHuge
  self.map vaddr (getPaddr vaddr) pageSize f
  return pageSize

def mapRegion (self : PageTable64 B M PTE H) (vaddr : VirtAddr) (getPaddr : VirtAddr → PhysAddr)
    (size : Usize) (f : MappingFlags 64) (allowHuge : Bool) : Op (World PTE σ) Unit :=
  if !PageSize.size4K.isAligned vaddr || !PageSize.size4K.isAligned size then
    Op.throw .notAligned
  else
    regionLoop B (self.mapRegionStep getPaddr f allowHuge) (regionFuel size) vaddr size

/-- One round of `unmap_region`. -/
def unmapRegionStep (self : PageTable64 B M PTE H) (vaddr : VirtAddr) (size : Usize) :
    Op (World PTE σ) PageSize := do
  let (_, _, pageSize) ← self.unmap vaddr
  assertStep pageSize vaddr size

def unmapRegion (self : PageTable64 B M PTE H) (vaddr : VirtAddr) (size : Usize) :
    Op (World PTE σ) Unit :=
  regionLoop B self.unmapRegionStep (regionFuel size) vaddr size

/-- One round of `protect_region`. -/
def protectRegionStep (self : PageTable64 B M PTE H) (f : MappingFlags 64) (vaddr : VirtAddr)
    (size : Usize) : Op (World PTE σ) PageSize := do
  let found ← attempt (self.getEntryMut vaddr)
  let pageSize ← match found with
    | .ok (slot, pageSize) => do
      let entry : PTE ← readEntry slot
      if isPresent entry then do
        assertFlags B PTE f
        writeEntry slot (setFlags entry f pageSize.isHuge)
        push vaddr
        pure pageSize
      else
        pure pageSize
    | .error .notMapped => pure .size4K
    | .error e => Op.throw e
  assertStep pageSize vaddr size

def protectRegion (self : PageTable64 B M PTE H) (vaddr : VirtAddr) (size : Usize)
    (f : MappingFlags 64) : Op (World PTE σ) Unit :=
  regionLoop B (self.protectRegionStep f) (regionFuel size) vaddr size

/-- The index of an address in the root table. -/
def rootIndex (M : PagingMetaData) (vaddr : VirtAddr) : Fin ENTRY_COUNT :=
  if M.LEVELS = 3 then p3Index vaddr else p4Index vaddr

/-- `copy_from` (feature `copy-from`), which also returns the table with its new
`borrowed_entries`.  Each index is visited once, so the bit that `set(i, true)`
returns is the one before the call. -/
def copyFrom (self other : PageTable64 B M PTE H) (start : VirtAddr) (size : Usize) :
    Op (World PTE σ) (PageTable64 B M PTE H) :=
  if size = 0 then pure self
  else do
    let startIdx := rootIndex M start
    let stop ← checkedAdd B start size
    let last ← checkedSub B stop 1
    let endIdx := (rootIndex M last).val + 1
    Op.assert (decide (startIdx.val < ENTRY_COUNT))
    Op.assert (decide (endIdx ≤ ENTRY_COUNT))
    let copied (i : Fin ENTRY_COUNT) : Bool := decide (startIdx.val ≤ i.val ∧ i.val < endIdx)
    forEach (entryIndices.filter copied) fun i => do
      if self.borrowedEntries i then pure ()
      else do
        let entry : PTE ← readEntry ⟨self.rootPaddr, i⟩
        if (nextTable entry).isOk then deallocTree M H (paddr entry) 1 else pure ()
      let value : PTE ← readEntry ⟨other.rootPaddr, i⟩
      writeEntry ⟨self.rootPaddr, i⟩ value
    Op.modify fun w => { w with flusher := .full }
    return { self with borrowedEntries := fun i => self.borrowedEntries i || copied i }

/-- `flush`, which returns the arguments of its calls of `M::flush_tlb`.  Dropping a cursor
is a flush. -/
def flush : Op (World PTE σ) (List (Option VirtAddr)) := fun w =>
  (.ok w.flusher.calls, { w with flusher := .none })

end PageTable64

end PageTableMultiarch
