/-
What the methods of `PageTable32` do.

Each `_apply` theorem gives the result and the next state in terms of the walk `find`, which looks
at one entry of the first level.
-/
import PageTableMultiarch.Table32.Code

namespace PageTableMultiarch.Bits32

open GenericPTE

variable {B : Build} {M : PagingMetaData} {PTE σ : Type} {H : PagingHandler 32 σ}

namespace World

/-- The state after an access to a table. -/
def touch (w : World PTE σ) (t : Table) : World PTE σ :=
  { w with trace := .access t :: w.trace }

/-- The entry a reference points to. -/
def entry (w : World PTE σ) (slot : Slot) : PTE := w.mem slot.addr

/-- The state after an entry has been overwritten. -/
def store (w : World PTE σ) (slot : Slot) (e : PTE) : World PTE σ :=
  { w with
    mem := Function.update w.mem slot.addr e
    trace := .access slot.table :: w.trace }

/-- The state after a flush has been queued. -/
def queue (w : World PTE σ) (vaddr : VirtAddr) : World PTE σ :=
  { w with flusher := w.flusher.push vaddr }

/-- The state after a frame has been allocated and zeroed. -/
def grant [GenericPTE 32 PTE] (w : World PTE σ) (p : PhysAddr) (os : σ) : World PTE σ :=
  { w with
    mem := zeroed w.mem p 0x1000
    os := os
    trace := .access ⟨p, 1⟩ :: .alloc ⟨p, 1⟩ :: w.trace }

variable (w : World PTE σ) (slot : Slot) (e : PTE) (v : VirtAddr) (t : Table)

@[simp] theorem touch_mem : (w.touch t).mem = w.mem := rfl
@[simp] theorem touch_os : (w.touch t).os = w.os := rfl
@[simp] theorem touch_trace : (w.touch t).trace = .access t :: w.trace := rfl
@[simp] theorem touch_entry : (w.touch t).entry slot = w.entry slot := rfl
@[simp] theorem store_mem : (w.store slot e).mem = Function.update w.mem slot.addr e := rfl
@[simp] theorem store_os : (w.store slot e).os = w.os := rfl
@[simp] theorem store_trace : (w.store slot e).trace = .access slot.table :: w.trace := rfl
@[simp] theorem queue_mem : (w.queue v).mem = w.mem := rfl
@[simp] theorem queue_os : (w.queue v).os = w.os := rfl
@[simp] theorem queue_trace : (w.queue v).trace = w.trace := rfl
@[simp] theorem queue_entry : (w.queue v).entry slot = w.entry slot := rfl

theorem store_entry (slot' : Slot) :
    (w.store slot e).entry slot' = if slot'.addr = slot.addr then e else w.entry slot' := by
  rw [entry, store_mem, Function.update_apply]
  rfl

end World

theorem readEntry_eq (slot : Slot) (w : World PTE σ) :
    readEntry slot w = (.ok (w.entry slot), w.touch slot.table) := rfl

/-- The entry of the first level with a given index. -/
def l1At (root : PhysAddr) (i : Fin ENTRY_COUNT) : Slot := ⟨⟨root, L1_SIZE_PAGES⟩, i⟩

/-- The first level entry of an address. -/
abbrev l1Slot (root : PhysAddr) (v : VirtAddr) : Slot := l1At root (p1Index v)

variable [GenericPTE 32 PTE]

/-- The second level entry of an address in the table that a first level entry points to. -/
def l2Slot (e : PTE) (v : VirtAddr) : Slot := ⟨⟨paddr e, 1⟩, p2Index v⟩

/-- The walk to an address: the entry of a section, or of a page in the table that the first level
entry points to. -/
def find (root : PhysAddr) (v : VirtAddr) (mem : PhysAddr → PTE) : Option (Slot × PageSize) :=
  let e := mem (l1Slot root v).addr
  if isUnused e then none
  else if isHuge e then some (l1Slot root v, .size1M)
  else some (l2Slot e v, .size4K)

theorem find_eq (root : PhysAddr) (v : VirtAddr) (w : World PTE σ) : find root v w.mem =
    if isUnused (w.entry (l1Slot root v)) then none
    else if isHuge (w.entry (l1Slot root v)) then some (l1Slot root v, .size1M)
    else some (l2Slot (w.entry (l1Slot root v)) v, .size4K) := rfl

namespace PageTable32

variable (self : PageTable32 B M PTE H) (v : VirtAddr) (w : World PTE σ)

theorem getEntry_apply : self.getEntry v w =
    (match find self.rootPaddr v w.mem with
      | some found => .ok found
      | none => .err .notMapped, w.touch self.root) := by
  rw [getEntry, Op.bind_ok (readEntry_eq _ _), find]
  have hentry : w.entry ⟨self.root, p1Index v⟩ = w.mem (l1Slot self.rootPaddr v).addr := rfl
  rw [hentry]
  dsimp only
  split
  · rfl
  · split <;> rfl

/-- A method that goes on with the entry found. -/
theorem getEntry_bind {α : Type} (rest : Slot × PageSize → Op (World PTE σ) α) :
    (self.getEntry v >>= rest) w = match find self.rootPaddr v w.mem with
      | some found => rest found (w.touch self.root)
      | none => (.err .notMapped, w.touch self.root) := by
  rw [Op.bind_apply, getEntry_apply]
  cases find self.rootPaddr v w.mem <;> rfl

theorem query_apply : self.query v w = match find self.rootPaddr v w.mem with
    | some (slot, size) =>
      (if isUnused (w.entry slot) then .err .notMapped
        else .ok (paddr (w.entry slot) + (v &&& (size.toUsize 32 - 1)), flags (w.entry slot), size),
        (w.touch self.root).touch slot.table)
    | none => (.err .notMapped, w.touch self.root) := by
  rw [query, getEntry_bind]
  rcases find self.rootPaddr v w.mem with _ | ⟨slot, size⟩
  · rfl
  · dsimp only
    rw [Op.bind_ok (readEntry_eq _ _), World.touch_entry]
    split <;> rfl

theorem unmap_apply : self.unmap v w = match find self.rootPaddr v w.mem with
    | some (slot, size) =>
      if isUnused (w.entry slot) then
        (.err .notMapped, (w.touch self.root).touch slot.table)
      else (.ok (paddr (w.entry slot), flags (w.entry slot), size),
        (((w.touch self.root).touch slot.table).store slot (clear (w.entry slot))).queue v)
    | none => (.err .notMapped, w.touch self.root) := by
  rw [unmap, getEntryMut, getEntry_bind]
  rcases find self.rootPaddr v w.mem with _ | ⟨slot, size⟩
  · rfl
  · dsimp only
    rw [Op.bind_ok (readEntry_eq _ _), World.touch_entry]
    split <;> rfl

theorem remap_apply (target : PhysAddr) (f : MappingFlags 32) :
    self.remap v target f w = match find self.rootPaddr v w.mem with
    | some (slot, size) =>
      (.ok size, ((w.touch self.root).store slot (newPage target f size.isHuge)).queue v)
    | none => (.err .notMapped, w.touch self.root) := by
  rw [remap, getEntryMut, getEntry_bind]
  rcases find self.rootPaddr v w.mem with _ | ⟨slot, size⟩ <;> rfl

theorem protect_apply (f : MappingFlags 32) :
    self.protect v f w = match find self.rootPaddr v w.mem with
    | some (slot, size) =>
      if isUnused (w.entry slot) then
        (.err .notMapped, (w.touch self.root).touch slot.table)
      else (.ok size, (((w.touch self.root).touch slot.table).store slot
        (newPage (paddr (w.entry slot)) f size.isHuge)).queue v)
    | none => (.err .notMapped, w.touch self.root) := by
  rw [protect, getEntryMut, getEntry_bind]
  rcases find self.rootPaddr v w.mem with _ | ⟨slot, size⟩
  · rfl
  · dsimp only
    rw [Op.bind_ok (readEntry_eq _ _), World.touch_entry]
    split <;> rfl

/-- One round of `protect_region` on the entry that the walk finds. -/
theorem protectRegionStep_apply (f : MappingFlags 32) (rest : Usize) :
    self.protectRegionStep f v rest w = match find self.rootPaddr v w.mem with
    | some (slot, size) =>
      if isUnused (w.entry slot) then
        assertStep size v rest ((w.touch self.root).touch slot.table)
      else assertStep size v rest ((((w.touch self.root).touch slot.table).store slot
        (setFlags (w.entry slot) f size.isHuge)).queue v)
    | none => assertStep .size4K v rest (w.touch self.root) := by
  have hfound := getEntry_apply self v w
  rcases hfind : find self.rootPaddr v w.mem with _ | ⟨slot, size⟩
  · rw [hfind] at hfound
    have hatt : attempt (self.getEntryMut v) w = (.ok (.error .notMapped), w.touch self.root) := by
      rw [attempt, getEntryMut, hfound]
    rw [protectRegionStep, Op.bind_ok hatt]
    rfl
  · rw [hfind] at hfound
    have hatt : attempt (self.getEntryMut v) w = (.ok (.ok (slot, size)), w.touch self.root) := by
      rw [attempt, getEntryMut, hfound]
    rw [protectRegionStep, Op.bind_ok hatt]
    dsimp only
    rw [Op.bind_ok (readEntry_eq _ _), World.touch_entry]
    cases isUnused (w.entry slot) <;> rfl

/-- The walk of `map`, which creates the table it misses. -/
theorem getEntryMutOrCreate_apply (size : PageSize) : self.getEntryMutOrCreate v size w =
    if size = .size1M then (.ok (l1Slot self.rootPaddr v), w)
    else
      let e := w.entry (l1Slot self.rootPaddr v)
      if isUnused e then
        match H.allocFrame w.os with
        | (some p, os) => (.ok (l2Slot (newTable p : PTE) v),
          ((w.touch self.root).grant p os).store (l1Slot self.rootPaddr v) (newTable p))
        | (none, os) => (.err .noMemory, { w.touch self.root with os := os })
      else if isHuge e then (.err .alreadyMapped, w.touch self.root)
      else (.ok (l2Slot e v), w.touch self.root) := by
  rw [getEntryMutOrCreate]
  split
  · rfl
  · rw [Op.bind_ok (readEntry_eq _ _)]
    dsimp only
    have hentry : w.entry ⟨self.root, p1Index v⟩ = w.entry (l1Slot self.rootPaddr v) := rfl
    rw [hentry]
    split
    · rw [Op.bind_apply, allocTable]
      rcases halloc : H.allocFrame w.os with ⟨_ | p, os⟩
      · simp only [World.touch_os, halloc]
      · simp only [World.touch_os, halloc]
        rfl
    · split <;> rfl

theorem map_apply (target : PhysAddr) (size : PageSize) (f : MappingFlags 32) :
    self.map v target size f w = match self.getEntryMutOrCreate v size w with
    | (.ok slot, w') =>
      if isUnused (w'.entry slot) then
        (.ok (), ((w'.touch slot.table).store slot
          (newPage (MemoryAddr.alignDown target (size.toUsize 32)) f size.isHuge)).queue v)
      else (.err .alreadyMapped, w'.touch slot.table)
    | (.err e, w') => (.err e, w')
    | (.panic, w') => (.panic, w') := by
  rw [map, Op.bind_apply]
  rcases self.getEntryMutOrCreate v size w with ⟨slot | e | _, w'⟩
  · dsimp only
    rw [Op.bind_ok (readEntry_eq _ _)]
    cases isUnused (w'.entry slot) <;> rfl
  · rfl
  · rfl

end PageTable32

end PageTableMultiarch.Bits32
