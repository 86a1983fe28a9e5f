/-
What a `PageTable32` is for: a map from sections and small pages to frames and flags.

A `Space` is such a map.  Beside it, it knows what decides whether a page can be mapped: the
sections that have a second level table, which can no more be mapped as a whole, and the state of
the frame allocator.  Its methods have the names of those of the page table, and the region methods
are the same loops.

What the entry of a page is read back as is not always what was written to it, so `query` and
`unmap` answer with the decoded entry, and `protect` gives its flags to the decoded address.
-/
import PageTableMultiarch.Table32.Code
import PageTableMultiarch.Lib.PageMap

namespace PageTableMultiarch.Bits32

open GenericPTE

variable {B : Build} {σ : Type} {H : PagingHandler 32 σ}

/-- What a page is mapped to. -/
@[ext] structure Mapping where
  frame : PhysAddr
  flags : MappingFlags 32

/-- The entry of a page of a size. -/
def Mapping.entry (x : Mapping) (size : PageSize) : A32PTE := newPage x.frame x.flags size.isHuge

/-- The page of a size that covers an address. -/
def pageAt (size : PageSize) (v : VirtAddr) : Page PageSize :=
  Page.containing PageSize.bytes size v.toNat

/-- An address space. -/
structure Space (σ : Type) where
  pages : PageMap PageSize.bytes Mapping
  linked : Fin ENTRY_COUNT → Bool
  os : σ

namespace Space

/-- Nothing is mapped. -/
def new (os : σ) : Space σ := ⟨.empty, fun _ => false, os⟩

/-- The page of an address, and what it is mapped to. -/
noncomputable def find (s : Space σ) (v : VirtAddr) : Option (Page PageSize × Mapping) :=
  s.pages.lookup v.toNat

/-- A page is mapped to something else. -/
noncomputable def assign (s : Space σ) (page : Page PageSize) (x : Mapping) : Space σ :=
  { s with pages := s.pages.assign page x }

/-- A page is not mapped any more. -/
def erase (s : Space σ) (page : Page PageSize) : Space σ :=
  { s with pages := s.pages.erase page }

/-- The section of an address gets a second level table. -/
def link (s : Space σ) (v : VirtAddr) (os : σ) : Space σ :=
  { s with linked := Function.update s.linked (p1Index v) true, os := os }

/-! ### Methods -/

noncomputable def query (v : VirtAddr) : Op (Space σ) (PhysAddr × MappingFlags 32 × PageSize) :=
  fun s => match s.find v with
    | some (page, x) =>
      (.ok (paddr (x.entry page.size) + page.size.alignOffset v, flags (x.entry page.size),
        page.size), s)
    | none => (.err .notMapped, s)

/-- A small page needs a table, which cannot be where a section is; a section needs that there is
none. -/
noncomputable def reserve (H : PagingHandler 32 σ) (v : VirtAddr) (size : PageSize) :
    Op (Space σ) Unit := fun s =>
  if size = .size1M then
    if s.linked (p1Index v) then (.err .alreadyMapped, s) else (.ok (), s)
  else if s.linked (p1Index v) then (.ok (), s)
  else if (s.find v).isSome then (.err .alreadyMapped, s)
  else match H.allocFrame s.os with
    | (some _, os) => (.ok (), s.link v os)
    | (none, os) => (.err .noMemory, { s with os := os })

open Classical in
/-- A page is mapped if no address of it is. -/
noncomputable def add (page : Page PageSize) (x : Mapping) : Op (Space σ) Unit := fun s =>
  if s.pages.Free page then (.ok (), s.assign page x) else (.err .alreadyMapped, s)

noncomputable def map (H : PagingHandler 32 σ) (v : VirtAddr) (target : PhysAddr)
    (size : PageSize) (f : MappingFlags 32) : Op (Space σ) Unit := do
  reserve H v size
  add (pageAt size v) ⟨MemoryAddr.alignDown target (size.toUsize 32), f⟩

theorem map_small (v : VirtAddr) (target : PhysAddr) (f : MappingFlags 32) (s : Space σ) :
    map H v target .size4K f s =
      let add := add (pageAt .size4K v)
        ⟨MemoryAddr.alignDown target (PageSize.size4K.toUsize 32), f⟩
      if s.linked (p1Index v) then add s
      else if (s.find v).isSome then (.err .alreadyMapped, s)
      else match H.allocFrame s.os with
        | (some _, os) => add (s.link v os)
        | (none, os) => (.err .noMemory, { s with os := os }) := by
  have hne : ¬ PageSize.size4K = .size1M := by decide
  rw [map, Op.bind_apply, reserve, if_neg hne]
  cases s.linked (p1Index v) with
  | true => rfl
  | false =>
    cases (s.find v).isSome with
    | true => rfl
    | false => rcases H.allocFrame s.os with ⟨_ | p, os⟩ <;> rfl

theorem map_section (v : VirtAddr) (target : PhysAddr) (f : MappingFlags 32) (s : Space σ) :
    map H v target .size1M f s =
      if s.linked (p1Index v) then (.err .alreadyMapped, s)
      else add (pageAt .size1M v)
        ⟨MemoryAddr.alignDown target (PageSize.size1M.toUsize 32), f⟩ s := by
  rw [map, Op.bind_apply, reserve, if_pos rfl]
  cases s.linked (p1Index v) <;> rfl

/-- A small page that is not mapped is mapped, if there is a table for it. -/
noncomputable def remap (v : VirtAddr) (target : PhysAddr) (f : MappingFlags 32) :
    Op (Space σ) PageSize := fun s =>
  match s.find v with
  | some (page, _) =>
    (.ok page.size, s.assign page ⟨MemoryAddr.alignDown target (page.size.toUsize 32), f⟩)
  | none =>
    if s.linked (p1Index v) then
      (.ok .size4K, s.assign (pageAt .size4K v)
        ⟨MemoryAddr.alignDown target (PageSize.size4K.toUsize 32), f⟩)
    else (.err .notMapped, s)

/-- The mapping of a page that is given flags. -/
def reflag (page : Page PageSize) (x : Mapping) (f : MappingFlags 32) : Mapping :=
  ⟨MemoryAddr.alignDown (paddr (x.entry page.size)) (page.size.toUsize 32), f⟩

noncomputable def protect (v : VirtAddr) (f : MappingFlags 32) : Op (Space σ) PageSize := fun s =>
  match s.find v with
  | some (page, x) => (.ok page.size, s.assign page (reflag page x f))
  | none => (.err .notMapped, s)

noncomputable def unmap (v : VirtAddr) : Op (Space σ) (PhysAddr × MappingFlags 32 × PageSize) :=
  fun s => match s.find v with
    | some (page, x) =>
      (.ok (paddr (x.entry page.size), flags (x.entry page.size), page.size), s.erase page)
    | none => (.err .notMapped, s)

/-! ### Region methods -/

noncomputable def mapRegionStep (H : PagingHandler 32 σ) (getPaddr : VirtAddr → PhysAddr)
    (f : MappingFlags 32) (allowHuge : Bool) (v : VirtAddr) (size : Usize) :
    Op (Space σ) PageSize := do
  let pageSize := PageTable32.regionPageSize v (getPaddr v) size allowHuge
  map H v (getPaddr v) pageSize f
  return pageSize

noncomputable def mapRegion (B : Build) (H : PagingHandler 32 σ) (v : VirtAddr)
    (getPaddr : VirtAddr → PhysAddr) (size : Usize) (f : MappingFlags 32) (allowHuge : Bool) :
    Op (Space σ) Unit :=
  if !PageSize.size4K.isAligned v || !PageSize.size4K.isAligned size then Op.throw .notAligned
  else regionLoop B (mapRegionStep H getPaddr f allowHuge) (regionFuel size) v size

noncomputable def unmapRegionStep (v : VirtAddr) (size : Usize) : Op (Space σ) PageSize := do
  let (_, _, pageSize) ← unmap v
  assertStep pageSize v size

noncomputable def unmapRegion (B : Build) (v : VirtAddr) (size : Usize) : Op (Space σ) Unit :=
  regionLoop B unmapRegionStep (regionFuel size) v size

/-- A page that is not mapped is passed over as a small page. -/
noncomputable def protectRegionStep (f : MappingFlags 32) (v : VirtAddr) (size : Usize) :
    Op (Space σ) PageSize := fun s =>
  match s.find v with
  | some (page, x) => assertStep page.size v size (s.assign page (reflag page x f))
  | none => assertStep .size4K v size s

noncomputable def protectRegion (B : Build) (v : VirtAddr) (size : Usize) (f : MappingFlags 32) :
    Op (Space σ) Unit :=
  regionLoop B (protectRegionStep f) (regionFuel size) v size

end Space

end PageTableMultiarch.Bits32
