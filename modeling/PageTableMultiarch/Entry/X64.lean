/-
x86_64 page table entries (`page_table_entry/src/arch/x86_64.rs`).
-/
import PageTableMultiarch.Entry.Lawful

namespace PageTableMultiarch

open GenericPTE

/-! ### `PageTableFlags` and its conversions -/

namespace PTF

def PRESENT : BitVec 64 := 1 <<< 0
def WRITABLE : BitVec 64 := 1 <<< 1
def USER_ACCESSIBLE : BitVec 64 := 1 <<< 2
def WRITE_THROUGH : BitVec 64 := 1 <<< 3
def NO_CACHE : BitVec 64 := 1 <<< 4
def HUGE_PAGE : BitVec 64 := 1 <<< 7
def NO_EXECUTE : BitVec 64 := 1 <<< 63

/-- All bits that `PageTableFlags` names: 0 to 11 and 52 to 63. -/
def all : BitVec 64 := 0xfff0000000000fff

def fromBitsTruncate (bits : BitVec 64) : BitVec 64 := bits &&& all

/-- `impl From<PTF> for MappingFlags`. -/
def toMappingFlags (f : BitVec 64) : MappingFlags 64 :=
  if !hasBits f PRESENT then .empty
  else .READ
    ||| .when (hasBits f WRITABLE) .WRITE
    ||| .when (!hasBits f NO_EXECUTE) .EXECUTE
    ||| .when (hasBits f USER_ACCESSIBLE) .USER
    ||| .when (hasBits f NO_CACHE) .UNCACHED

/-- `impl From<MappingFlags> for PTF`. -/
def ofMappingFlags (f : MappingFlags 64) : BitVec 64 :=
  if f.isEmpty then 0
  else PRESENT
    ||| when (f.contains .WRITE) WRITABLE
    ||| when (!f.contains .EXECUTE) NO_EXECUTE
    ||| when (f.contains .USER) USER_ACCESSIBLE
    ||| when (f.contains .DEVICE || f.contains .UNCACHED) (NO_CACHE ||| WRITE_THROUGH)

end PTF

/-- An x86_64 page table entry. -/
structure X64PTE where
  bits : BitVec 64
  deriving DecidableEq

namespace X64PTE

/-- Bits 12 to 51. -/
def PHYS_ADDR_MASK : BitVec 64 := 0x000ffffffffff000

/-- The flag bits of a page entry. -/
def pageBits (f : MappingFlags 64) (isHuge : Bool) : BitVec 64 :=
  PTF.ofMappingFlags f ||| when isHuge PTF.HUGE_PAGE

instance : GenericPTE 64 X64PTE where
  newPage paddr f isHuge := ⟨pageBits f isHuge ||| (paddr &&& PHYS_ADDR_MASK)⟩
  newTable paddr :=
    ⟨(PTF.PRESENT ||| PTF.WRITABLE ||| PTF.USER_ACCESSIBLE) ||| (paddr &&& PHYS_ADDR_MASK)⟩
  paddr e := e.bits &&& PHYS_ADDR_MASK
  flags e := PTF.toMappingFlags (PTF.fromBitsTruncate e.bits)
  setPaddr e paddr := ⟨(e.bits &&& ~~~PHYS_ADDR_MASK) ||| (paddr &&& PHYS_ADDR_MASK)⟩
  setFlags e f isHuge := ⟨(e.bits &&& PHYS_ADDR_MASK) ||| pageBits f isHuge⟩
  isUnused e := e.bits == 0
  isPresent e := hasBits (PTF.fromBitsTruncate e.bits) PTF.PRESENT
  isHuge e := hasBits (PTF.fromBitsTruncate e.bits) PTF.HUGE_PAGE
  clear _ := ⟨0⟩
  empty := ⟨0⟩
  debugAssert _ := true

/-! ### The laws -/

theorem pageBits_and_mask (f : MappingFlags 64) (h : Bool) :
    pageBits f h &&& PHYS_ADDR_MASK = 0 := by
  simp only [pageBits, PTF.ofMappingFlags]
  generalize f.isEmpty = z, f.contains .WRITE = w, f.contains .EXECUTE = x,
    f.contains .USER = u, f.contains .DEVICE = d, f.contains .UNCACHED = n
  revert z w x u d n h
  decide

/-- The flags of a page entry: `DEVICE` is read back as `UNCACHED`, and every
non-empty set of flags is readable. -/
def normalForm (f : MappingFlags 64) : MappingFlags 64 :=
  if f.isEmpty then .empty
  else .READ
    ||| .when (f.contains .WRITE) .WRITE
    ||| .when (f.contains .EXECUTE) .EXECUTE
    ||| .when (f.contains .USER) .USER
    ||| .when (f.contains .DEVICE || f.contains .UNCACHED) .UNCACHED

theorem toMappingFlags_pageBits (f : MappingFlags 64) (h : Bool) :
    PTF.toMappingFlags (pageBits f h) = normalForm f := by
  simp only [pageBits, PTF.ofMappingFlags, normalForm]
  generalize f.isEmpty = z, f.contains .WRITE = w, f.contains .EXECUTE = x,
    f.contains .USER = u, f.contains .DEVICE = d, f.contains .UNCACHED = n
  revert z w x u d n h
  decide

theorem hasBits_present (f : MappingFlags 64) (h : Bool) :
    hasBits (pageBits f h) PTF.PRESENT = !f.isEmpty := by
  simp only [pageBits, PTF.ofMappingFlags]
  generalize f.isEmpty = z, f.contains .WRITE = w, f.contains .EXECUTE = x,
    f.contains .USER = u, f.contains .DEVICE = d, f.contains .UNCACHED = n
  revert z w x u d n h
  decide

theorem hasBits_huge (f : MappingFlags 64) : hasBits (pageBits f true) PTF.HUGE_PAGE = true := by
  simp only [pageBits, PTF.ofMappingFlags]
  generalize f.isEmpty = z, f.contains .WRITE = w, f.contains .EXECUTE = x,
    f.contains .USER = u, f.contains .DEVICE = d, f.contains .UNCACHED = n
  revert z w x u d n
  decide

/-- The entry with the given flags whose address field is that of `x`. -/
theorem hasBits_entry {c : BitVec 64} (hm : PHYS_ADDR_MASK &&& c = 0) (hall : PTF.all &&& c = c)
    (x : BitVec 64) (f : MappingFlags 64) (h : Bool) :
    hasBits (PTF.fromBitsTruncate (pageBits f h ||| (x &&& PHYS_ADDR_MASK))) c
      = hasBits (pageBits f h) c :=
  hasBits_field (pageBits_and_mask f h) hm hall x

theorem toMappingFlags_entry (x : BitVec 64) (f : MappingFlags 64) (h : Bool) :
    PTF.toMappingFlags (PTF.fromBitsTruncate (pageBits f h ||| (x &&& PHYS_ADDR_MASK)))
      = normalForm f := by
  rw [← toMappingFlags_pageBits f h]
  simp only [PTF.toMappingFlags]
  rw [hasBits_entry (by decide) (by decide), hasBits_entry (by decide) (by decide),
    hasBits_entry (by decide) (by decide), hasBits_entry (by decide) (by decide),
    hasBits_entry (by decide) (by decide)]

theorem normalise_eq (f : MappingFlags 64) : normalise X64PTE f = normalForm f :=
  toMappingFlags_entry 0 f false

theorem presentWith_eq (f : MappingFlags 64) : presentWith X64PTE f = !f.isEmpty :=
  (hasBits_entry (by decide) (by decide) 0 f false).trans (hasBits_present f false)

/-- A table entry is present. -/
theorem isPresent_newTable (p : BitVec 64) : isPresent (newTable p : X64PTE) = true :=
  (hasBits_field (by decide) (by decide) (by decide) p).trans (by decide)

end X64PTE

/-- Metadata of x86_64 page tables. -/
def X64PagingMetaData : PagingMetaData := ⟨4, 52, 48⟩

open X64PTE in
instance : LawfulPTE X64PagingMetaData X64PTE where
  levels := Or.inr rfl
  pa_bits := by decide
  isUnused_iff e := by cases e; simp [isUnused, empty]
  clear_eq _ := rfl
  paddr_empty := by decide
  isPresent_empty := by decide
  paddr_newTable hp := by
    show (_ ||| (_ &&& PHYS_ADDR_MASK)) &&& PHYS_ADDR_MASK = _
    rw [Mask.or_and (by decide), hp.and_mask (by decide) (by decide)]
  isHuge_newTable p := (hasBits_field (by decide) (by decide) (by decide) p).trans (by decide)
  isHuge_newPage p f _ := (hasBits_entry (by decide) (by decide) p f true).trans (hasBits_huge f)
  isHuge_setFlags e f _ := by
    show hasBits (PTF.fromBitsTruncate ((e.bits &&& PHYS_ADDR_MASK) ||| pageBits f true)) _ = true
    rw [BitVec.or_comm, hasBits_entry (by decide) (by decide), hasBits_huge]
  isHuge_setPaddr e p := by
    show hasBits (PTF.fromBitsTruncate
      ((e.bits &&& ~~~PHYS_ADDR_MASK) ||| (p &&& PHYS_ADDR_MASK))) _ = _
    rw [hasBits, PTF.fromBitsTruncate, and_set_field (by decide) (by decide)]
    rfl
  paddr_le e := toNat_and_mask_le (n := 52) (by decide) e.bits
  paddr_newPage f h hp := by
    show (_ ||| (_ &&& PHYS_ADDR_MASK)) &&& PHYS_ADDR_MASK = _
    rw [Mask.or_and (pageBits_and_mask f h),
      and_mask_eq_alignDown (n := 52) (by decide) (by decide) hp]
  paddr_setPaddr e p hp := by
    show ((e.bits &&& ~~~PHYS_ADDR_MASK) ||| (p &&& PHYS_ADDR_MASK)) &&& PHYS_ADDR_MASK = _
    rw [Mask.or_and (Mask.and_not_and _ _),
      and_mask_eq_alignDown (n := 52) (by decide) (by decide) hp]
  paddr_setFlags e f h := by
    show ((e.bits &&& PHYS_ADDR_MASK) ||| pageBits f h) &&& PHYS_ADDR_MASK = _
    rw [BitVec.or_comm, Mask.or_and (pageBits_and_mask f h)]
    rfl
  flags_newPage p f h := (toMappingFlags_entry p f h).trans (normalise_eq f).symm
  flags_setFlags e f h := by
    show PTF.toMappingFlags (PTF.fromBitsTruncate ((e.bits &&& PHYS_ADDR_MASK) ||| pageBits f h)) =
      _
    rw [BitVec.or_comm, toMappingFlags_entry, normalise_eq]
  isPresent_newPage p f h := by
    rw [presentWith_eq]
    exact (hasBits_entry (by decide) (by decide) p f h).trans (hasBits_present f h)
  isPresent_setFlags e f h := by
    show hasBits (PTF.fromBitsTruncate ((e.bits &&& PHYS_ADDR_MASK) ||| pageBits f h)) _ = _
    rw [presentWith_eq, BitVec.or_comm, hasBits_entry (by decide) (by decide), hasBits_present]
  read_accepted _ := rfl
  presentWith_read hf := by
    rw [presentWith_eq, MappingFlags.isEmpty_of_contains_read hf]
    rfl

end PageTableMultiarch
