/-
LoongArch64 page table entries (`page_table_entry/src/arch/loongarch64.rs`).

A table entry is a bare address: it has no flag bits at all.
-/
import PageTableMultiarch.Entry.Lawful

namespace PageTableMultiarch

open GenericPTE

namespace LaFlags

def V : BitVec 64 := 1 <<< 0
def D : BitVec 64 := 1 <<< 1
def PLVL : BitVec 64 := 1 <<< 2
def PLVH : BitVec 64 := 1 <<< 3
def MATL : BitVec 64 := 1 <<< 4
def MATH : BitVec 64 := 1 <<< 5
def GH : BitVec 64 := 1 <<< 6
def P : BitVec 64 := 1 <<< 7
def W : BitVec 64 := 1 <<< 8
def NR : BitVec 64 := 1 <<< 61
def NX : BitVec 64 := 1 <<< 62

/-- All bits that `PTEFlags` names: 0 to 8, 12, and 61 to 63. -/
def all : BitVec 64 := 0xe0000000000011ff

def fromBitsTruncate (bits : BitVec 64) : BitVec 64 := bits &&& all

/-- `impl From<PTEFlags> for MappingFlags`. -/
def toMappingFlags (f : BitVec 64) : MappingFlags 64 :=
  if !hasBits f V then .empty
  else .when (!hasBits f NR) .READ
    ||| .when (hasBits f W) .WRITE
    ||| .when (!hasBits f NX) .EXECUTE
    ||| .when (hasBits f (PLVL ||| PLVH)) .USER
    ||| (if !hasBits f MATL then if hasBits f MATH then .UNCACHED else .DEVICE else .empty)

/-- `impl From<MappingFlags> for PTEFlags`. -/
def ofMappingFlags (f : MappingFlags 64) : BitVec 64 :=
  if f.isEmpty then 0
  else (V ||| P)
    ||| when (!f.contains .READ) NR
    ||| when (f.contains .WRITE) (W ||| D)
    ||| when (!f.contains .EXECUTE) NX
    ||| when (f.contains .USER) (PLVH ||| PLVL)
    ||| when (!f.contains .DEVICE) (if f.contains .UNCACHED then MATH else MATL)

end LaFlags

/-- page table entry for loongarch64 system -/
structure LA64PTE where
  bits : BitVec 64
  deriving DecidableEq

namespace LA64PTE

/-- Bits 12 to 47. -/
def PHYS_ADDR_MASK : BitVec 64 := 0x0000fffffffff000

/-- The flag bits of a page entry. -/
def pageBits (f : MappingFlags 64) (isHuge : Bool) : BitVec 64 :=
  LaFlags.ofMappingFlags f ||| when isHuge LaFlags.GH

instance : GenericPTE 64 LA64PTE where
  newPage paddr f isHuge := ⟨pageBits f isHuge ||| (paddr &&& PHYS_ADDR_MASK)⟩
  newTable paddr := ⟨paddr &&& PHYS_ADDR_MASK⟩
  paddr e := e.bits &&& PHYS_ADDR_MASK
  flags e := LaFlags.toMappingFlags (LaFlags.fromBitsTruncate e.bits)
  setPaddr e paddr := ⟨(e.bits &&& ~~~PHYS_ADDR_MASK) ||| (paddr &&& PHYS_ADDR_MASK)⟩
  setFlags e f isHuge := ⟨(e.bits &&& PHYS_ADDR_MASK) ||| pageBits f isHuge⟩
  isUnused e := e.bits == 0
  isPresent e := hasBits (LaFlags.fromBitsTruncate e.bits) LaFlags.P
  isHuge e := hasBits (LaFlags.fromBitsTruncate e.bits) LaFlags.GH
  clear _ := ⟨0⟩
  empty := ⟨0⟩
  debugAssert _ := true

/-! ### The laws -/

theorem pageBits_and_mask (f : MappingFlags 64) (h : Bool) :
    pageBits f h &&& PHYS_ADDR_MASK = 0 := by
  simp only [pageBits, LaFlags.ofMappingFlags]
  generalize f.isEmpty = z, f.contains .READ = r, f.contains .WRITE = w,
    f.contains .EXECUTE = x, f.contains .USER = u, f.contains .DEVICE = d,
    f.contains .UNCACHED = n
  revert z r w x u d n h
  decide

/-- The flags of an entry: no `UNCACHED` beside `DEVICE`. -/
def normalForm (f : MappingFlags 64) : MappingFlags 64 :=
  if f.isEmpty then .empty
  else .when (f.contains .READ) .READ
    ||| .when (f.contains .WRITE) .WRITE
    ||| .when (f.contains .EXECUTE) .EXECUTE
    ||| .when (f.contains .USER) .USER
    ||| .when (f.contains .DEVICE) .DEVICE
    ||| .when (f.contains .UNCACHED && !f.contains .DEVICE) .UNCACHED

theorem toMappingFlags_pageBits (f : MappingFlags 64) (h : Bool) :
    LaFlags.toMappingFlags (pageBits f h) = normalForm f := by
  simp only [pageBits, LaFlags.ofMappingFlags, normalForm]
  generalize f.isEmpty = z, f.contains .READ = r, f.contains .WRITE = w,
    f.contains .EXECUTE = x, f.contains .USER = u, f.contains .DEVICE = d,
    f.contains .UNCACHED = n
  revert z r w x u d n h
  decide

theorem hasBits_present (f : MappingFlags 64) (h : Bool) :
    hasBits (pageBits f h) LaFlags.P = !f.isEmpty := by
  simp only [pageBits, LaFlags.ofMappingFlags]
  generalize f.isEmpty = z, f.contains .READ = r, f.contains .WRITE = w,
    f.contains .EXECUTE = x, f.contains .USER = u, f.contains .DEVICE = d,
    f.contains .UNCACHED = n
  revert z r w x u d n h
  decide

theorem hasBits_huge (f : MappingFlags 64) : hasBits (pageBits f true) LaFlags.GH = true := by
  simp only [pageBits, LaFlags.ofMappingFlags]
  generalize f.isEmpty = z, f.contains .READ = r, f.contains .WRITE = w,
    f.contains .EXECUTE = x, f.contains .USER = u, f.contains .DEVICE = d,
    f.contains .UNCACHED = n
  revert z r w x u d n
  decide

theorem hasBits_entry {c : BitVec 64} (hm : PHYS_ADDR_MASK &&& c = 0)
    (hall : LaFlags.all &&& c = c) (x : BitVec 64) (f : MappingFlags 64) (h : Bool) :
    hasBits (LaFlags.fromBitsTruncate (pageBits f h ||| (x &&& PHYS_ADDR_MASK))) c
      = hasBits (pageBits f h) c :=
  hasBits_field (pageBits_and_mask f h) hm hall x

theorem toMappingFlags_entry (x : BitVec 64) (f : MappingFlags 64) (h : Bool) :
    LaFlags.toMappingFlags (LaFlags.fromBitsTruncate (pageBits f h ||| (x &&& PHYS_ADDR_MASK)))
      = normalForm f := by
  rw [← toMappingFlags_pageBits f h]
  simp only [LaFlags.toMappingFlags]
  rw [hasBits_entry (by decide) (by decide), hasBits_entry (by decide) (by decide),
    hasBits_entry (by decide) (by decide), hasBits_entry (by decide) (by decide),
    hasBits_entry (by decide) (by decide), hasBits_entry (by decide) (by decide),
    hasBits_entry (by decide) (by decide)]

theorem normalise_eq (f : MappingFlags 64) : normalise LA64PTE f = normalForm f :=
  toMappingFlags_entry 0 f false

theorem presentWith_eq (f : MappingFlags 64) : presentWith LA64PTE f = !f.isEmpty :=
  (hasBits_entry (by decide) (by decide) 0 f false).trans (hasBits_present f false)

/-- A table entry has no flag bit. -/
theorem hasBits_newTable {c : BitVec 64} (hm : PHYS_ADDR_MASK &&& c = 0)
    (hall : LaFlags.all &&& c = c) (p : BitVec 64) :
    hasBits (LaFlags.fromBitsTruncate (p &&& PHYS_ADDR_MASK)) c = hasBits 0 c := by
  have hzero : (0 : BitVec 64) ||| (p &&& PHYS_ADDR_MASK) = p &&& PHYS_ADDR_MASK := by simp
  have := hasBits_field (a := 0) (by simp) hm hall p
  rwa [hzero] at this

/-- A table entry is not present. -/
theorem isPresent_newTable (p : BitVec 64) : isPresent (newTable p : LA64PTE) = false :=
  (hasBits_newTable (by decide) (by decide) p).trans (by decide)

end LA64PTE

/-- Metadata of LoongArch64 page tables. -/
def LA64MetaData : PagingMetaData := ⟨4, 48, 48⟩

open LA64PTE in
instance : LawfulPTE LA64MetaData LA64PTE where
  levels := Or.inr rfl
  pa_bits := by decide
  isUnused_iff e := by cases e; simp [isUnused, empty]
  clear_eq _ := rfl
  paddr_empty := by decide
  isPresent_empty := by decide
  paddr_newTable {p} hp := by
    show (p &&& PHYS_ADDR_MASK) &&& PHYS_ADDR_MASK = _
    rw [BitVec.and_assoc, BitVec.and_self, hp.and_mask (by decide) (by decide)]
  isHuge_newTable p := (hasBits_newTable (by decide) (by decide) p).trans (by decide)
  isHuge_newPage p f _ := (hasBits_entry (by decide) (by decide) p f true).trans (hasBits_huge f)
  isHuge_setFlags e f _ := by
    show hasBits (LaFlags.fromBitsTruncate ((e.bits &&& PHYS_ADDR_MASK) ||| pageBits f true)) _ =
      true
    rw [BitVec.or_comm, hasBits_entry (by decide) (by decide), hasBits_huge]
  isHuge_setPaddr e p := by
    show hasBits (LaFlags.fromBitsTruncate
      ((e.bits &&& ~~~PHYS_ADDR_MASK) ||| (p &&& PHYS_ADDR_MASK))) _ = _
    rw [hasBits, LaFlags.fromBitsTruncate, and_set_field (by decide) (by decide)]
    rfl
  paddr_le e := toNat_and_mask_le (n := 48) (by decide) e.bits
  paddr_newPage f h hp := by
    show (_ ||| (_ &&& PHYS_ADDR_MASK)) &&& PHYS_ADDR_MASK = _
    rw [Mask.or_and (pageBits_and_mask f h),
      and_mask_eq_alignDown (n := 48) (by decide) (by decide) hp]
  paddr_setPaddr e p hp := by
    show ((e.bits &&& ~~~PHYS_ADDR_MASK) ||| (p &&& PHYS_ADDR_MASK)) &&& PHYS_ADDR_MASK = _
    rw [Mask.or_and (Mask.and_not_and _ _),
      and_mask_eq_alignDown (n := 48) (by decide) (by decide) hp]
  paddr_setFlags e f h := by
    show ((e.bits &&& PHYS_ADDR_MASK) ||| pageBits f h) &&& PHYS_ADDR_MASK = _
    rw [BitVec.or_comm, Mask.or_and (pageBits_and_mask f h)]
    rfl
  flags_newPage p f h := (toMappingFlags_entry p f h).trans (normalise_eq f).symm
  flags_setFlags e f h := by
    show LaFlags.toMappingFlags
      (LaFlags.fromBitsTruncate ((e.bits &&& PHYS_ADDR_MASK) ||| pageBits f h)) = _
    rw [BitVec.or_comm, toMappingFlags_entry, normalise_eq]
  isPresent_newPage p f h := by
    rw [presentWith_eq]
    exact (hasBits_entry (by decide) (by decide) p f h).trans (hasBits_present f h)
  isPresent_setFlags e f h := by
    show hasBits (LaFlags.fromBitsTruncate ((e.bits &&& PHYS_ADDR_MASK) ||| pageBits f h)) _ = _
    rw [presentWith_eq, BitVec.or_comm, hasBits_entry (by decide) (by decide), hasBits_present]
  read_accepted _ := rfl
  presentWith_read hf := by
    rw [presentWith_eq, MappingFlags.isEmpty_of_contains_read hf]
    rfl

end PageTableMultiarch
