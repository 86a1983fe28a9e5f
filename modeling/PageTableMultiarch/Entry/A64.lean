/-
AArch64 VMSAv8-64 translation table descriptors
(`page_table_entry/src/arch/aarch64.rs`).

The parameter `armEl2` is the cargo feature `arm-el2`.
-/
import PageTableMultiarch.Entry.Lawful

namespace PageTableMultiarch

open GenericPTE

/-- The memory attributes index of a descriptor. -/
inductive MemAttr where
  | device
  | normal
  | normalNonCacheable
  deriving DecidableEq

namespace A64Attr

def VALID : BitVec 64 := 1 <<< 0
def NON_BLOCK : BitVec 64 := 1 <<< 1
def AP_EL0 : BitVec 64 := 1 <<< 6
def AP_RO : BitVec 64 := 1 <<< 7
def INNER : BitVec 64 := 1 <<< 8
def SHAREABLE : BitVec 64 := 1 <<< 9
def AF : BitVec 64 := 1 <<< 10
def PXN : BitVec 64 := 1 <<< 53
def UXN : BitVec 64 := 1 <<< 54
def ATTR_INDEX_MASK : BitVec 64 := 0b11100

/-- All bits that `DescriptorAttr` names: 0 to 11, 52 to 54 and 59 to 63. -/
def all : BitVec 64 := 0xf870000000000fff

def fromBitsTruncate (bits : BitVec 64) : BitVec 64 := bits &&& all

/-- `MemAttr as u64`. -/
def index : MemAttr → BitVec 64
  | .device => 0
  | .normal => 1
  | .normalNonCacheable => 2

/-- Constructs a descriptor from the memory index, leaving the other fields empty. -/
def fromMemAttr (idx : MemAttr) : BitVec 64 :=
  (index idx <<< 2)
    ||| when (idx == .normal || idx == .normalNonCacheable) (INNER ||| SHAREABLE)

/-- Returns the memory attribute index field. -/
def memAttr (attr : BitVec 64) : Option MemAttr :=
  match ((attr &&& ATTR_INDEX_MASK) >>> 2).toNat with
  | 0 => some .device
  | 1 => some .normal
  | 2 => some .normalNonCacheable
  | _ => none

/-- `impl From<DescriptorAttr> for MappingFlags`. -/
def toMappingFlags (armEl2 : Bool) (attr : BitVec 64) : MappingFlags 64 :=
  if !hasBits attr VALID then .empty
  else .READ
    ||| .when (!hasBits attr AP_RO) .WRITE
    ||| (if armEl2 then .when (!meetsBits attr UXN) .EXECUTE
      else if hasBits attr AP_EL0 then .USER ||| .when (!hasBits attr UXN) .EXECUTE
      else .when (!meetsBits attr PXN) .EXECUTE)
    ||| (match memAttr attr with
      | some .device => .DEVICE
      | some .normalNonCacheable => .UNCACHED
      | _ => .empty)

/-- `impl From<MappingFlags> for DescriptorAttr`. -/
def ofMappingFlags (armEl2 : Bool) (f : MappingFlags 64) : BitVec 64 :=
  if f.isEmpty then 0
  else (if f.contains .DEVICE then fromMemAttr .device
      else if f.contains .UNCACHED then fromMemAttr .normalNonCacheable
      else fromMemAttr .normal)
    ||| when (f.contains .READ) VALID
    ||| when (!f.contains .WRITE) AP_RO
    ||| (if armEl2 then when (!f.contains .EXECUTE) UXN
      else if f.contains .USER then (AP_EL0 ||| PXN) ||| when (!f.contains .EXECUTE) UXN
      else UXN ||| when (!f.contains .EXECUTE) PXN)

end A64Attr

/-- A VMSAv8-64 translation table descriptor. -/
structure A64PTE (armEl2 : Bool) where
  bits : BitVec 64
  deriving DecidableEq

namespace A64PTE

variable {armEl2 : Bool}

/-- Bits 12 to 47. -/
def PHYS_ADDR_MASK : BitVec 64 := 0x0000fffffffff000

/-- The attribute bits of a page or block descriptor. -/
def pageBits (armEl2 : Bool) (f : MappingFlags 64) (isHuge : Bool) : BitVec 64 :=
  A64Attr.ofMappingFlags armEl2 f ||| A64Attr.AF ||| when (!isHuge) A64Attr.NON_BLOCK

instance : GenericPTE 64 (A64PTE armEl2) where
  newPage paddr f isHuge := ⟨pageBits armEl2 f isHuge ||| (paddr &&& PHYS_ADDR_MASK)⟩
  newTable paddr := ⟨(A64Attr.NON_BLOCK ||| A64Attr.VALID) ||| (paddr &&& PHYS_ADDR_MASK)⟩
  paddr e := e.bits &&& PHYS_ADDR_MASK
  flags e := A64Attr.toMappingFlags armEl2 (A64Attr.fromBitsTruncate e.bits)
  setPaddr e paddr := ⟨(e.bits &&& ~~~PHYS_ADDR_MASK) ||| (paddr &&& PHYS_ADDR_MASK)⟩
  setFlags e f isHuge := ⟨(e.bits &&& PHYS_ADDR_MASK) ||| pageBits armEl2 f isHuge⟩
  isUnused e := e.bits == 0
  isPresent e := hasBits (A64Attr.fromBitsTruncate e.bits) A64Attr.VALID
  isHuge e := !hasBits (A64Attr.fromBitsTruncate e.bits) A64Attr.NON_BLOCK
  clear _ := ⟨0⟩
  empty := ⟨0⟩
  debugAssert _ := true

/-! ### The laws -/

theorem pageBits_and_mask (f : MappingFlags 64) (h : Bool) :
    pageBits armEl2 f h &&& PHYS_ADDR_MASK = 0 := by
  simp only [pageBits, A64Attr.ofMappingFlags]
  generalize f.isEmpty = z, f.contains .READ = r, f.contains .WRITE = w,
    f.contains .EXECUTE = x, f.contains .USER = u, f.contains .DEVICE = d,
    f.contains .UNCACHED = n
  revert armEl2 z r w x u d n h
  decide

/-- The flags of a descriptor: nothing without `READ`, no `UNCACHED` beside
`DEVICE`, and at EL2 no `USER`. -/
def normalForm (armEl2 : Bool) (f : MappingFlags 64) : MappingFlags 64 :=
  if f.isEmpty || !f.contains .READ then .empty
  else .READ
    ||| .when (f.contains .WRITE) .WRITE
    ||| .when (f.contains .EXECUTE) .EXECUTE
    ||| .when (f.contains .USER && !armEl2) .USER
    ||| .when (f.contains .DEVICE) .DEVICE
    ||| .when (f.contains .UNCACHED && !f.contains .DEVICE) .UNCACHED

theorem toMappingFlags_pageBits (f : MappingFlags 64) (h : Bool) :
    A64Attr.toMappingFlags armEl2 (pageBits armEl2 f h) = normalForm armEl2 f := by
  simp only [pageBits, A64Attr.ofMappingFlags, normalForm]
  generalize f.isEmpty = z, f.contains .READ = r, f.contains .WRITE = w,
    f.contains .EXECUTE = x, f.contains .USER = u, f.contains .DEVICE = d,
    f.contains .UNCACHED = n
  revert armEl2 z r w x u d n h
  decide

theorem hasBits_valid (f : MappingFlags 64) (h : Bool) :
    hasBits (pageBits armEl2 f h) A64Attr.VALID = (!f.isEmpty && f.contains .READ) := by
  simp only [pageBits, A64Attr.ofMappingFlags]
  generalize f.isEmpty = z, f.contains .READ = r, f.contains .WRITE = w,
    f.contains .EXECUTE = x, f.contains .USER = u, f.contains .DEVICE = d,
    f.contains .UNCACHED = n
  revert armEl2 z r w x u d n h
  decide

theorem hasBits_nonBlock (f : MappingFlags 64) (h : Bool) :
    hasBits (pageBits armEl2 f h) A64Attr.NON_BLOCK = !h := by
  simp only [pageBits, A64Attr.ofMappingFlags]
  generalize f.isEmpty = z, f.contains .READ = r, f.contains .WRITE = w,
    f.contains .EXECUTE = x, f.contains .USER = u, f.contains .DEVICE = d,
    f.contains .UNCACHED = n
  revert armEl2 z r w x u d n h
  decide

theorem hasBits_entry {c : BitVec 64} (hm : PHYS_ADDR_MASK &&& c = 0)
    (hall : A64Attr.all &&& c = c) (x : BitVec 64) (f : MappingFlags 64) (h : Bool) :
    hasBits (A64Attr.fromBitsTruncate (pageBits armEl2 f h ||| (x &&& PHYS_ADDR_MASK))) c
      = hasBits (pageBits armEl2 f h) c :=
  hasBits_field (pageBits_and_mask f h) hm hall x

theorem meetsBits_entry {c : BitVec 64} (hm : PHYS_ADDR_MASK &&& c = 0)
    (hall : A64Attr.all &&& c = c) (x : BitVec 64) (f : MappingFlags 64) (h : Bool) :
    meetsBits (A64Attr.fromBitsTruncate (pageBits armEl2 f h ||| (x &&& PHYS_ADDR_MASK))) c
      = meetsBits (pageBits armEl2 f h) c :=
  meetsBits_field (pageBits_and_mask f h) hm hall x

theorem memAttr_entry (x : BitVec 64) (f : MappingFlags 64) (h : Bool) :
    A64Attr.memAttr (A64Attr.fromBitsTruncate (pageBits armEl2 f h ||| (x &&& PHYS_ADDR_MASK)))
      = A64Attr.memAttr (pageBits armEl2 f h) := by
  rw [A64Attr.memAttr, A64Attr.fromBitsTruncate,
    and_field (pageBits_and_mask f h) (by decide) (by decide), ← A64Attr.memAttr]

theorem toMappingFlags_entry (x : BitVec 64) (f : MappingFlags 64) (h : Bool) :
    A64Attr.toMappingFlags armEl2
        (A64Attr.fromBitsTruncate (pageBits armEl2 f h ||| (x &&& PHYS_ADDR_MASK)))
      = normalForm armEl2 f := by
  rw [← toMappingFlags_pageBits f h]
  simp only [A64Attr.toMappingFlags]
  rw [hasBits_entry (by decide) (by decide), hasBits_entry (by decide) (by decide),
    hasBits_entry (by decide) (by decide), hasBits_entry (by decide) (by decide),
    meetsBits_entry (by decide) (by decide), meetsBits_entry (by decide) (by decide),
    memAttr_entry]

theorem normalise_eq (f : MappingFlags 64) : normalise (A64PTE armEl2) f = normalForm armEl2 f :=
  toMappingFlags_entry 0 f false

theorem presentWith_eq (f : MappingFlags 64) :
    presentWith (A64PTE armEl2) f = (!f.isEmpty && f.contains .READ) :=
  (hasBits_entry (by decide) (by decide) 0 f false).trans (hasBits_valid f false)

/-- An all-zero descriptor is reported as huge. -/
theorem isHuge_empty : isHuge (empty : A64PTE armEl2) = true := by
  revert armEl2
  decide

theorem isPresent_empty : isPresent (empty : A64PTE armEl2) = false := by
  revert armEl2
  decide

theorem hasBits_af (f : MappingFlags 64) (h : Bool) :
    hasBits (pageBits armEl2 f h) A64Attr.AF = true := by
  simp only [pageBits, A64Attr.ofMappingFlags]
  generalize f.isEmpty = z, f.contains .READ = r, f.contains .WRITE = w,
    f.contains .EXECUTE = x, f.contains .USER = u, f.contains .DEVICE = d,
    f.contains .UNCACHED = n
  revert armEl2 z r w x u d n h
  decide

/-- A page entry has the access flag set, whatever its address and flags. -/
theorem ne_empty_of_pageBits (x : BitVec 64) (f : MappingFlags 64) (h : Bool) :
    (⟨pageBits armEl2 f h ||| (x &&& PHYS_ADDR_MASK)⟩ : A64PTE armEl2) ≠ empty := by
  intro hc
  have haf : hasBits (A64Attr.fromBitsTruncate (pageBits armEl2 f h ||| (x &&& PHYS_ADDR_MASK)))
      A64Attr.AF = true :=
    (hasBits_entry (by decide) (by decide) x f h).trans (hasBits_af f h)
  rw [show pageBits armEl2 f h ||| (x &&& PHYS_ADDR_MASK) = 0 from congrArg A64PTE.bits hc] at haf
  exact absurd haf (by decide)

theorem newPage_ne_empty (p : BitVec 64) (f : MappingFlags 64) (h : Bool) :
    (newPage p f h : A64PTE armEl2) ≠ empty :=
  ne_empty_of_pageBits p f h

theorem setFlags_ne_empty (e : A64PTE armEl2) (f : MappingFlags 64) (h : Bool) :
    setFlags e f h ≠ empty := by
  show (⟨(e.bits &&& PHYS_ADDR_MASK) ||| pageBits armEl2 f h⟩ : A64PTE armEl2) ≠ empty
  rw [BitVec.or_comm]
  exact ne_empty_of_pageBits e.bits f h

/-- A table descriptor is present. -/
theorem isPresent_newTable (p : BitVec 64) : isPresent (newTable p : A64PTE armEl2) = true :=
  (hasBits_field (by decide) (by decide) (by decide) p).trans (by decide)

end A64PTE

/-- Metadata of AArch64 page tables. -/
def A64PagingMetaData : PagingMetaData := ⟨4, 48, 48⟩

open A64PTE in
instance {armEl2 : Bool} : LawfulPTE A64PagingMetaData (A64PTE armEl2) where
  levels := Or.inr rfl
  pa_bits := by decide
  isUnused_iff e := by cases e; simp [isUnused, empty]
  clear_eq _ := rfl
  paddr_empty := by
    revert armEl2
    decide
  isPresent_empty := A64PTE.isPresent_empty
  paddr_newTable hp := by
    show (_ ||| (_ &&& PHYS_ADDR_MASK)) &&& PHYS_ADDR_MASK = _
    rw [Mask.or_and (by decide), hp.and_mask (by decide) (by decide)]
  isHuge_newTable p := by
    show (!hasBits (A64Attr.fromBitsTruncate
      ((A64Attr.NON_BLOCK ||| A64Attr.VALID) ||| (p &&& PHYS_ADDR_MASK))) _) = false
    rw [A64Attr.fromBitsTruncate, hasBits_field (by decide) (by decide) (by decide)]
    decide
  isHuge_newPage p f _ := by
    show (!hasBits (A64Attr.fromBitsTruncate
      (pageBits armEl2 f true ||| (p &&& PHYS_ADDR_MASK))) _) = true
    rw [hasBits_entry (by decide) (by decide), hasBits_nonBlock]
    rfl
  isHuge_setFlags e f _ := by
    show (!hasBits (A64Attr.fromBitsTruncate
      ((e.bits &&& PHYS_ADDR_MASK) ||| pageBits armEl2 f true)) _) = true
    rw [BitVec.or_comm, hasBits_entry (by decide) (by decide), hasBits_nonBlock]
    rfl
  isHuge_setPaddr e p := by
    show (!hasBits (A64Attr.fromBitsTruncate
      ((e.bits &&& ~~~PHYS_ADDR_MASK) ||| (p &&& PHYS_ADDR_MASK))) _) = _
    rw [hasBits, A64Attr.fromBitsTruncate, and_set_field (by decide) (by decide)]
    rfl
  paddr_le e := toNat_and_mask_le (n := 48) (by decide) e.bits
  paddr_newPage f h hp := by
    show (_ ||| (_ &&& PHYS_ADDR_MASK)) &&& PHYS_ADDR_MASK = _
    rw [Mask.or_and (pageBits_and_mask f h),
      and_mask_eq_alignDown (n := 48) (by decide) (by decide) hp]
  paddr_setPaddr e p hp := by
    show ((e.bits &&& ~~~PHYS_ADDR_MASK) ||| (p &&& PHYS_ADDR_MASK)) &&& PHYS_ADDR_MASK = _
    rw [Mask.or_and (Mask.and_not_and _ _),
      and_mask_eq_alignDown (n := 48) (by decide) (by decide) hp]
  paddr_setFlags e f h := by
    show ((e.bits &&& PHYS_ADDR_MASK) ||| pageBits armEl2 f h) &&& PHYS_ADDR_MASK = _
    rw [BitVec.or_comm, Mask.or_and (pageBits_and_mask f h)]
    rfl
  flags_newPage p f h := (toMappingFlags_entry p f h).trans (normalise_eq f).symm
  flags_setFlags e f h := by
    show A64Attr.toMappingFlags armEl2 (A64Attr.fromBitsTruncate
      ((e.bits &&& PHYS_ADDR_MASK) ||| pageBits armEl2 f h)) = _
    rw [BitVec.or_comm, toMappingFlags_entry, normalise_eq]
  isPresent_newPage p f h := by
    rw [presentWith_eq]
    exact (hasBits_entry (by decide) (by decide) p f h).trans (hasBits_valid f h)
  isPresent_setFlags e f h := by
    show hasBits (A64Attr.fromBitsTruncate
      ((e.bits &&& PHYS_ADDR_MASK) ||| pageBits armEl2 f h)) _ = _
    rw [presentWith_eq, BitVec.or_comm, hasBits_entry (by decide) (by decide), hasBits_valid]
  read_accepted _ := rfl
  presentWith_read hf := by
    rw [presentWith_eq, MappingFlags.isEmpty_of_contains_read hf, hf]
    rfl

end PageTableMultiarch
