/-
RISC-V page table entries (`page_table_entry/src/arch/riscv.rs`).

The parameter `xuantie` is the cargo feature `xuantie-c9xx`.  A leaf is told from a
table by its permission bits alone, so `new_page` and `set_flags` check with a
`debug_assert!` that the flags give read or execute permission.
-/
import PageTableMultiarch.Entry.Lawful

namespace PageTableMultiarch

open GenericPTE

namespace RvFlags

def V : BitVec 64 := 1 <<< 0
def R : BitVec 64 := 1 <<< 1
def W : BitVec 64 := 1 <<< 2
def X : BitVec 64 := 1 <<< 3
def U : BitVec 64 := 1 <<< 4
def A : BitVec 64 := 1 <<< 6
def D : BitVec 64 := 1 <<< 7
def SO : BitVec 64 := 1 <<< 63
def C : BitVec 64 := 1 <<< 62
def B : BitVec 64 := 1 <<< 61
def SH : BitVec 64 := 1 <<< 60
def XUANTIE_C9XX_DEVICE : BitVec 64 := SO ||| B
def XUANTIE_C9XX_NORMAL : BitVec 64 := C ||| B ||| SH

/-- All bits that `PTEFlags` names: 0 to 7, and 60 to 63 on XuanTie cores. -/
def all (xuantie : Bool) : BitVec 64 := 0xff ||| when xuantie (SO ||| C ||| B ||| SH)

def fromBitsTruncate (xuantie : Bool) (bits : BitVec 64) : BitVec 64 := bits &&& all xuantie

/-- `impl From<PTEFlags> for MappingFlags`. -/
def toMappingFlags (f : BitVec 64) : MappingFlags 64 :=
  if !hasBits f V then .empty
  else .when (hasBits f R) .READ
    ||| .when (hasBits f W) .WRITE
    ||| .when (hasBits f X) .EXECUTE
    ||| .when (hasBits f U) .USER

/-- `impl From<MappingFlags> for PTEFlags`. -/
def ofMappingFlags (xuantie : Bool) (f : MappingFlags 64) : BitVec 64 :=
  if f.isEmpty then 0
  else (V ||| A ||| D)
    ||| when (f.contains .READ) R
    ||| when (f.contains .WRITE) W
    ||| when (f.contains .EXECUTE) X
    ||| when (f.contains .USER) U
    ||| when xuantie
      (if f.contains .DEVICE then XUANTIE_C9XX_DEVICE else XUANTIE_C9XX_NORMAL)

end RvFlags

/-- Sv39 and Sv48 page table entry for RV64 systems. -/
structure Rv64PTE (xuantie : Bool) where
  bits : BitVec 64
  deriving DecidableEq

namespace Rv64PTE

variable {xuantie : Bool}

/-- Bits 10 to 53. -/
def PHYS_ADDR_MASK : BitVec 64 := (1 <<< 54) - (1 <<< 10)

instance : GenericPTE 64 (Rv64PTE xuantie) where
  newPage paddr f _ :=
    ⟨RvFlags.ofMappingFlags xuantie f ||| ((paddr >>> 2) &&& PHYS_ADDR_MASK)⟩
  newTable paddr := ⟨RvFlags.V ||| ((paddr >>> 2) &&& PHYS_ADDR_MASK)⟩
  paddr e := (e.bits &&& PHYS_ADDR_MASK) <<< 2
  flags e := RvFlags.toMappingFlags (RvFlags.fromBitsTruncate xuantie e.bits)
  setPaddr e paddr := ⟨(e.bits &&& ~~~PHYS_ADDR_MASK) ||| ((paddr >>> 2) &&& PHYS_ADDR_MASK)⟩
  setFlags e f _ := ⟨(e.bits &&& PHYS_ADDR_MASK) ||| RvFlags.ofMappingFlags xuantie f⟩
  isUnused e := e.bits == 0
  isPresent e := hasBits (RvFlags.fromBitsTruncate xuantie e.bits) RvFlags.V
  isHuge e := meetsBits (RvFlags.fromBitsTruncate xuantie e.bits) (RvFlags.R ||| RvFlags.X)
  clear _ := ⟨0⟩
  empty := ⟨0⟩
  debugAssert f := meetsBits (RvFlags.ofMappingFlags xuantie f) (RvFlags.R ||| RvFlags.X)

/-! ### The laws -/

theorem ofMappingFlags_and_mask (f : MappingFlags 64) :
    RvFlags.ofMappingFlags xuantie f &&& PHYS_ADDR_MASK = 0 := by
  simp only [RvFlags.ofMappingFlags]
  generalize f.isEmpty = z, f.contains .READ = r, f.contains .WRITE = w,
    f.contains .EXECUTE = x, f.contains .USER = u, f.contains .DEVICE = d
  revert xuantie z r w x u d
  decide

/-- The flags of an entry: the permissions, without the memory attributes. -/
def normalForm (f : MappingFlags 64) : MappingFlags 64 :=
  if f.isEmpty then .empty
  else .when (f.contains .READ) .READ
    ||| .when (f.contains .WRITE) .WRITE
    ||| .when (f.contains .EXECUTE) .EXECUTE
    ||| .when (f.contains .USER) .USER

theorem toMappingFlags_ofMappingFlags (f : MappingFlags 64) :
    RvFlags.toMappingFlags (RvFlags.ofMappingFlags xuantie f) = normalForm f := by
  simp only [RvFlags.ofMappingFlags, normalForm]
  generalize f.isEmpty = z, f.contains .READ = r, f.contains .WRITE = w,
    f.contains .EXECUTE = x, f.contains .USER = u, f.contains .DEVICE = d
  revert xuantie z r w x u d
  decide

theorem hasBits_valid (f : MappingFlags 64) :
    hasBits (RvFlags.ofMappingFlags xuantie f) RvFlags.V = !f.isEmpty := by
  simp only [RvFlags.ofMappingFlags]
  generalize f.isEmpty = z, f.contains .READ = r, f.contains .WRITE = w,
    f.contains .EXECUTE = x, f.contains .USER = u, f.contains .DEVICE = d
  revert xuantie z r w x u d
  decide

/-- The `debug_assert!` asks for flags with `READ` or `EXECUTE`. -/
theorem debugAssert_eq (f : MappingFlags 64) :
    debugAssert (Rv64PTE xuantie) f
      = (!f.isEmpty && (f.contains .READ || f.contains .EXECUTE)) := by
  show meetsBits (RvFlags.ofMappingFlags xuantie f) _ = _
  simp only [RvFlags.ofMappingFlags]
  generalize f.isEmpty = z, f.contains .READ = r, f.contains .WRITE = w,
    f.contains .EXECUTE = x, f.contains .USER = u, f.contains .DEVICE = d
  revert xuantie z r w x u d
  decide

theorem all_and_leaf (xuantie : Bool) :
    RvFlags.all xuantie &&& (RvFlags.R ||| RvFlags.X) = RvFlags.R ||| RvFlags.X := by
  cases xuantie <;> decide

theorem hasBits_entry {c : BitVec 64} (hm : PHYS_ADDR_MASK &&& c = 0)
    (hall : ∀ x : Bool, RvFlags.all x &&& c = c) (x : BitVec 64) (f : MappingFlags 64) :
    hasBits (RvFlags.fromBitsTruncate xuantie
        (RvFlags.ofMappingFlags xuantie f ||| (x &&& PHYS_ADDR_MASK))) c
      = hasBits (RvFlags.ofMappingFlags xuantie f) c :=
  hasBits_field (ofMappingFlags_and_mask f) hm (hall xuantie) x

theorem meetsBits_entry (x : BitVec 64) (f : MappingFlags 64) :
    meetsBits (RvFlags.fromBitsTruncate xuantie
        (RvFlags.ofMappingFlags xuantie f ||| (x &&& PHYS_ADDR_MASK))) (RvFlags.R ||| RvFlags.X)
      = meetsBits (RvFlags.ofMappingFlags xuantie f) (RvFlags.R ||| RvFlags.X) :=
  meetsBits_field (ofMappingFlags_and_mask f) (by decide) (all_and_leaf xuantie) x

/-- The flags alone make an entry huge. -/
theorem isHuge_setFlags (e : Rv64PTE xuantie) (f : MappingFlags 64) (huge : Bool) :
    isHuge (setFlags e f huge) = debugAssert (Rv64PTE xuantie) f := by
  show meetsBits (RvFlags.fromBitsTruncate xuantie
    ((e.bits &&& PHYS_ADDR_MASK) ||| RvFlags.ofMappingFlags xuantie f)) _ = _
  rw [BitVec.or_comm, meetsBits_entry]
  rfl

theorem toMappingFlags_entry (x : BitVec 64) (f : MappingFlags 64) :
    RvFlags.toMappingFlags (RvFlags.fromBitsTruncate xuantie
        (RvFlags.ofMappingFlags xuantie f ||| (x &&& PHYS_ADDR_MASK))) = normalForm f := by
  have hnormal : RvFlags.toMappingFlags (RvFlags.ofMappingFlags xuantie f) = normalForm f :=
    toMappingFlags_ofMappingFlags f
  rw [← hnormal]
  simp only [RvFlags.toMappingFlags]
  rw [hasBits_entry (by decide) (by decide), hasBits_entry (by decide) (by decide),
    hasBits_entry (by decide) (by decide), hasBits_entry (by decide) (by decide),
    hasBits_entry (by decide) (by decide)]

theorem normalise_eq (f : MappingFlags 64) : normalise (Rv64PTE xuantie) f = normalForm f :=
  toMappingFlags_entry (0 >>> 2) f

theorem presentWith_eq (f : MappingFlags 64) : presentWith (Rv64PTE xuantie) f = !f.isEmpty :=
  (hasBits_entry (by decide) (by decide) (0 >>> 2) f).trans (hasBits_valid f)

theorem contains_read_normalForm (f : MappingFlags 64) :
    (normalForm f).contains .READ = (!f.isEmpty && f.contains .READ) := by
  simp only [normalForm]
  generalize f.isEmpty = z, f.contains .READ = r, f.contains .WRITE = w,
    f.contains .EXECUTE = x, f.contains .USER = u
  revert z r w x u
  decide

theorem isPresent_empty : isPresent (empty : Rv64PTE xuantie) = false := by
  revert xuantie
  decide

theorem isHuge_newTable (p : BitVec 64) : isHuge (newTable p : Rv64PTE xuantie) = false := by
  show meetsBits (RvFlags.fromBitsTruncate xuantie
    (RvFlags.V ||| ((p >>> 2) &&& PHYS_ADDR_MASK))) _ = false
  rw [RvFlags.fromBitsTruncate, meetsBits_field (by decide) (by decide) (all_and_leaf xuantie)]
  decide

/-- A table entry is present. -/
theorem isPresent_newTable (p : BitVec 64) : isPresent (newTable p : Rv64PTE xuantie) = true := by
  show hasBits (RvFlags.fromBitsTruncate xuantie
    (RvFlags.V ||| ((p >>> 2) &&& PHYS_ADDR_MASK))) _ = true
  have hall : RvFlags.all xuantie &&& RvFlags.V = RvFlags.V := by
    cases xuantie <;> decide
  rw [RvFlags.fromBitsTruncate, hasBits_field (by decide) (by decide) hall]
  decide

/-- Shifting by two and back leaves an address under the shifted mask. -/
theorem shift_field (p : BitVec 64) :
    ((p >>> 2) &&& PHYS_ADDR_MASK) <<< 2 = p &&& (PHYS_ADDR_MASK <<< 2) := by
  have hround : (p >>> 2) <<< 2 = p &&& ~~~3 := by
    ext i hi
    have h3 : (3 : BitVec 64)[i] = decide (i < 2) := by
      revert i
      decide
    simp only [BitVec.getElem_shiftLeft, BitVec.getElem_and, BitVec.getElem_not,
      BitVec.getElem_ushiftRight, h3]
    by_cases h : i < 2
    · simp [h]
    · simp [h, show 2 + (i - 2) = i by omega, BitVec.getLsbD_eq_getElem hi]
  rw [BitVec.shiftLeft_and_distrib, hround, BitVec.and_assoc,
    show (~~~3 : BitVec 64) &&& (PHYS_ADDR_MASK <<< 2) = PHYS_ADDR_MASK <<< 2 by decide]

end Rv64PTE

/-- Metadata of RISC-V Sv39 page tables. -/
def Sv39MetaData : PagingMetaData := ⟨3, 56, 39⟩

/-- Metadata of RISC-V Sv48 page tables. -/
def Sv48MetaData : PagingMetaData := ⟨4, 56, 48⟩

open Rv64PTE in
/-- The laws hold for any number of levels. -/
theorem Rv64PTE.lawful {xuantie : Bool} (M : PagingMetaData) (hL : M.LEVELS = 3 ∨ M.LEVELS = 4)
    (hpa : M.PA_MAX_BITS = 56) : LawfulPTE M (Rv64PTE xuantie) where
  levels := hL
  pa_bits := hpa.le
  isUnused_iff e := by cases e; simp [isUnused, empty]
  clear_eq _ := rfl
  paddr_empty := by
    revert xuantie
    decide
  isPresent_empty := Rv64PTE.isPresent_empty
  -- the address is stored without its two lowest bits
  paddr_newTable {p} hp := by
    show ((RvFlags.V ||| ((p >>> 2) &&& PHYS_ADDR_MASK)) &&& PHYS_ADDR_MASK) <<< 2 = _
    rw [Mask.or_and (by decide), shift_field, hp.and_mask (by omega) (by rw [hpa]; decide)]
  isHuge_newTable := Rv64PTE.isHuge_newTable
  isHuge_newPage p f hf := (meetsBits_entry (p >>> 2) f).trans hf
  isHuge_setFlags e f hf := (Rv64PTE.isHuge_setFlags e f true).trans hf
  isHuge_setPaddr e p := by
    show meetsBits (RvFlags.fromBitsTruncate xuantie
      ((e.bits &&& ~~~PHYS_ADDR_MASK) ||| ((p >>> 2) &&& PHYS_ADDR_MASK))) _ = _
    rw [meetsBits, RvFlags.fromBitsTruncate, and_set_field (by decide) (all_and_leaf xuantie)]
    rfl
  paddr_le e := by
    show ((e.bits &&& PHYS_ADDR_MASK) <<< 2).toNat ≤ _
    rw [BitVec.shiftLeft_and_distrib, PagingMetaData.PA_MAX_ADDR, hpa]
    exact toNat_and_mask_le (by decide) _
  paddr_newPage {p} f h hp := by
    show ((_ ||| ((p >>> 2) &&& PHYS_ADDR_MASK)) &&& PHYS_ADDR_MASK) <<< 2 = _
    rw [PagingMetaData.PA_MAX_ADDR, hpa] at hp
    rw [Mask.or_and (ofMappingFlags_and_mask f), shift_field,
      and_mask_eq_alignDown (n := 56) (by decide) (by decide) hp]
  paddr_setPaddr e p hp := by
    show (((e.bits &&& ~~~PHYS_ADDR_MASK) ||| ((p >>> 2) &&& PHYS_ADDR_MASK))
      &&& PHYS_ADDR_MASK) <<< 2 = _
    rw [PagingMetaData.PA_MAX_ADDR, hpa] at hp
    rw [Mask.or_and (Mask.and_not_and _ _), shift_field,
      and_mask_eq_alignDown (n := 56) (by decide) (by decide) hp]
  -- the flags lie outside the address field, so their order does not matter
  paddr_setFlags e f h := by
    show (((e.bits &&& PHYS_ADDR_MASK) ||| RvFlags.ofMappingFlags xuantie f)
      &&& PHYS_ADDR_MASK) <<< 2 = _
    rw [BitVec.or_comm, Mask.or_and (ofMappingFlags_and_mask f)]
    rfl
  flags_newPage p f h := (toMappingFlags_entry (p >>> 2) f).trans (normalise_eq f).symm
  flags_setFlags e f h := by
    show RvFlags.toMappingFlags (RvFlags.fromBitsTruncate xuantie
      ((e.bits &&& PHYS_ADDR_MASK) ||| RvFlags.ofMappingFlags xuantie f)) = _
    rw [BitVec.or_comm, toMappingFlags_entry, normalise_eq]
  isPresent_newPage p f h := by
    rw [presentWith_eq]
    exact (hasBits_entry (by decide) (by decide) (p >>> 2) f).trans (hasBits_valid f)
  isPresent_setFlags e f h := by
    show hasBits (RvFlags.fromBitsTruncate xuantie
      ((e.bits &&& PHYS_ADDR_MASK) ||| RvFlags.ofMappingFlags xuantie f)) _ = _
    rw [presentWith_eq, BitVec.or_comm, hasBits_entry (by decide) (by decide), hasBits_valid]
  read_accepted hf := by
    rw [debugAssert_eq, MappingFlags.isEmpty_of_contains_read hf, hf]
    rfl
  presentWith_read hf := by
    rw [presentWith_eq, MappingFlags.isEmpty_of_contains_read hf]
    rfl

instance {xuantie : Bool} : LawfulPTE Sv39MetaData (Rv64PTE xuantie) :=
  Rv64PTE.lawful _ (Or.inl rfl) rfl

instance {xuantie : Bool} : LawfulPTE Sv48MetaData (Rv64PTE xuantie) :=
  Rv64PTE.lawful _ (Or.inr rfl) rfl

end PageTableMultiarch
