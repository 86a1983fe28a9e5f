/-
ARMv7-A short-descriptor entries (`page_table_entry/src/arch/arm.rs`).

The two low bits of a descriptor give its type: `01` a page table, `10` a section or a
small page, `11` a small page that is not executable, `00` nothing; which of them are
meant depends on the level, which an entry does not know.
-/
import PageTableMultiarch.Basic

namespace PageTableMultiarch

open GenericPTE

/-! ### `DescriptorAttr` and its conversions -/

namespace DescriptorAttr

def TYPE_BIT0 : BitVec 32 := 1 <<< 0
def TYPE_BIT1 : BitVec 32 := 1 <<< 1
def B : BitVec 32 := 1 <<< 2
def C : BitVec 32 := 1 <<< 3
def XN_SMALL : BitVec 32 := 1 <<< 4
def AP0 : BitVec 32 := 1 <<< 10
def AP1 : BitVec 32 := 1 <<< 11
def TEX0 : BitVec 32 := 1 <<< 12
def TEX1 : BitVec 32 := 1 <<< 13
def TEX2 : BitVec 32 := 1 <<< 14
def AP2 : BitVec 32 := 1 <<< 15
def S : BitVec 32 := 1 <<< 16
def NG : BitVec 32 := 1 <<< 17
def SECTION : BitVec 32 := TYPE_BIT1
def PAGE_TABLE : BitVec 32 := TYPE_BIT0
def SMALL_PAGE : BitVec 32 := TYPE_BIT1
def NORMAL_MEMORY : BitVec 32 := TEX0 ||| C ||| B
def DEVICE_MEMORY : BitVec 32 := B
def NORMAL_SHAREABLE : BitVec 32 := NORMAL_MEMORY ||| S
def AP_PRIV_RW : BitVec 32 := AP0
def AP_USER_RW : BitVec 32 := AP0 ||| AP1
def AP_PRIV_RO : BitVec 32 := AP2 ||| AP0
def AP_USER_RO : BitVec 32 := AP2 ||| AP0 ||| AP1

/-- All bits that `DescriptorAttr` names: 0 to 17 and 19. -/
def all : BitVec 32 := 0x000bffff

def fromBitsTruncate (bits : BitVec 32) : BitVec 32 := bits &&& all

def commonFlags (f : MappingFlags 32) : BitVec 32 :=
  (if f.contains .DEVICE then DEVICE_MEMORY
    else if f.contains .UNCACHED then TEX0
    else NORMAL_SHAREABLE) |||
  (if f.contains .USER then if f.contains .WRITE then AP_USER_RW else AP_USER_RO
    else if f.contains .WRITE then AP_PRIV_RW
    else AP_PRIV_RO)

def fromMappingFlagsSection (f : MappingFlags 32) : BitVec 32 :=
  if f.isEmpty then 0
  else SECTION ||| commonFlags f ||| when (!f.contains .EXECUTE) XN_SMALL

/-- The attributes that a small page has six bits further right. -/
def shiftMask : BitVec 32 := AP0 ||| AP1 ||| TEX0 ||| TEX1 ||| TEX2 ||| AP2 ||| S ||| NG

def fromMappingFlagsSmallPage (f : MappingFlags 32) : BitVec 32 :=
  if f.isEmpty then 0
  else SMALL_PAGE ||| (commonFlags f &&& (B ||| C)) ||| ((commonFlags f &&& shiftMask) >>> 6)
    ||| when (!f.contains .EXECUTE) TYPE_BIT0

/-- `impl From<DescriptorAttr> for MappingFlags`. -/
def toMappingFlags (attr : BitVec 32) : MappingFlags 32 :=
  if attr &&& 0b11 == 0 then .empty
  else
    let ap := ((attr >>> 10) &&& 0b11) ||| (((attr >>> 15) &&& 1) <<< 2)
    let tex := (attr >>> 12) &&& 0b111
    let c := (attr >>> 3) &&& 1
    let b := (attr >>> 2) &&& 1
    .READ
      ||| .when (ap == 0b001 || ap == 0b011) .WRITE
      ||| .when (ap &&& 0b10 != 0) .USER
      ||| .when (!hasBits attr XN_SMALL) .EXECUTE
      ||| (if tex == 0 && c == 0 && b == 1 then .DEVICE
        else if tex == 1 && c == 0 && b == 0 then .UNCACHED
        else .empty)

end DescriptorAttr

/-- An ARMv7-A short-descriptor page table entry. -/
structure A32PTE where
  bits : BitVec 32
  deriving DecidableEq

namespace A32PTE

open DescriptorAttr

/-- Bits 20 to 31. -/
def SECTION_ADDR_MASK : BitVec 32 := 0xfff00000

/-- Bits 10 to 31. -/
def PAGE_TABLE_ADDR_MASK : BitVec 32 := 0xfffffc00

/-- Bits 12 to 31. -/
def SMALL_PAGE_ADDR_MASK : BitVec 32 := 0xfffff000

def newSection (paddr : BitVec 32) (f : MappingFlags 32) : A32PTE :=
  ⟨fromMappingFlagsSection f ||| (paddr &&& SECTION_ADDR_MASK)⟩

def newSmallPage (paddr : BitVec 32) (f : MappingFlags 32) : A32PTE :=
  ⟨fromMappingFlagsSmallPage f ||| (paddr &&& SMALL_PAGE_ADDR_MASK)⟩

def descriptorType (e : A32PTE) : BitVec 32 := e.bits &&& 0b11

def isSection (e : A32PTE) : Bool := e.bits &&& 0b11 == 0b10

/-- `A32PTE::paddr`, which takes type `10` for a section if the address of a section would
not be zero. -/
def physAddr (e : A32PTE) : BitVec 32 :=
  if e.descriptorType = 0b01 then e.bits &&& PAGE_TABLE_ADDR_MASK
  else if e.descriptorType = 0b10 then
    if 0x100000 ≤ e.bits &&& SECTION_ADDR_MASK then e.bits &&& SECTION_ADDR_MASK
    else e.bits &&& SMALL_PAGE_ADDR_MASK
  else if e.descriptorType = 0b11 then e.bits &&& SMALL_PAGE_ADDR_MASK
  else 0

instance : GenericPTE 32 A32PTE where
  newPage paddr f isHuge := if isHuge then newSection paddr f else newSmallPage paddr f
  newTable paddr := ⟨PAGE_TABLE ||| (paddr &&& PAGE_TABLE_ADDR_MASK)⟩
  paddr := physAddr
  flags e := toMappingFlags (fromBitsTruncate e.bits)
  setPaddr e paddr :=
    if e.descriptorType = 0b01 then
      ⟨(e.bits &&& ~~~PAGE_TABLE_ADDR_MASK) ||| (paddr &&& PAGE_TABLE_ADDR_MASK)⟩
    else if e.descriptorType = 0b10 then
      if e.isSection then ⟨(e.bits &&& ~~~SECTION_ADDR_MASK) ||| (paddr &&& SECTION_ADDR_MASK)⟩
      else ⟨(e.bits &&& ~~~SMALL_PAGE_ADDR_MASK) ||| (paddr &&& SMALL_PAGE_ADDR_MASK)⟩
    else e
  setFlags e f isHuge := if isHuge then newSection e.physAddr f else newSmallPage e.physAddr f
  isUnused e := e.bits == 0
  isPresent e := e.descriptorType != 0
  isHuge e := e.isSection
  clear _ := ⟨0⟩
  empty := ⟨0⟩
  debugAssert _ := true

/-! ### Flags -/

/-- The flags that an entry stands for: `UNCACHED` is dropped beside `DEVICE`, and every non-empty
set of flags is readable. -/
def normalForm (f : MappingFlags 32) : MappingFlags 32 :=
  if f.isEmpty then .empty
  else .READ
    ||| .when (f.contains .WRITE) .WRITE
    ||| .when (f.contains .EXECUTE) .EXECUTE
    ||| .when (f.contains .USER) .USER
    ||| (if f.contains .DEVICE then .DEVICE
      else if f.contains .UNCACHED then .UNCACHED
      else .empty)

theorem isEmpty_of_contains_read {f : MappingFlags 32} (h : f.contains .READ = true) :
    f.isEmpty = false := by
  rw [MappingFlags.isEmpty, beq_eq_false_iff_ne]
  intro h0
  rw [MappingFlags.contains, h0] at h
  exact absurd h (by decide)

/-- For a readable set of named flags nothing else is dropped. -/
theorem normalForm_of_named {f : MappingFlags 32} (hf : f.bits.toNat < 64)
    (hread : f.contains .READ = true) : normalForm f =
      if f.contains .DEVICE then ⟨f.bits &&& ~~~(MappingFlags.UNCACHED : MappingFlags 32).bits⟩
      else f := by
  obtain ⟨b⟩ := f
  obtain ⟨n, hn, rfl⟩ : ∃ n, n < 64 ∧ b = BitVec.ofNat 32 n := ⟨b.toNat, hf, by simp⟩
  clear hf
  revert n
  decide

/-- The decoder looks at the lower half of an entry only. -/
theorem toMappingFlags_and (x : BitVec 32) :
    toMappingFlags (x &&& 0xffff) = toMappingFlags x := by
  simp only [toMappingFlags, hasBits, Mask.ushiftRight_and, BitVec.and_assoc]
  rfl

/-! ### Tables -/

theorem pageTable_and_mask : PAGE_TABLE &&& PAGE_TABLE_ADDR_MASK = 0 := by decide

/-- The type of an entry that points to a table. -/
theorem descriptorType_newTable (p : BitVec 32) : (newTable p : A32PTE).descriptorType = 0b01 := by
  have hmask : PAGE_TABLE_ADDR_MASK &&& (0b11 : BitVec 32) = 0 := by decide
  show (PAGE_TABLE ||| (p &&& PAGE_TABLE_ADDR_MASK)) &&& 0b11 = 0b01
  rw [← Mask.and_of_disjoint hmask, Mask.or_and_not pageTable_and_mask]
  decide

/-- The table that an entry made for it points to. -/
theorem physAddr_newTable {p : BitVec 32} (hp : p.toNat % 0x1000 = 0) :
    (newTable p : A32PTE).physAddr = p := by
  rw [physAddr, descriptorType_newTable, if_pos rfl]
  have hfield : (newTable p : A32PTE).bits &&& PAGE_TABLE_ADDR_MASK = p &&& PAGE_TABLE_ADDR_MASK :=
    Mask.or_and pageTable_and_mask p
  rw [hfield]
  apply BitVec.eq_of_toNat_eq
  rw [Mask.toNat_and_of_lt (k := 10) (n := 32) (by decide) (by decide) p.isLt]
  omega

/-- The type of an unused entry. -/
theorem descriptorType_of_isUnused {e : A32PTE} (h : isUnused e = true) :
    e.descriptorType = 0b00 := by
  rw [descriptorType, show e.bits = 0 from eq_of_beq h]
  decide

theorem isHuge_iff {e : A32PTE} : isHuge e = true ↔ e.descriptorType = 0b10 := by
  show (e.bits &&& 0b11 == 0b10) = true ↔ e.bits &&& 0b11 = 0b10
  exact beq_iff_eq

/-- An entry without access has no address. -/
theorem physAddr_of_type_zero {e : A32PTE} (h : e.descriptorType = 0b00) : e.physAddr = 0 := by
  rw [physAddr, h]
  rfl

/-! ### Sections -/

theorem toNat_and_section (p : BitVec 32) :
    (p &&& SECTION_ADDR_MASK).toNat = p.toNat - p.toNat % 0x100000 :=
  Mask.toNat_and_of_lt (k := 20) (n := 32) (by decide) (by decide) p.isLt

theorem section_and_mask (f : MappingFlags 32) :
    fromMappingFlagsSection f &&& SECTION_ADDR_MASK = 0 := by
  simp only [fromMappingFlagsSection, commonFlags]
  generalize f.isEmpty = z, f.contains .WRITE = w, f.contains .EXECUTE = x,
    f.contains .USER = u, f.contains .DEVICE = d, f.contains .UNCACHED = n
  revert z w x u d n
  decide

theorem section_type (f : MappingFlags 32) : fromMappingFlagsSection f &&& 0b11 =
    if f.isEmpty then 0 else 0b10 := by
  simp only [fromMappingFlagsSection, commonFlags]
  generalize f.isEmpty = z, f.contains .WRITE = w, f.contains .EXECUTE = x,
    f.contains .USER = u, f.contains .DEVICE = d, f.contains .UNCACHED = n
  revert z w x u d n
  decide

/-- The type of a section with an address. -/
theorem descriptorType_newSection (p : BitVec 32) (f : MappingFlags 32) :
    (newSection p f).descriptorType = if f.isEmpty then 0 else 0b10 := by
  have hmask : SECTION_ADDR_MASK &&& (0b11 : BitVec 32) = 0 := by decide
  rw [descriptorType, newSection, ← Mask.and_of_disjoint hmask,
    Mask.or_and_not (section_and_mask f), section_type]

/-- The address field of a section. -/
theorem newSection_field (p : BitVec 32) (f : MappingFlags 32) :
    (newSection p f).bits &&& SECTION_ADDR_MASK = p &&& SECTION_ADDR_MASK :=
  Mask.or_and (section_and_mask f) p

/-- The address of a section is read back, unless it lies in the first megabyte and the attributes
in bits 12 to 19 are not all zero. -/
theorem physAddr_newSection_eq_iff (p : BitVec 32) {f : MappingFlags 32} (hf : f.isEmpty = false) :
    (newSection p f).physAddr = p &&& SECTION_ADDR_MASK ↔
      0x100000 ≤ p.toNat ∨ f.contains .DEVICE = true ∧ f.contains .WRITE = true := by
  have htype := descriptorType_newSection p f
  rw [hf] at htype
  have hle : (0x100000 ≤ p &&& SECTION_ADDR_MASK) ↔ 0x100000 ≤ p.toNat := by
    rw [BitVec.le_def, toNat_and_section, show (0x100000 : BitVec 32).toNat = 0x100000 from rfl]
    omega
  rw [physAddr, htype, if_neg (by decide), if_pos (by decide), newSection_field]
  by_cases hp : 0x100000 ≤ p.toNat
  · rw [if_pos (hle.mpr hp)]
    exact iff_of_true rfl (Or.inl hp)
  · rw [if_neg (hle.not.mpr hp), or_iff_right hp]
    have hzero : p &&& SECTION_ADDR_MASK = 0 := by
      apply BitVec.eq_of_toNat_eq
      rw [toNat_and_section, show (0 : BitVec 32).toNat = 0 from rfl]
      omega
    -- what is left are the attributes
    rw [newSection, hzero]
    simp only [fromMappingFlagsSection, commonFlags, hf]
    generalize f.contains .WRITE = w, f.contains .EXECUTE = x, f.contains .USER = u,
      f.contains .DEVICE = d, f.contains .UNCACHED = n
    revert w x u d n
    decide

/-- What is read as the address of a section differs from its address field only below the first
megabyte. -/
theorem physAddr_and_section {e : A32PTE} (h : e.descriptorType = 0b10) :
    e.physAddr &&& SECTION_ADDR_MASK = e.bits &&& SECTION_ADDR_MASK := by
  have hsub : SMALL_PAGE_ADDR_MASK &&& SECTION_ADDR_MASK = SECTION_ADDR_MASK := by decide
  rw [physAddr, h, if_neg (by decide), if_pos rfl]
  split
  · rw [BitVec.and_assoc, BitVec.and_self]
  · rw [BitVec.and_assoc, hsub]

/-- `set_paddr` takes every entry of type `10` for a section. -/
theorem setPaddr_of_type_section {e : A32PTE} (h : e.descriptorType = 0b10) (q : BitVec 32) :
    setPaddr e q = ⟨(e.bits &&& ~~~SECTION_ADDR_MASK) ||| (q &&& SECTION_ADDR_MASK)⟩ := by
  have hsection : e.isSection = true := isHuge_iff.mpr h
  show (if e.descriptorType = 0b01 then _ else if e.descriptorType = 0b10 then
    if e.isSection then _ else _ else _) = _
  rw [h, if_neg (by decide), if_pos rfl, if_pos hsection]

/-- `set_paddr` leaves an entry of type `11` alone. -/
theorem setPaddr_of_type_smallPage {e : A32PTE} (h : e.descriptorType = 0b11) (q : BitVec 32) :
    setPaddr e q = e := by
  show (if e.descriptorType = 0b01 then _ else if e.descriptorType = 0b10 then
    if e.isSection then _ else _ else _) = _
  rw [h, if_neg (by decide), if_neg (by decide)]

/-- The flags of a section are read back. -/
theorem flags_newSection (p : BitVec 32) (f : MappingFlags 32) :
    flags (newSection p f) = normalForm f := by
  show toMappingFlags (fromBitsTruncate (fromMappingFlagsSection f ||| (p &&& SECTION_ADDR_MASK)))
    = normalForm f
  have hlow : fromBitsTruncate (fromMappingFlagsSection f ||| (p &&& SECTION_ADDR_MASK)) &&& 0xffff
      = fromMappingFlagsSection f &&& 0xffff :=
    and_field (section_and_mask f) (by decide) (by decide) p
  rw [← toMappingFlags_and, hlow]
  simp only [fromMappingFlagsSection, commonFlags, normalForm]
  generalize f.isEmpty = z, f.contains .WRITE = w, f.contains .EXECUTE = x,
    f.contains .USER = u, f.contains .DEVICE = d, f.contains .UNCACHED = n
  revert z w x u d n
  decide

/-! ### Small pages -/

theorem toNat_and_smallPage (p : BitVec 32) :
    (p &&& SMALL_PAGE_ADDR_MASK).toNat = p.toNat - p.toNat % 0x1000 :=
  Mask.toNat_and_of_lt (k := 12) (n := 32) (by decide) (by decide) p.isLt

theorem smallPage_and_mask (f : MappingFlags 32) :
    fromMappingFlagsSmallPage f &&& SMALL_PAGE_ADDR_MASK = 0 := by
  simp only [fromMappingFlagsSmallPage, commonFlags]
  generalize f.isEmpty = z, f.contains .WRITE = w, f.contains .EXECUTE = x,
    f.contains .USER = u, f.contains .DEVICE = d, f.contains .UNCACHED = n
  revert z w x u d n
  decide

theorem smallPage_type (f : MappingFlags 32) : fromMappingFlagsSmallPage f &&& 0b11 =
    if f.isEmpty then 0 else if f.contains .EXECUTE then 0b10 else 0b11 := by
  simp only [fromMappingFlagsSmallPage, commonFlags]
  generalize f.isEmpty = z, f.contains .WRITE = w, f.contains .EXECUTE = x,
    f.contains .USER = u, f.contains .DEVICE = d, f.contains .UNCACHED = n
  revert z w x u d n
  decide

/-- The type of a small page with an address. -/
theorem descriptorType_newSmallPage (p : BitVec 32) (f : MappingFlags 32) :
    (newSmallPage p f).descriptorType =
      if f.isEmpty then 0 else if f.contains .EXECUTE then 0b10 else 0b11 := by
  have hmask : SMALL_PAGE_ADDR_MASK &&& (0b11 : BitVec 32) = 0 := by decide
  rw [descriptorType, newSmallPage, ← Mask.and_of_disjoint hmask,
    Mask.or_and_not (smallPage_and_mask f), smallPage_type]

/-- The address field of a small page. -/
theorem newSmallPage_field (p : BitVec 32) (f : MappingFlags 32) :
    (newSmallPage p f).bits &&& SMALL_PAGE_ADDR_MASK = p &&& SMALL_PAGE_ADDR_MASK :=
  Mask.or_and (smallPage_and_mask f) p

theorem newSmallPage_section_field (p : BitVec 32) (f : MappingFlags 32) :
    (newSmallPage p f).bits &&& SECTION_ADDR_MASK = p &&& SECTION_ADDR_MASK := by
  have hsub : SMALL_PAGE_ADDR_MASK &&& SECTION_ADDR_MASK = SECTION_ADDR_MASK := by decide
  rw [← hsub, ← BitVec.and_assoc, newSmallPage_field, BitVec.and_assoc]

theorem and_smallPage_of_aligned {p : BitVec 32} (hp : p.toNat % 0x1000 = 0) :
    p &&& SMALL_PAGE_ADDR_MASK = p := by
  apply BitVec.eq_of_toNat_eq
  rw [toNat_and_smallPage, hp]
  rfl

/-- The address of a small page is recovered from its descriptor: the page is not without
access, and not executable above the first megabyte, unless the address is that of a
section. -/
def Keeps (p : BitVec 32) (f : MappingFlags 32) : Prop :=
  (f.isEmpty = false ∨ p = 0) ∧
    (f.contains .EXECUTE = false ∨ p.toNat < 0x100000 ∨ p.toNat % 0x100000 = 0)

instance (p : BitVec 32) (f : MappingFlags 32) : Decidable (Keeps p f) :=
  inferInstanceAs (Decidable (_ ∧ _))

/-- The address read from the descriptor of a small page. -/
theorem physAddr_newSmallPage {p : BitVec 32} (hp : p.toNat % 0x1000 = 0)
    (f : MappingFlags 32) : (newSmallPage p f).physAddr =
      if f.isEmpty then 0
      else if f.contains .EXECUTE then
        if 0x100000 ≤ p.toNat then p &&& SECTION_ADDR_MASK else p
      else p := by
  rw [physAddr, descriptorType_newSmallPage, newSmallPage_section_field, newSmallPage_field,
    and_smallPage_of_aligned hp]
  have hle : (0x100000 ≤ p &&& SECTION_ADDR_MASK) ↔ 0x100000 ≤ p.toNat := by
    rw [BitVec.le_def, toNat_and_section, show (0x100000 : BitVec 32).toNat = 0x100000 from rfl]
    omega
  cases f.isEmpty with
  | true => rfl
  | false =>
    cases f.contains .EXECUTE with
    | true =>
      simp only [Bool.false_eq_true, if_false, if_true]
      rw [if_neg (by decide)]
      exact if_congr hle rfl rfl
    | false => rfl

theorem aligned_physAddr_newSmallPage {p : BitVec 32} (hp : p.toNat % 0x1000 = 0)
    (f : MappingFlags 32) : (newSmallPage p f).physAddr.toNat % 0x1000 = 0 := by
  rw [physAddr_newSmallPage hp]
  split
  · rfl
  · split
    · split
      · rw [toNat_and_section]
        omega
      · exact hp
    · exact hp

/-- and gives the same address exactly if the flags keep it. -/
theorem physAddr_newSmallPage_eq_iff {p : BitVec 32} (hp : p.toNat % 0x1000 = 0)
    (f : MappingFlags 32) : (newSmallPage p f).physAddr = p ↔ Keeps p f := by
  have hzero : (0 = p) ↔ p.toNat = 0 := by
    rw [eq_comm, ← BitVec.toNat_inj]
    rfl
  have hsection : (p &&& SECTION_ADDR_MASK = p) ↔ p.toNat % 0x100000 = 0 := by
    rw [← BitVec.toNat_inj, toNat_and_section]
    have := Nat.mod_le p.toNat 0x100000
    omega
  rw [physAddr_newSmallPage hp, Keeps]
  -- without flags the entry has type 0 and no address
  cases hz : f.isEmpty with
  | true =>
    simp only [if_true, hzero, Bool.true_eq_false, false_or]
    constructor
    · intro h0
      exact ⟨(hzero.mpr h0).symm, Or.inr (Or.inl (by omega))⟩
    · rintro ⟨rfl, -⟩
      rfl
  | false =>
    cases f.contains .EXECUTE with
    | false => simp
    | true =>
      simp only [Bool.false_eq_true, if_false, if_true, true_or, true_and, Bool.true_eq_false,
        false_or]
      -- the type of an executable page is that of a section, so its address is cut
      by_cases h : 0x100000 ≤ p.toNat
      · rw [if_pos h, hsection]
        omega
      · rw [if_neg h]
        exact iff_of_true rfl (Or.inl (by omega))

theorem newSmallPage_not_unused (p : BitVec 32) {f : MappingFlags 32} (hf : f.isEmpty = false) :
    isUnused (newSmallPage p f) = false := by
  have htype := descriptorType_newSmallPage p f
  rw [hf] at htype
  refine beq_eq_false_iff_ne.mpr fun h0 => ?_
  rw [descriptorType, h0] at htype
  cases hx : f.contains .EXECUTE <;> rw [hx] at htype <;> exact absurd htype (by decide)

/-- Four bits of the address of a small page lie where a section has attributes. -/
theorem and_tex (p : BitVec 32) :
    p &&& (0xf000 : BitVec 32) = (BitVec.ofNat 4 (p.toNat / 0x1000)).setWidth 32 <<< 12 := by
  have hmask : (0xf000 : BitVec 32) = (0xf : BitVec 32) <<< 12 := rfl
  have hshift : p &&& (0xf000 : BitVec 32) = (p >>> 12 &&& 0xf) <<< 12 := by
    rw [hmask]
    ext i hi
    simp only [BitVec.getElem_and, BitVec.getElem_shiftLeft]
    by_cases h : i < 12
    · simp [h]
    · simp [h, show 12 + (i - 12) = i by omega, BitVec.getLsbD_eq_getElem hi]
  rw [hshift]
  congr 1
  apply BitVec.eq_of_toNat_eq
  rw [BitVec.toNat_and, BitVec.toNat_ushiftRight, Nat.shiftRight_eq_div_pow,
    show (0xf : BitVec 32).toNat = 2 ^ 4 - 1 from rfl, Nat.and_two_pow_sub_one_eq_mod,
    BitVec.toNat_setWidth, BitVec.toNat_ofNat]
  omega

/-- The flags of a small page are read back, as far as the decoder of sections finds them:
executable and user pages are not told, and three bits of the address are taken for the memory
type. -/
def FlagsKept (p : BitVec 32) (f : MappingFlags 32) : Prop :=
  f.contains .EXECUTE = false ∧ f.contains .USER = false ∧
    if f.contains .DEVICE then f.contains .WRITE = false ∧ p.toNat / 0x1000 % 8 = 0
    else if f.contains .UNCACHED then f.contains .WRITE = false ∧ p.toNat / 0x1000 % 8 = 1
    else (f.contains .WRITE = true ↔ p.toNat / 0x8000 % 2 = 0)

theorem flags_newSmallPage_iff (p : BitVec 32) {f : MappingFlags 32} (hf : f.isEmpty = false) :
    flags (newSmallPage p f) = normalForm f ↔ FlagsKept p f := by
  show toMappingFlags (fromBitsTruncate (fromMappingFlagsSmallPage f |||
    (p &&& SMALL_PAGE_ADDR_MASK))) = normalForm f ↔ _
  have hlow : fromBitsTruncate (fromMappingFlagsSmallPage f ||| (p &&& SMALL_PAGE_ADDR_MASK))
      &&& 0xffff = fromMappingFlagsSmallPage f &&& 0xffff ||| p &&& 0xf000 := by
    rw [fromBitsTruncate, BitVec.and_assoc, BitVec.and_or_distrib_right, BitVec.and_assoc p]
    rfl
  rw [← toMappingFlags_and, hlow, and_tex]
  have h8 : p.toNat / 0x1000 % 8 = (BitVec.ofNat 4 (p.toNat / 0x1000)).toNat % 8 := by
    rw [BitVec.toNat_ofNat]
    omega
  have h2 : p.toNat / 0x8000 % 2 = (BitVec.ofNat 4 (p.toNat / 0x1000)).toNat / 8 := by
    rw [BitVec.toNat_ofNat]
    omega
  rw [FlagsKept, h8, h2]
  generalize BitVec.ofNat 4 (p.toNat / 0x1000) = q
  simp only [fromMappingFlagsSmallPage, commonFlags, normalForm, hf]
  generalize f.contains .WRITE = w, f.contains .EXECUTE = x,
    f.contains .USER = u, f.contains .DEVICE = d, f.contains .UNCACHED = n
  revert q w d n
  cases x <;> cases u <;> decide +kernel

end A32PTE

/-- Metadata of ARMv7-A page tables. -/
def A32PagingMetaData : PagingMetaData := ⟨2, 32, 32⟩

end PageTableMultiarch
