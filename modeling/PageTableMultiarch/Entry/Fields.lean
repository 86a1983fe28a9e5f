/-
Setting the fields of an entry.

An entry that is made for a page and then gets another address or other flags should be the one
made with them.  On the 64-bit architectures an entry is a word with an address field under one
mask and flag bits outside it, so this is so.  On ARMv7-A the field depends on what an entry is,
and `set_paddr` takes a small page for a section if it is executable and leaves it alone
otherwise.

* `FieldEncoded` — entries with one address field, and their instances;
* `Arch.entry_fields` — the fields of the entries of each 64-bit architecture;
* `A32PTE.setsFields_iff` — when an entry of ARMv7-A is the one made with what it is set to.
-/
import PageTableMultiarch.Entry.Arch
import PageTableMultiarch.Entry.A32

namespace PageTableMultiarch

open GenericPTE

/-- A page entry that gets another address or other flags is the one made with them. -/
structure SetsFields {w : ℕ} (PTE : Type) [GenericPTE w PTE] (p q : BitVec w)
    (f g : MappingFlags w) (h k : Bool) : Prop where
  setPaddr : setPaddr (newPage p f h : PTE) q = newPage q f h
  setFlags : setFlags (newPage p f h : PTE) g k = newPage p g k

/-! ### One address field -/

/-- Entries that are words with an address field under a mask and flag bits outside it. -/
class FieldEncoded (PTE : Type) [GenericPTE 64 PTE] where
  bits : PTE → BitVec 64
  ofBits : BitVec 64 → PTE
  mask : BitVec 64
  /-- Where the bits of an address are in an entry. -/
  place : BitVec 64 → BitVec 64
  pageBits : MappingFlags 64 → Bool → BitVec 64
  tableBits : BitVec 64
  bits_ofBits (x : BitVec 64) : bits (ofBits x) = x
  pageBits_and_mask (f : MappingFlags 64) (h : Bool) : pageBits f h &&& mask = 0
  place_alignDown (p : BitVec 64) :
    place (MemoryAddr.alignDown p (PageSize.size4K.toUsize 64)) &&& mask = place p &&& mask
  newPage_eq (p : BitVec 64) (f : MappingFlags 64) (h : Bool) :
    (newPage p f h : PTE) = ofBits (pageBits f h ||| (place p &&& mask))
  newTable_eq (p : BitVec 64) : (newTable p : PTE) = ofBits (tableBits ||| (place p &&& mask))
  setPaddr_eq (e : PTE) (p : BitVec 64) :
    setPaddr e p = ofBits ((bits e &&& ~~~mask) ||| (place p &&& mask))
  setFlags_eq (e : PTE) (f : MappingFlags 64) (h : Bool) :
    setFlags e f h = ofBits ((bits e &&& mask) ||| pageBits f h)

namespace FieldEncoded

variable {PTE : Type} [GenericPTE 64 PTE] [FieldEncoded PTE]

theorem ofBits_injective : Function.Injective (ofBits : BitVec 64 → PTE) := by
  intro x y h
  have hx : bits (ofBits x : PTE) = x := bits_ofBits x
  rw [← hx, h, bits_ofBits]

theorem setPaddr_newPage (p q : BitVec 64) (f : MappingFlags 64) (h : Bool) :
    setPaddr (newPage p f h : PTE) q = newPage q f h := by
  rw [setPaddr_eq, newPage_eq, bits_ofBits, Mask.set_field (pageBits_and_mask f h), newPage_eq]

theorem setFlags_newPage (p : BitVec 64) (f g : MappingFlags 64) (h k : Bool) :
    setFlags (newPage p f h : PTE) g k = newPage p g k := by
  rw [setFlags_eq, newPage_eq, bits_ofBits, Mask.set_rest (pageBits_and_mask f h), newPage_eq]

/-- The entries of a table do not tell its address below 4K. -/
theorem newTable_alignDown (p : BitVec 64) :
    (newTable (MemoryAddr.alignDown p (PageSize.size4K.toUsize 64)) : PTE) = newTable p := by
  rw [newTable_eq, newTable_eq, place_alignDown]

end FieldEncoded

/-- Rounding an address down to 4K leaves its bits from 12 on. -/
theorem alignDown_and_mask {mask : BitVec 64} (hmask : ~~~0xfff#64 &&& mask = mask)
    (p : BitVec 64) :
    MemoryAddr.alignDown p (PageSize.size4K.toUsize 64) &&& mask = p &&& mask := by
  show (p &&& ~~~0xfff#64) &&& mask = p &&& mask
  rw [BitVec.and_assoc, hmask]

instance : FieldEncoded X64PTE where
  bits := X64PTE.bits
  ofBits := X64PTE.mk
  mask := X64PTE.PHYS_ADDR_MASK
  place p := p
  pageBits := X64PTE.pageBits
  tableBits := PTF.PRESENT ||| PTF.WRITABLE ||| PTF.USER_ACCESSIBLE
  bits_ofBits _ := rfl
  pageBits_and_mask := X64PTE.pageBits_and_mask
  place_alignDown := alignDown_and_mask (by decide)
  newPage_eq _ _ _ := rfl
  newTable_eq _ := rfl
  setPaddr_eq _ _ := rfl
  setFlags_eq _ _ _ := rfl

instance {armEl2 : Bool} : FieldEncoded (A64PTE armEl2) where
  bits := A64PTE.bits
  ofBits := A64PTE.mk
  mask := A64PTE.PHYS_ADDR_MASK
  place p := p
  pageBits := A64PTE.pageBits armEl2
  tableBits := A64Attr.NON_BLOCK ||| A64Attr.VALID
  bits_ofBits _ := rfl
  pageBits_and_mask := A64PTE.pageBits_and_mask
  place_alignDown := alignDown_and_mask (by decide)
  newPage_eq _ _ _ := rfl
  newTable_eq _ := rfl
  setPaddr_eq _ _ := rfl
  setFlags_eq _ _ _ := rfl

instance {xuantie : Bool} : FieldEncoded (Rv64PTE xuantie) where
  bits := Rv64PTE.bits
  ofBits := Rv64PTE.mk
  mask := Rv64PTE.PHYS_ADDR_MASK
  place p := p >>> 2
  pageBits f _ := RvFlags.ofMappingFlags xuantie f
  tableBits := RvFlags.V
  bits_ofBits _ := rfl
  pageBits_and_mask f _ := Rv64PTE.ofMappingFlags_and_mask f
  place_alignDown p := by
    rw [Mask.ushiftRight_and, Mask.ushiftRight_and, alignDown_and_mask (by decide)]
  newPage_eq _ _ _ := rfl
  newTable_eq _ := rfl
  setPaddr_eq _ _ := rfl
  setFlags_eq _ _ _ := rfl

/-- A table entry of LoongArch64 is an address alone. -/
instance : FieldEncoded LA64PTE where
  bits := LA64PTE.bits
  ofBits := LA64PTE.mk
  mask := LA64PTE.PHYS_ADDR_MASK
  place p := p
  pageBits := LA64PTE.pageBits
  tableBits := 0
  bits_ofBits _ := rfl
  pageBits_and_mask := LA64PTE.pageBits_and_mask
  place_alignDown := alignDown_and_mask (by decide)
  newPage_eq _ _ _ := rfl
  newTable_eq p := congrArg LA64PTE.mk BitVec.zero_or.symm
  setPaddr_eq _ _ := rfl
  setFlags_eq _ _ _ := rfl

instance : (A : Arch) → FieldEncoded A.PTE
  | .x64 => inferInstanceAs (FieldEncoded X64PTE)
  | .a64 armEl2 => inferInstanceAs (FieldEncoded (A64PTE armEl2))
  | .sv39 xuantie => inferInstanceAs (FieldEncoded (Rv64PTE xuantie))
  | .sv48 xuantie => inferInstanceAs (FieldEncoded (Rv64PTE xuantie))
  | .la64 => inferInstanceAs (FieldEncoded LA64PTE)

/-! ### The fields of an entry -/

/-- What the fields of a page entry and of a table entry tell, and what setting them does. -/
structure FieldAlgebra (PTE : Type) [GenericPTE 64 PTE] (p q : BitVec 64)
    (f g : MappingFlags 64) (h k : Bool) : Prop extends SetsFields PTE p q f g h k where
  paddr_newPage :
    paddr (newPage p f h : PTE) = MemoryAddr.alignDown p (PageSize.size4K.toUsize 64)
  flags_newPage (p' : BitVec 64) (h' : Bool) :
    flags (newPage p' f h' : PTE) = flags (newPage p f h : PTE)
  isPresent_newPage : isPresent (newPage p f h : PTE) = true
  isHuge_newPage : isHuge (newPage p f true : PTE) = true
  newTable : 0x1000 ≤ p.toNat →
    isUnused (newTable p : PTE) = false ∧ isHuge (newTable p : PTE) = false ∧
      paddr (newTable p : PTE) = MemoryAddr.alignDown p (PageSize.size4K.toUsize 64)

section Lawful

variable {M : PagingMetaData} {PTE : Type} [GenericPTE 64 PTE] [LawfulPTE M PTE]
  [FieldEncoded PTE] {p : BitVec 64}

/-- An address that is not below 4K is a frame when it is rounded down. -/
theorem validFrame_alignDown (hp : p.toNat ≤ M.PA_MAX_ADDR) (h4K : 0x1000 ≤ p.toNat) :
    ValidFrame M (MemoryAddr.alignDown p (PageSize.size4K.toUsize 64)) := by
  have hnat := PageSize.toNat_alignDown (w := 64) (by decide) .size4K p
  have hbytes : PageSize.size4K.bytes = 0x1000 := rfl
  rw [hbytes] at hnat
  refine ⟨by rw [hnat]; omega, fun h0 => ?_, by rw [hnat]; omega⟩
  rw [h0, show (0 : BitVec 64).toNat = 0 from rfl] at hnat
  omega

theorem paddr_newTable_alignDown (hp : p.toNat ≤ M.PA_MAX_ADDR) (h4K : 0x1000 ≤ p.toNat) :
    paddr (newTable p : PTE) = MemoryAddr.alignDown p (PageSize.size4K.toUsize 64) := by
  rw [← FieldEncoded.newTable_alignDown]
  exact LawfulPTE.paddr_newTable (validFrame_alignDown hp h4K)

theorem isUnused_newTable (hp : p.toNat ≤ M.PA_MAX_ADDR) (h4K : 0x1000 ≤ p.toNat) :
    isUnused (newTable p : PTE) = false := by
  rw [Bool.eq_false_iff]
  intro hunused
  -- an unused entry has no address
  have hpaddr : paddr (newTable p : PTE) = _ := paddr_newTable_alignDown hp h4K
  rw [(LawfulPTE.isUnused_iff M _).mp hunused, LawfulPTE.paddr_empty M] at hpaddr
  exact (validFrame_alignDown hp h4K).ne_zero hpaddr.symm

theorem fieldAlgebra (M : PagingMetaData) [LawfulPTE M PTE] (hp : p.toNat ≤ M.PA_MAX_ADDR)
    (q : BitVec 64) {f : MappingFlags 64} (hf : f.contains .READ = true) (g : MappingFlags 64)
    (h k : Bool) : FieldAlgebra PTE p q f g h k where
  setPaddr := FieldEncoded.setPaddr_newPage p q f h
  setFlags := FieldEncoded.setFlags_newPage p f g h k
  paddr_newPage := LawfulPTE.paddr_newPage f h hp
  flags_newPage p' h' := by
    rw [LawfulPTE.flags_newPage M p' f h', LawfulPTE.flags_newPage M p f h]
  isPresent_newPage := by
    rw [LawfulPTE.isPresent_newPage M p f h]
    exact LawfulPTE.presentWith_read M hf
  isHuge_newPage := LawfulPTE.isHuge_newPage M p (LawfulPTE.read_accepted M hf)
  newTable h4K := ⟨isUnused_newTable hp h4K, LawfulPTE.isHuge_newTable M p,
    paddr_newTable_alignDown hp h4K⟩

end Lawful

/-- On each 64-bit architecture the fields of an entry can be set one by one and read back, and
tables stay apart from unused entries and from huge pages. -/
theorem Arch.entry_fields (arch : Arch) {p : BitVec 64}
    (hp : p.toNat ≤ arch.metaData.PA_MAX_ADDR) (q : BitVec 64) {f : MappingFlags 64}
    (hf : f.contains .READ = true) (g : MappingFlags 64) (h k : Bool) :
    FieldAlgebra arch.PTE p q f g h k :=
  fieldAlgebra arch.metaData hp q hf g h k

/-- A huge page of RISC-V at the highest address. -/
theorem Arch.entry_fields_top : FieldAlgebra (Arch.sv39 true).PTE 0x00ffffffffffffff 0x1fff .READ
    (.READ ||| .DEVICE) true false :=
  Arch.entry_fields (.sv39 true) (by decide) 0x1fff (by decide) (.READ ||| .DEVICE) true false

/-! ### ARMv7-A -/

namespace A32PTE

open DescriptorAttr

theorem setPaddr_newTable (p q : BitVec 32) :
    setPaddr (newTable p : A32PTE) q = newTable q := by
  show (if (newTable p : A32PTE).descriptorType = 0b01 then _ else _) = _
  rw [if_pos (descriptorType_newTable p)]
  exact congrArg A32PTE.mk (Mask.set_field pageTable_and_mask p q)

/-- Sections at addresses with one field are one section. -/
theorem newSection_congr {p q : BitVec 32}
    (h : p &&& SECTION_ADDR_MASK = q &&& SECTION_ADDR_MASK) (f : MappingFlags 32) :
    newSection p f = newSection q f := by
  rw [newSection, newSection, h]

/-- A section keeps its type, and with it its field. -/
theorem setsFields_section (p q : BitVec 32) {f : MappingFlags 32} (hf : f.isEmpty = false)
    (g : MappingFlags 32) : SetsFields A32PTE p q f g true true := by
  have htype : (newSection p f).descriptorType = 0b10 := by
    rw [descriptorType_newSection, hf]
    rfl
  constructor
  · show setPaddr (newSection p f) q = newSection q f
    rw [setPaddr_of_type_section htype]
    exact congrArg A32PTE.mk (Mask.set_field (section_and_mask f) p q)
  · show newSection (newSection p f).physAddr g = newSection p g
    apply newSection_congr
    rw [physAddr_and_section htype, newSection_field]

/-- Two small pages with the same flags are equal if their frames are. -/
theorem newSmallPage_eq_iff (p q : BitVec 32) (f : MappingFlags 32) :
    newSmallPage p f = newSmallPage q f ↔ p.toNat / 0x1000 = q.toNat / 0x1000 := by
  have hfield : newSmallPage p f = newSmallPage q f ↔
      p &&& SMALL_PAGE_ADDR_MASK = q &&& SMALL_PAGE_ADDR_MASK := by
    constructor
    · intro h
      rw [← newSmallPage_field p f, ← newSmallPage_field q f, h]
    · intro h
      rw [newSmallPage, newSmallPage, h]
  rw [hfield, ← BitVec.toNat_inj, toNat_and_smallPage, toNat_and_smallPage]
  omega

/-- The address that `set_paddr` gives to an executable small page: the section of the new one
and the page of the old one. -/
def spliced (p q : BitVec 32) : BitVec 32 :=
  (p &&& ~~~SECTION_ADDR_MASK) ||| (q &&& SECTION_ADDR_MASK)

theorem toNat_spliced (p q : BitVec 32) :
    (spliced p q).toNat = q.toNat - q.toNat % 0x100000 + p.toNat % 0x100000 := by
  have hdisjoint : (p &&& ~~~SECTION_ADDR_MASK) &&& (q &&& SECTION_ADDR_MASK) = 0 := by
    rw [BitVec.and_comm q, ← BitVec.and_assoc, Mask.and_not_and]
    exact BitVec.zero_and
  have hlow : (p &&& ~~~SECTION_ADDR_MASK).toNat = p.toNat % 0x100000 := by
    rw [BitVec.toNat_and]
    exact Nat.and_two_pow_sub_one_eq_mod p.toNat 20
  rw [spliced, ← BitVec.add_eq_or_of_and_eq_zero _ _ hdisjoint, BitVec.toNat_add, hlow,
    toNat_and_section]
  have := q.isLt
  omega

/-- A small page that is not executable stays as it is, an executable one is taken for a
section. -/
theorem setPaddr_newSmallPage (p q : BitVec 32) {f : MappingFlags 32} (hf : f.isEmpty = false) :
    setPaddr (newSmallPage p f) q =
      newSmallPage (if f.contains .EXECUTE then spliced p q else p) f := by
  have hsub : SMALL_PAGE_ADDR_MASK &&& SECTION_ADDR_MASK = SECTION_ADDR_MASK := by decide
  have htype := descriptorType_newSmallPage p f
  rw [hf] at htype
  cases hx : f.contains .EXECUTE with
  | false =>
    rw [hx] at htype
    exact setPaddr_of_type_smallPage htype q
  | true =>
    rw [hx] at htype
    rw [setPaddr_of_type_section htype]
    exact congrArg A32PTE.mk (Mask.set_subfield (smallPage_and_mask f) hsub p q)

/-- So its address is set exactly if the bits that are left alone are those of the new one. -/
theorem setPaddr_newSmallPage_iff (p q : BitVec 32) {f : MappingFlags 32}
    (hf : f.isEmpty = false) : setPaddr (newSmallPage p f) q = newSmallPage q f ↔
      if f.contains .EXECUTE then p.toNat / 0x1000 % 0x100 = q.toNat / 0x1000 % 0x100
      else p.toNat / 0x1000 = q.toNat / 0x1000 := by
  rw [setPaddr_newSmallPage p q hf, newSmallPage_eq_iff]
  cases f.contains .EXECUTE with
  | false => rfl
  | true =>
    rw [if_pos rfl, if_pos rfl, toNat_spliced]
    omega

/-- `set_flags` reads the address back first, which is cut for an executable page above the first
megabyte. -/
theorem setFlags_newSmallPage_iff (p : BitVec 32) {f : MappingFlags 32} (hf : f.isEmpty = false)
    (g : MappingFlags 32) : setFlags (newSmallPage p f) g false = newSmallPage p g ↔
      f.contains .EXECUTE = false ∨ p.toNat < 0x100000 ∨ p.toNat % 0x100000 < 0x1000 := by
  show newSmallPage (newSmallPage p f).physAddr g = newSmallPage p g ↔ _
  -- only the frame of the page is in the entry
  obtain ⟨r, hr, hframe⟩ : ∃ r : BitVec 32, r.toNat % 0x1000 = 0 ∧
      r.toNat / 0x1000 = p.toNat / 0x1000 := by
    refine ⟨p &&& SMALL_PAGE_ADDR_MASK, ?_, ?_⟩ <;> rw [toNat_and_smallPage] <;> omega
  rw [← (newSmallPage_eq_iff r p f).mpr hframe, newSmallPage_eq_iff, ← hframe]
  have hread := aligned_physAddr_newSmallPage hr f
  have hkeeps : (newSmallPage r f).physAddr.toNat / 0x1000 = r.toNat / 0x1000 ↔
      (newSmallPage r f).physAddr = r := by
    rw [← BitVec.toNat_inj]
    omega
  rw [hkeeps, physAddr_newSmallPage_eq_iff hr, Keeps, hf]
  simp only [true_or, true_and]
  refine or_congr_right ?_
  omega

/-- An entry made for a page of ARMv7-A is the one made with the address or the flags that it is
set to, exactly if it is a section or a small page whose address `set_paddr` and `paddr` leave
as they have to. -/
theorem setsFields_iff (p q : BitVec 32) {f : MappingFlags 32} (hf : f.isEmpty = false)
    (g : MappingFlags 32) (h : Bool) :
    SetsFields A32PTE p q f g h h ∧ setPaddr (newTable p : A32PTE) q = newTable q ↔
      h = true ∨ if f.contains .EXECUTE then
          p.toNat / 0x1000 % 0x100 = q.toNat / 0x1000 % 0x100 ∧
            (p.toNat < 0x100000 ∨ p.toNat % 0x100000 < 0x1000)
        else p.toNat / 0x1000 = q.toNat / 0x1000 := by
  rw [and_iff_left (setPaddr_newTable p q)]
  cases h with
  | true => exact iff_of_true (setsFields_section p q hf g) (Or.inl rfl)
  | false =>
    have hfields : SetsFields A32PTE p q f g false false ↔
        setPaddr (newSmallPage p f) q = newSmallPage q f ∧
          setFlags (newSmallPage p f) g false = newSmallPage p g :=
      ⟨fun s => ⟨s.setPaddr, s.setFlags⟩, fun s => ⟨s.1, s.2⟩⟩
    rw [hfields, setPaddr_newSmallPage_iff p q hf, setFlags_newSmallPage_iff p hf g]
    cases f.contains .EXECUTE <;> simp

/-- An executable small page in the first megabyte that moves to the same page of another one. -/
theorem setsFields_iff_executable :
    SetsFields A32PTE 0x5000 0x7ff05000 (.READ ||| .EXECUTE) .READ false false ∧
      setPaddr (newTable 0x5000 : A32PTE) 0x7ff05000 = newTable 0x7ff05000 :=
  (setsFields_iff 0x5000 0x7ff05000 (by decide) .READ false).mpr (by decide)

/-- A small page that is not executable keeps its address. -/
theorem setPaddr_keeps_smallPage :
    setPaddr (newPage 0x1000 .READ false : A32PTE) 0x2000 = newPage 0x1000 .READ false ∧
      ¬ SetsFields A32PTE 0x1000 0x2000 .READ .READ false false := by
  refine ⟨by decide, fun hfields => ?_⟩
  have hset : setPaddr (newPage 0x1000 .READ false : A32PTE) 0x2000 ≠ newPage 0x2000 .READ false :=
    by decide
  exact hset hfields.setPaddr

end A32PTE

end PageTableMultiarch
