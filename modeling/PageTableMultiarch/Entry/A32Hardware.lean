/-
What an ARMv7-A processor makes of the entries.

`A32PTE.decode` is the meaning of a short descriptor to the translation of addresses, with the
access flag off and domain 0 alone in use; supersections and large pages, which the crate never
makes, are not decoded.  Unlike the crate, the processor knows the level of a descriptor.

* `decode_newTable` — the entry of a table leads on, and limits nothing;
* `decode_newSection` — the entry of a section or small page is that page, with the rights that its
  flags tell;
* `decode_unused` — an unused entry faults.
-/
import PageTableMultiarch.Entry.A32
import PageTableMultiarch.Entry.Hardware

namespace PageTableMultiarch

open GenericPTE PageWalk

namespace DescriptorAttr

/-- The domain of a first level descriptor. -/
def DOMAIN_MASK : BitVec 32 := 0b1111 <<< 5

/-- The section is a supersection. -/
def SUPERSECTION : BitVec 32 := 1 <<< 18

/-! The permission bits of a small page. -/

def SMALL_AP0 : BitVec 32 := 1 <<< 4
def SMALL_AP1 : BitVec 32 := 1 <<< 5
def SMALL_AP2 : BitVec 32 := 1 <<< 9

/-- The rights that the permission bits `AP[2:0]` and the bit that forbids execution leave. -/
def rights (ap2 ap1 ap0 xn : Bool) : Rights := fun a =>
  let readable := ap1 || (!a.user && ap0)
  let writable := !ap2 && if a.user then ap1 && ap0 else ap1 || ap0
  match a.kind with
  | .read => readable
  | .write => writable
  | .fetch => readable && !xn

/-- Whether privileged code may execute. -/
def privileged (pxn : Bool) : Rights := fun a => a.user || !(pxn && a.kind == .fetch)

end DescriptorAttr

namespace A32PTE

open DescriptorAttr

/-- The meaning of a descriptor of the first level, `k = 1`, or of the second. -/
def decode (k : ℕ) (e : A32PTE) : Decoded (BitVec 32) Rights :=
  if k = 0 then
    if hasBits e.bits SMALL_PAGE then
      .page (e.bits &&& SMALL_PAGE_ADDR_MASK)
        (rights (hasBits e.bits SMALL_AP2) (hasBits e.bits SMALL_AP1) (hasBits e.bits SMALL_AP0)
          (hasBits e.bits TYPE_BIT0))
    else .fault
  else if meetsBits e.bits DOMAIN_MASK then .fault
  else if hasBits e.bits SECTION then
    if hasBits e.bits SUPERSECTION then .fault
    else .page (e.bits &&& SECTION_ADDR_MASK)
      (rights (hasBits e.bits AP2) (hasBits e.bits AP1) (hasBits e.bits AP0)
        (hasBits e.bits XN_SMALL) ⊓ privileged (hasBits e.bits TYPE_BIT0))
  else if hasBits e.bits PAGE_TABLE then
    .table (e.bits &&& PAGE_TABLE_ADDR_MASK) (privileged (hasBits e.bits B))
  else .fault

/-! ### Tests of descriptors -/

variable {a mask c : BitVec 32}

theorem and_outside (ha : a &&& mask = 0) (hc : mask &&& c = 0) (p : BitVec 32) :
    (a ||| (p &&& mask)) &&& c = a &&& c := by
  rw [← Mask.and_of_disjoint hc, Mask.or_and_not ha]

theorem hasBits_outside (ha : a &&& mask = 0) (hc : mask &&& c = 0) (p : BitVec 32) :
    hasBits (a ||| (p &&& mask)) c = hasBits a c := by
  rw [hasBits, and_outside ha hc, ← hasBits]

theorem meetsBits_outside (ha : a &&& mask = 0) (hc : mask &&& c = 0) (p : BitVec 32) :
    meetsBits (a ||| (p &&& mask)) c = meetsBits a c := by
  rw [meetsBits, and_outside ha hc, ← meetsBits]

/-! ### Entries that the crate makes -/

variable {f : MappingFlags 32}

theorem decode_unused {k : ℕ} {e : A32PTE} (h : isUnused e = true) : decode k e = .fault := by
  obtain ⟨bits⟩ := e
  obtain rfl : bits = 0 := eq_of_beq h
  rw [decode]
  split <;> rfl

theorem decode_newTable (p : BitVec 32) :
    decode 1 (newTable p) = .table (p &&& PAGE_TABLE_ADDR_MASK) ⊤ := by
  have hbits : (newTable p : A32PTE).bits = PAGE_TABLE ||| (p &&& PAGE_TABLE_ADDR_MASK) := rfl
  have htest : ∀ c, PAGE_TABLE_ADDR_MASK &&& c = 0 →
      hasBits (newTable p : A32PTE).bits c = hasBits PAGE_TABLE c :=
    fun c hc => hasBits_outside pageTable_and_mask hc p
  have hfield : (newTable p : A32PTE).bits &&& PAGE_TABLE_ADDR_MASK = p &&& PAGE_TABLE_ADDR_MASK :=
    Mask.or_and pageTable_and_mask p
  have hlimit : privileged false = ⊤ := by
    funext a
    simp [privileged]
  have hdomain : meetsBits (newTable p : A32PTE).bits DOMAIN_MASK = false := by
    rw [hbits, meetsBits_outside pageTable_and_mask (by decide)]
    decide
  have hsection : hasBits PAGE_TABLE SECTION = false := by decide
  have htable : hasBits PAGE_TABLE PAGE_TABLE = true := by decide
  have hpxn : hasBits PAGE_TABLE B = false := by decide
  rw [decode, if_neg (by decide), hdomain, hfield, htest SECTION (by decide), hsection,
    htest PAGE_TABLE (by decide), htable, htest B (by decide), hpxn, hlimit]
  rfl

/-- The rights of a section are those that its flags tell. -/
theorem rights_section (hf : f.isEmpty = false) :
    rights (hasBits (fromMappingFlagsSection f) AP2) (hasBits (fromMappingFlagsSection f) AP1)
        (hasBits (fromMappingFlagsSection f) AP0) (hasBits (fromMappingFlagsSection f) XN_SMALL) ⊓
      privileged (hasBits (fromMappingFlagsSection f) TYPE_BIT0) =
      (normalForm f).permits false := by
  funext a
  obtain ⟨user, kind⟩ := a
  rw [Pi.inf_apply]
  simp only [rights, privileged, MappingFlags.permits, fromMappingFlagsSection, commonFlags,
    normalForm, hf]
  generalize f.contains .WRITE = w, f.contains .EXECUTE = x, f.contains .USER = u,
    f.contains .DEVICE = d, f.contains .UNCACHED = n
  cases kind <;> revert user w x u d n <;> decide

/-- The rights of a small page are those that its flags tell. -/
theorem rights_smallPage (hf : f.isEmpty = false) :
    rights (hasBits (fromMappingFlagsSmallPage f) SMALL_AP2)
        (hasBits (fromMappingFlagsSmallPage f) SMALL_AP1)
        (hasBits (fromMappingFlagsSmallPage f) SMALL_AP0)
        (hasBits (fromMappingFlagsSmallPage f) TYPE_BIT0) = (normalForm f).permits false := by
  funext a
  obtain ⟨user, kind⟩ := a
  simp only [rights, MappingFlags.permits, fromMappingFlagsSmallPage, commonFlags, normalForm, hf]
  generalize f.contains .WRITE = w, f.contains .EXECUTE = x, f.contains .USER = u,
    f.contains .DEVICE = d, f.contains .UNCACHED = n
  cases kind <;> revert user w x u d n <;> decide

theorem decode_newSection (p : BitVec 32) (hf : f.isEmpty = false) :
    decode 1 (newSection p f) =
      .page (p &&& SECTION_ADDR_MASK) ((normalForm f).permits false) := by
  have htest : ∀ c, SECTION_ADDR_MASK &&& c = 0 →
      hasBits (newSection p f).bits c = hasBits (fromMappingFlagsSection f) c :=
    fun c hc => hasBits_outside (section_and_mask f) hc p
  have hkind : meetsBits (newSection p f).bits DOMAIN_MASK = false ∧
      hasBits (fromMappingFlagsSection f) SECTION = true ∧
      hasBits (fromMappingFlagsSection f) SUPERSECTION = false := by
    rw [newSection, meetsBits_outside (section_and_mask f) (by decide)]
    simp only [fromMappingFlagsSection, commonFlags, hf]
    generalize f.contains .WRITE = w, f.contains .EXECUTE = x, f.contains .USER = u,
      f.contains .DEVICE = d, f.contains .UNCACHED = n
    revert w x u d n
    decide
  rw [decode, if_neg (by decide), hkind.1, newSection_field, htest SECTION (by decide), hkind.2.1,
    htest SUPERSECTION (by decide), hkind.2.2, htest AP2 (by decide), htest AP1 (by decide),
    htest AP0 (by decide), htest XN_SMALL (by decide), htest TYPE_BIT0 (by decide),
    rights_section hf]
  rfl

theorem decode_newSmallPage (p : BitVec 32) (hf : f.isEmpty = false) :
    decode 0 (newSmallPage p f) =
      .page (p &&& SMALL_PAGE_ADDR_MASK) ((normalForm f).permits false) := by
  have htest : ∀ c, SMALL_PAGE_ADDR_MASK &&& c = 0 →
      hasBits (newSmallPage p f).bits c = hasBits (fromMappingFlagsSmallPage f) c :=
    fun c hc => hasBits_outside (smallPage_and_mask f) hc p
  have hkind : hasBits (fromMappingFlagsSmallPage f) SMALL_PAGE = true := by
    simp only [fromMappingFlagsSmallPage, commonFlags, hf]
    generalize f.contains .WRITE = w, f.contains .EXECUTE = x, f.contains .USER = u,
      f.contains .DEVICE = d, f.contains .UNCACHED = n
    revert w x u d n
    decide
  rw [decode, if_pos rfl, newSmallPage_field, htest SMALL_PAGE (by decide), hkind,
    htest SMALL_AP2 (by decide), htest SMALL_AP1 (by decide), htest SMALL_AP0 (by decide),
    htest TYPE_BIT0 (by decide), rights_smallPage hf]
  rfl

end A32PTE

end PageTableMultiarch
