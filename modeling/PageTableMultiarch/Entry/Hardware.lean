/-
What the processors make of the entries.

`Arch.decode` is the meaning of an entry to the address translation of the processor: the
bits it tests in which order, and what it does with an entry of a table at each height.  The
crate never states it; it is what the entries are for.

* `Arch.decode_newTable` — a table entry leads on, and limits nothing;
* `Arch.decode_newPage` — a readable page that is aligned to its size is that page, with the
  rights that its flags tell;
* `Arch.decode_empty` — an unused entry faults, but on LoongArch64 above the last level.
-/
import Mathlib.Order.BooleanAlgebra.Defs
import PageTableMultiarch.Entry.Fields
import PageTableMultiarch.Lib.PageWalk

namespace PageTableMultiarch

open GenericPTE PageWalk

/-! ### Rights -/

inductive AccessKind where
  | read
  | write
  | fetch
  deriving DecidableEq

/-- An access in user mode, or in the privileged mode whose tables are used. -/
structure Access where
  user : Bool
  kind : AccessKind
  deriving DecidableEq

/-- The accesses that are permitted. -/
abbrev Rights := Access → Bool

/-- The accesses that flags permit; with `apart`, privileged code does not fetch from user
pages. -/
def MappingFlags.permits {w : ℕ} (apart : Bool) (g : MappingFlags w) : Rights := fun a =>
  (!a.user || g.contains .USER) && !(apart && !a.user && g.contains .USER && a.kind == .fetch) &&
    match a.kind with
    | .read => g.contains .READ
    | .write => g.contains .WRITE
    | .fetch => g.contains .EXECUTE

/-! ### Alignment -/

/-- An address of a page or block at a height, without the bits below its size. -/
def blockBase (k : ℕ) (p : BitVec 64) : BitVec 64 := (p >>> (12 + 9 * k)) <<< (12 + 9 * k)

theorem blockBase_of_aligned {k : ℕ} {p : BitVec 64} (hp : p.toNat % 2 ^ (12 + 9 * k) = 0) :
    blockBase k p = p := by
  apply BitVec.eq_of_toNat_eq
  have := p.isLt
  have hmul : p.toNat / 2 ^ (12 + 9 * k) * 2 ^ (12 + 9 * k) = p.toNat :=
    Nat.div_mul_cancel (Nat.dvd_of_mod_eq_zero hp)
  rw [blockBase, BitVec.toNat_shiftLeft, BitVec.toNat_ushiftRight, Nat.shiftLeft_eq,
    Nat.shiftRight_eq_div_pow, hmul, Nat.mod_eq_of_lt this]

/-- A mask keeps an address aligned. -/
theorem aligned_and {n : ℕ} {p : BitVec 64} (hp : p.toNat % 2 ^ n = 0) (mask : BitVec 64) :
    (p &&& mask).toNat % 2 ^ n = 0 := by
  rw [BitVec.toNat_and, Nat.and_mod_two_pow, hp, Nat.zero_and]

variable {k : ℕ} {p : BitVec 64} {f : MappingFlags 64}

/-! ### x86_64 -/

/-- The rights that the flag bits of an entry leave, with `CR0.WP` and without `SMEP` and
`SMAP`. -/
def PTF.rights (fl : BitVec 64) : Rights := fun a =>
  (!a.user || hasBits fl USER_ACCESSIBLE) && match a.kind with
    | .read => true
    | .write => hasBits fl WRITABLE
    | .fetch => !hasBits fl NO_EXECUTE

namespace X64PTE

/-- Address bits below the size of a huge page are reserved. -/
def decode (k : ℕ) (e : X64PTE) : Decoded (BitVec 64) Rights :=
  let fl := PTF.fromBitsTruncate e.bits
  if !hasBits fl PTF.PRESENT then .fault
  else if k = 0 then .page (paddr e) (PTF.rights fl)
  else if hasBits fl PTF.HUGE_PAGE then
    if k ≤ 2 ∧ (paddr e).toNat % 2 ^ (12 + 9 * k) = 0 then .page (paddr e) (PTF.rights fl)
    else .fault
  else .table (paddr e) (PTF.rights fl)

theorem rights_entry (x : BitVec 64) (h : Bool) (hf : f.contains .READ = true) :
    PTF.rights (PTF.fromBitsTruncate (pageBits f h ||| (x &&& PHYS_ADDR_MASK))) =
      (normalForm f).permits false := by
  funext a
  obtain ⟨user, kind⟩ := a
  simp only [PTF.rights]
  rw [hasBits_entry (by decide) (by decide), hasBits_entry (by decide) (by decide),
    hasBits_entry (by decide) (by decide)]
  simp only [MappingFlags.permits, pageBits, PTF.ofMappingFlags, normalForm,
    MappingFlags.isEmpty_of_contains_read hf]
  generalize f.contains .WRITE = w, f.contains .EXECUTE = x, f.contains .USER = u,
    f.contains .DEVICE = d, f.contains .UNCACHED = n
  cases kind <;> revert user w x u d n h <;> decide

/-- The address field of an aligned page. -/
theorem aligned_newPage {n : ℕ} (hp : p.toNat % 2 ^ n = 0) (h : Bool) :
    (paddr (newPage p f h : X64PTE)).toNat % 2 ^ n = 0 := by
  show (((pageBits f h ||| (p &&& PHYS_ADDR_MASK)) &&& PHYS_ADDR_MASK).toNat) % _ = 0
  rw [Mask.or_and (pageBits_and_mask f h)]
  exact aligned_and hp _

theorem decode_newPage (hk : k ≤ 2) (hp : p.toNat % 2 ^ (12 + 9 * k) = 0)
    (hf : f.contains .READ = true) : decode k (newPage p f (decide (0 < k))) =
      .page (paddr (newPage p f (decide (0 < k)) : X64PTE)) ((normalForm f).permits false) := by
  have hpage := aligned_newPage (f := f) hp (decide (0 < k))
  have hrights : PTF.rights (PTF.fromBitsTruncate
      (newPage p f (decide (0 < k)) : X64PTE).bits) = _ := rights_entry p _ hf
  have hflags : ∀ c, PHYS_ADDR_MASK &&& c = 0 → PTF.all &&& c = c →
      hasBits (PTF.fromBitsTruncate (newPage p f (decide (0 < k)) : X64PTE).bits) c =
        hasBits (pageBits f (decide (0 < k))) c :=
    fun c hm hall => hasBits_entry hm hall p f _
  have hpresent := hflags PTF.PRESENT (by decide) (by decide)
  have hhuge := hflags PTF.HUGE_PAGE (by decide) (by decide)
  rw [hasBits_present, MappingFlags.isEmpty_of_contains_read hf] at hpresent
  clear hflags
  -- only the height is left to tell apart
  generalize (newPage p f (decide (0 < k)) : X64PTE) = e at *
  cases k with
  | zero => simp [decode, hpresent, hrights]
  | succ k =>
    rw [show decide (0 < k + 1) = true from rfl, hasBits_huge] at hhuge
    simp [decode, hpresent, hrights, hhuge, hk, hpage]

theorem decode_newTable (hk : 0 < k) (p : BitVec 64) : decode k (newTable p : X64PTE) =
    .table (paddr (newTable p : X64PTE)) ⊤ := by
  have hflags : ∀ c, PHYS_ADDR_MASK &&& c = 0 → PTF.all &&& c = c →
      hasBits (PTF.fromBitsTruncate (newTable p : X64PTE).bits) c =
        hasBits (PTF.PRESENT ||| PTF.WRITABLE ||| PTF.USER_ACCESSIBLE) c :=
    fun c hm hall => hasBits_field (by decide) hm hall p
  have hrights : PTF.rights (PTF.fromBitsTruncate (newTable p : X64PTE).bits) = ⊤ := by
    funext a
    obtain ⟨user, kind⟩ := a
    simp only [PTF.rights]
    rw [hflags _ (by decide) (by decide), hflags _ (by decide) (by decide),
      hflags _ (by decide) (by decide)]
    cases kind <;> revert user <;> decide
  rw [decode]
  simp only [hflags _ (show PHYS_ADDR_MASK &&& PTF.PRESENT = 0 by decide) (by decide),
    hflags _ (show PHYS_ADDR_MASK &&& PTF.HUGE_PAGE = 0 by decide) (by decide), hrights]
  rw [if_neg (by decide), if_neg hk.ne', if_neg (by decide)]

theorem decode_empty : decode k (empty : X64PTE) = .fault := by
  rw [decode]
  exact if_pos (by decide)

/-- The flags that are kept permit nothing more. -/
theorem permits_normalForm (hf : f.contains .READ = true) {a : Access}
    (ha : (normalForm f).permits false a = true) : f.permits false a = true := by
  obtain ⟨user, kind⟩ := a
  simp only [MappingFlags.permits, normalForm, hf, MappingFlags.isEmpty_of_contains_read hf] at ha ⊢
  generalize f.contains .WRITE = w, f.contains .EXECUTE = x, f.contains .USER = u,
    f.contains .DEVICE = d, f.contains .UNCACHED = n at ha ⊢
  cases kind <;> revert user w x u d n <;> decide

end X64PTE

/-! ### RISC-V -/

/-- The rights of a leaf, with `SUM` set: a supervisor does not fetch from user pages. -/
def RvFlags.rights (fl : BitVec 64) : Rights := fun a =>
  hasBits fl A && (if a.user then hasBits fl U else !(hasBits fl U && a.kind == .fetch)) &&
    match a.kind with
    | .read => hasBits fl R
    | .write => hasBits fl W && hasBits fl D
    | .fetch => hasBits fl X

namespace Rv64PTE

variable {xuantie : Bool}

/-- The bits that are neither flags nor address, but for the memory type of XuanTie cores. -/
def RESERVED (xuantie : Bool) : BitVec 64 := when (!xuantie) (0x3ff <<< 54)

/-- Writable entries that are not readable are reserved; a leaf is readable or executable. -/
def decode (k : ℕ) (e : Rv64PTE xuantie) : Decoded (BitVec 64) Rights :=
  let fl := RvFlags.fromBitsTruncate xuantie e.bits
  if !hasBits fl RvFlags.V || (!hasBits fl RvFlags.R && hasBits fl RvFlags.W)
      || meetsBits e.bits (RESERVED xuantie) then .fault
  else if meetsBits fl (RvFlags.R ||| RvFlags.X) then
    if (paddr e).toNat % 2 ^ (12 + 9 * k) = 0 then .page (paddr e) (RvFlags.rights fl)
    else .fault
  else if k = 0 then .fault
  else .table (paddr e) ⊤

theorem rights_entry (x : BitVec 64) (hf : f.contains .READ = true) :
    RvFlags.rights (RvFlags.fromBitsTruncate xuantie
        (RvFlags.ofMappingFlags xuantie f ||| (x &&& PHYS_ADDR_MASK))) =
      (normalForm f).permits true := by
  funext a
  obtain ⟨user, kind⟩ := a
  simp only [RvFlags.rights]
  rw [hasBits_entry (by decide) (by decide), hasBits_entry (by decide) (by decide),
    hasBits_entry (by decide) (by decide), hasBits_entry (by decide) (by decide),
    hasBits_entry (by decide) (by decide), hasBits_entry (by decide) (by decide)]
  simp only [MappingFlags.permits, RvFlags.ofMappingFlags, normalForm, hf,
    MappingFlags.isEmpty_of_contains_read hf]
  generalize f.contains .WRITE = w, f.contains .EXECUTE = x, f.contains .USER = u,
    f.contains .DEVICE = d
  cases kind <;> revert xuantie user w x u d <;> decide

theorem hasBits_read (f : MappingFlags 64) :
    hasBits (RvFlags.ofMappingFlags xuantie f) RvFlags.R = (!f.isEmpty && f.contains .READ) := by
  simp only [RvFlags.ofMappingFlags]
  generalize f.isEmpty = z, f.contains .READ = r, f.contains .WRITE = w,
    f.contains .EXECUTE = x, f.contains .USER = u, f.contains .DEVICE = d
  revert xuantie z r w x u d
  decide

theorem meetsBits_reserved {a : BitVec 64} (ha : a &&& PHYS_ADDR_MASK = 0) (x : BitVec 64) :
    meetsBits (a ||| (x &&& PHYS_ADDR_MASK)) (RESERVED xuantie) =
      meetsBits a (RESERVED xuantie) := by
  have hfield : meetsBits ((a ||| (x &&& PHYS_ADDR_MASK)) &&& BitVec.allOnes 64)
      (RESERVED xuantie) = meetsBits a (RESERVED xuantie) :=
    meetsBits_field ha (by revert xuantie; decide) BitVec.allOnes_and x
  rwa [BitVec.and_allOnes] at hfield

/-- No reserved bit is set. -/
theorem meetsBits_ofMappingFlags (f : MappingFlags 64) :
    meetsBits (RvFlags.ofMappingFlags xuantie f) (RESERVED xuantie) = false := by
  simp only [RvFlags.ofMappingFlags]
  generalize f.isEmpty = z, f.contains .READ = r, f.contains .WRITE = w,
    f.contains .EXECUTE = x, f.contains .USER = u, f.contains .DEVICE = d
  revert xuantie z r w x u d
  decide

theorem aligned_newPage {n : ℕ} (hp : p.toNat % 2 ^ n = 0) (h : Bool) :
    (paddr (newPage p f h : Rv64PTE xuantie)).toNat % 2 ^ n = 0 := by
  show ((((RvFlags.ofMappingFlags xuantie f ||| ((p >>> 2) &&& PHYS_ADDR_MASK))
    &&& PHYS_ADDR_MASK) <<< 2).toNat) % _ = 0
  rw [Mask.or_and (ofMappingFlags_and_mask f), shift_field]
  exact aligned_and hp _

theorem decode_newPage (hp : p.toNat % 2 ^ (12 + 9 * k) = 0) (hf : f.contains .READ = true)
    (h : Bool) : decode k (newPage p f h : Rv64PTE xuantie) =
      .page (paddr (newPage p f h : Rv64PTE xuantie)) ((normalForm f).permits true) := by
  have hpage : (paddr (newPage p f h : Rv64PTE xuantie)).toNat % _ = 0 := aligned_newPage hp h
  have hempty := MappingFlags.isEmpty_of_contains_read hf
  have hrights : RvFlags.rights (RvFlags.fromBitsTruncate xuantie
      (newPage p f h : Rv64PTE xuantie).bits) = _ := rights_entry (p >>> 2) hf
  have hflags : ∀ c, PHYS_ADDR_MASK &&& c = 0 → (∀ x, RvFlags.all x &&& c = c) →
      hasBits (RvFlags.fromBitsTruncate xuantie (newPage p f h : Rv64PTE xuantie).bits) c =
        hasBits (RvFlags.ofMappingFlags xuantie f) c :=
    fun c hm hall => hasBits_entry hm hall (p >>> 2) f
  have hvalid := hflags RvFlags.V (by decide) (by decide)
  have hread := hflags RvFlags.R (by decide) (by decide)
  have haccepted : debugAssert (Rv64PTE xuantie) f = true :=
    LawfulPTE.read_accepted Sv39MetaData hf
  have hleaf : meetsBits (RvFlags.fromBitsTruncate xuantie
      (newPage p f h : Rv64PTE xuantie).bits) (RvFlags.R ||| RvFlags.X) = true :=
    (meetsBits_entry (p >>> 2) f).trans haccepted
  have hreserved : meetsBits (newPage p f h : Rv64PTE xuantie).bits (RESERVED xuantie) = false :=
    (meetsBits_reserved (ofMappingFlags_and_mask f) (p >>> 2)).trans (meetsBits_ofMappingFlags f)
  rw [hasBits_valid, hempty] at hvalid
  rw [hasBits_read, hempty, hf] at hread
  clear hflags
  generalize (newPage p f h : Rv64PTE xuantie) = e at *
  simp [decode, hvalid, hread, hreserved, hleaf, hpage, hrights]

theorem decode_newTable (hk : 0 < k) (p : BitVec 64) :
    decode k (newTable p : Rv64PTE xuantie) = .table (paddr (newTable p : Rv64PTE xuantie)) ⊤ := by
  have hflags : ∀ c, PHYS_ADDR_MASK &&& c = 0 → (∀ x, RvFlags.all x &&& c = c) →
      hasBits (RvFlags.fromBitsTruncate xuantie (newTable p : Rv64PTE xuantie).bits) c =
        hasBits RvFlags.V c :=
    fun c hm hall => hasBits_field (by decide) hm (hall xuantie) (p >>> 2)
  have hleaf : meetsBits (RvFlags.fromBitsTruncate xuantie (newTable p : Rv64PTE xuantie).bits)
      (RvFlags.R ||| RvFlags.X) = false := isHuge_newTable p
  have hreserved : meetsBits (newTable p : Rv64PTE xuantie).bits (RESERVED xuantie) = false := by
    refine (meetsBits_reserved (by decide) (p >>> 2)).trans ?_
    cases xuantie <;> decide
  rw [decode]
  simp only [hflags _ (show PHYS_ADDR_MASK &&& RvFlags.V = 0 by decide) (by decide),
    hflags _ (show PHYS_ADDR_MASK &&& RvFlags.R = 0 by decide) (by decide),
    hflags _ (show PHYS_ADDR_MASK &&& RvFlags.W = 0 by decide) (by decide), hleaf, hreserved]
  rw [if_neg (by decide), if_neg (by decide), if_neg hk.ne']

theorem decode_empty : decode k (empty : Rv64PTE xuantie) = .fault := by
  rw [decode]
  exact if_pos (by revert xuantie; decide)

/-- The flags that are kept permit nothing more. -/
theorem permits_normalForm (hf : f.contains .READ = true) {a : Access}
    (ha : (normalForm f).permits true a = true) : f.permits true a = true := by
  obtain ⟨user, kind⟩ := a
  simp only [MappingFlags.permits, normalForm, hf, MappingFlags.isEmpty_of_contains_read hf] at ha ⊢
  generalize f.contains .WRITE = w, f.contains .EXECUTE = x, f.contains .USER = u,
    f.contains .DEVICE = d, f.contains .UNCACHED = n at ha ⊢
  cases kind <;> revert user w x u d n <;> decide

end Rv64PTE

/-! ### AArch64 -/

namespace A64Attr

def PXN_TABLE : BitVec 64 := 1 <<< 59
def XN_TABLE : BitVec 64 := 1 <<< 60
def AP_NO_EL0_TABLE : BitVec 64 := 1 <<< 61
def AP_NO_WRITE_TABLE : BitVec 64 := 1 <<< 62

/-- The rights of a page or block, of EL2 or of EL1 and EL0: what EL0 may write, EL1 does not
execute. -/
def rights (armEl2 : Bool) (attr : BitVec 64) : Rights := fun a =>
  if armEl2 then
    !a.user && match a.kind with
      | .read => true
      | .write => !hasBits attr AP_RO
      | .fetch => !hasBits attr UXN
  else if a.user then match a.kind with
    | .read => hasBits attr AP_EL0
    | .write => hasBits attr AP_EL0 && !hasBits attr AP_RO
    | .fetch => !hasBits attr UXN
  else match a.kind with
    | .read => true
    | .write => !hasBits attr AP_RO
    | .fetch => !hasBits attr PXN && !(hasBits attr AP_EL0 && !hasBits attr AP_RO)

/-- What a table descriptor leaves. -/
def limit (armEl2 : Bool) (attr : BitVec 64) : Rights := fun a =>
  (!a.user || !hasBits attr AP_NO_EL0_TABLE) && match a.kind with
    | .read => true
    | .write => !hasBits attr AP_NO_WRITE_TABLE
    | .fetch => if armEl2 || a.user then !hasBits attr XN_TABLE else !hasBits attr PXN_TABLE

end A64Attr

namespace A64PTE

variable {armEl2 : Bool}

/-- The bits of a block address below the size of the block are ignored; the access flag is
not managed by the processor. -/
def decode (k : ℕ) (e : A64PTE armEl2) : Decoded (BitVec 64) Rights :=
  let attr := A64Attr.fromBitsTruncate e.bits
  if !hasBits attr A64Attr.VALID then .fault
  else if hasBits attr A64Attr.NON_BLOCK then
    if k = 0 then
      if hasBits attr A64Attr.AF then .page (paddr e) (A64Attr.rights armEl2 attr) else .fault
    else .table (paddr e) (A64Attr.limit armEl2 attr)
  else if (k = 1 ∨ k = 2) ∧ hasBits attr A64Attr.AF = true then
    .page (blockBase k (paddr e)) (A64Attr.rights armEl2 attr)
  else .fault

theorem rights_entry (x : BitVec 64) (h : Bool) (hf : f.contains .READ = true) :
    A64Attr.rights armEl2
        (A64Attr.fromBitsTruncate (pageBits armEl2 f h ||| (x &&& PHYS_ADDR_MASK))) =
      (normalForm armEl2 f).permits (!armEl2) := by
  funext a
  obtain ⟨user, kind⟩ := a
  simp only [A64Attr.rights]
  rw [hasBits_entry (by decide) (by decide), hasBits_entry (by decide) (by decide),
    hasBits_entry (by decide) (by decide), hasBits_entry (by decide) (by decide)]
  simp only [MappingFlags.permits, pageBits, A64Attr.ofMappingFlags, normalForm, hf,
    MappingFlags.isEmpty_of_contains_read hf]
  generalize f.contains .WRITE = w, f.contains .EXECUTE = x, f.contains .USER = u,
    f.contains .DEVICE = d, f.contains .UNCACHED = n
  cases kind <;> revert armEl2 user w x u d n h <;> decide

theorem aligned_newPage {n : ℕ} (hp : p.toNat % 2 ^ n = 0) (h : Bool) :
    (paddr (newPage p f h : A64PTE armEl2)).toNat % 2 ^ n = 0 := by
  show (((pageBits armEl2 f h ||| (p &&& PHYS_ADDR_MASK)) &&& PHYS_ADDR_MASK).toNat) % _ = 0
  rw [Mask.or_and (pageBits_and_mask f h)]
  exact aligned_and hp _

theorem decode_newPage (hk : k ≤ 2) (hp : p.toNat % 2 ^ (12 + 9 * k) = 0)
    (hf : f.contains .READ = true) : decode k (newPage p f (decide (0 < k)) : A64PTE armEl2) =
      .page (paddr (newPage p f (decide (0 < k)) : A64PTE armEl2))
        ((normalForm armEl2 f).permits (!armEl2)) := by
  have hpage : (paddr (newPage p f (decide (0 < k)) : A64PTE armEl2)).toNat % _ = 0 :=
    aligned_newPage hp _
  have hrights : A64Attr.rights armEl2 (A64Attr.fromBitsTruncate
      (newPage p f (decide (0 < k)) : A64PTE armEl2).bits) = _ := rights_entry p _ hf
  have hflags : ∀ c, PHYS_ADDR_MASK &&& c = 0 → A64Attr.all &&& c = c →
      hasBits (A64Attr.fromBitsTruncate
        (newPage p f (decide (0 < k)) : A64PTE armEl2).bits) c =
          hasBits (pageBits armEl2 f (decide (0 < k))) c :=
    fun c hm hall => hasBits_entry hm hall p f _
  have hvalid := hflags A64Attr.VALID (by decide) (by decide)
  have haf := hflags A64Attr.AF (by decide) (by decide)
  have hblock := hflags A64Attr.NON_BLOCK (by decide) (by decide)
  rw [hasBits_valid, MappingFlags.isEmpty_of_contains_read hf, hf] at hvalid
  rw [hasBits_af] at haf
  rw [hasBits_nonBlock] at hblock
  clear hflags
  generalize (newPage p f (decide (0 < k)) : A64PTE armEl2) = e at *
  cases k with
  | zero => simp [decode, hvalid, haf, hblock, hrights]
  | succ k =>
    have hk' : k = 0 ∨ k = 1 := by omega
    simp [decode, hvalid, haf, hblock, hrights, blockBase_of_aligned hpage, hk']

theorem decode_newTable (hk : 0 < k) (p : BitVec 64) :
    decode k (newTable p : A64PTE armEl2) = .table (paddr (newTable p : A64PTE armEl2)) ⊤ := by
  have hflags : ∀ c, PHYS_ADDR_MASK &&& c = 0 → A64Attr.all &&& c = c →
      hasBits (A64Attr.fromBitsTruncate (newTable p : A64PTE armEl2).bits) c =
        hasBits (A64Attr.NON_BLOCK ||| A64Attr.VALID) c :=
    fun c hm hall => hasBits_field (by decide) hm hall p
  have hlimit : A64Attr.limit armEl2
      (A64Attr.fromBitsTruncate (newTable p : A64PTE armEl2).bits) = ⊤ := by
    funext a
    obtain ⟨user, kind⟩ := a
    simp only [A64Attr.limit]
    rw [hflags _ (by decide) (by decide), hflags _ (by decide) (by decide),
      hflags _ (by decide) (by decide), hflags _ (by decide) (by decide)]
    cases kind <;> cases armEl2 <;> cases user <;> decide
  rw [decode]
  simp only [hflags _ (show PHYS_ADDR_MASK &&& A64Attr.VALID = 0 by decide) (by decide),
    hflags _ (show PHYS_ADDR_MASK &&& A64Attr.NON_BLOCK = 0 by decide) (by decide), hlimit]
  rw [if_neg (by decide), if_pos (by decide), if_neg hk.ne']

theorem decode_empty : decode k (empty : A64PTE armEl2) = .fault := by
  rw [decode]
  exact if_pos (by revert armEl2; decide)

/-- The flags that are kept permit nothing more. -/
theorem permits_normalForm (hf : f.contains .READ = true) {a : Access}
    (ha : (normalForm armEl2 f).permits (!armEl2) a = true) : f.permits (!armEl2) a = true := by
  obtain ⟨user, kind⟩ := a
  simp only [MappingFlags.permits, normalForm, hf, MappingFlags.isEmpty_of_contains_read hf] at ha ⊢
  generalize f.contains .WRITE = w, f.contains .EXECUTE = x, f.contains .USER = u,
    f.contains .DEVICE = d, f.contains .UNCACHED = n at ha ⊢
  cases kind <;> revert armEl2 user w x u d n <;> decide

end A64PTE

/-! ### LoongArch64 -/

namespace LaFlags

def RPLV : BitVec 64 := 1 <<< 63

/-- The rights of a page at privilege levels 0 and 3. -/
def rights (fl : BitVec 64) : Rights := fun a =>
  (if a.user then hasBits fl (PLVL ||| PLVH)
    else !hasBits fl RPLV || !meetsBits fl (PLVL ||| PLVH)) && match a.kind with
    | .read => !hasBits fl NR
    | .write => hasBits fl D
    | .fetch => !hasBits fl NX

end LaFlags

namespace LA64PTE

/-- The walk tests the entry of a directory for the bit of a huge page and for nothing else. -/
def decode (k : ℕ) (e : LA64PTE) : Decoded (BitVec 64) Rights :=
  let fl := LaFlags.fromBitsTruncate e.bits
  if k = 0 ∨ hasBits fl LaFlags.GH = true then
    if hasBits fl LaFlags.V then .page (blockBase k (paddr e)) (LaFlags.rights fl) else .fault
  else .table (paddr e) ⊤

theorem rights_entry (x : BitVec 64) (h : Bool) (hf : f.contains .READ = true) :
    LaFlags.rights (LaFlags.fromBitsTruncate (pageBits f h ||| (x &&& PHYS_ADDR_MASK))) =
      (normalForm f).permits false := by
  funext a
  obtain ⟨user, kind⟩ := a
  have hplv : meetsBits (LaFlags.fromBitsTruncate (pageBits f h ||| (x &&& PHYS_ADDR_MASK)))
      (LaFlags.PLVL ||| LaFlags.PLVH) = meetsBits (pageBits f h) (LaFlags.PLVL ||| LaFlags.PLVH) :=
    meetsBits_field (pageBits_and_mask f h) (by decide) (by decide) x
  simp only [LaFlags.rights]
  rw [hplv, hasBits_entry (by decide) (by decide), hasBits_entry (by decide) (by decide),
    hasBits_entry (by decide) (by decide), hasBits_entry (by decide) (by decide),
    hasBits_entry (by decide) (by decide)]
  clear hplv
  simp only [MappingFlags.permits, pageBits, LaFlags.ofMappingFlags, normalForm, hf,
    MappingFlags.isEmpty_of_contains_read hf]
  generalize f.contains .WRITE = w, f.contains .EXECUTE = x, f.contains .USER = u,
    f.contains .DEVICE = d, f.contains .UNCACHED = n
  cases kind <;> revert user w x u d n h <;> decide

theorem aligned_newPage {n : ℕ} (hp : p.toNat % 2 ^ n = 0) (h : Bool) :
    (paddr (newPage p f h : LA64PTE)).toNat % 2 ^ n = 0 := by
  show (((pageBits f h ||| (p &&& PHYS_ADDR_MASK)) &&& PHYS_ADDR_MASK).toNat) % _ = 0
  rw [Mask.or_and (pageBits_and_mask f h)]
  exact aligned_and hp _

theorem hasBits_valid (h : Bool) (f : MappingFlags 64) :
    hasBits (pageBits f h) LaFlags.V = !f.isEmpty := by
  simp only [pageBits, LaFlags.ofMappingFlags]
  generalize f.isEmpty = z, f.contains .READ = r, f.contains .WRITE = w,
    f.contains .EXECUTE = x, f.contains .USER = u, f.contains .DEVICE = d,
    f.contains .UNCACHED = n
  revert z r w x u d n h
  decide

theorem decode_newPage (hp : p.toNat % 2 ^ (12 + 9 * k) = 0) (hf : f.contains .READ = true) :
    decode k (newPage p f (decide (0 < k)) : LA64PTE) =
      .page (paddr (newPage p f (decide (0 < k)) : LA64PTE)) ((normalForm f).permits false) := by
  have hpage := aligned_newPage (f := f) hp (decide (0 < k))
  have hrights : LaFlags.rights (LaFlags.fromBitsTruncate
      (newPage p f (decide (0 < k)) : LA64PTE).bits) = _ := rights_entry p _ hf
  have hflags : ∀ c, PHYS_ADDR_MASK &&& c = 0 → LaFlags.all &&& c = c →
      hasBits (LaFlags.fromBitsTruncate (newPage p f (decide (0 < k)) : LA64PTE).bits) c =
        hasBits (pageBits f (decide (0 < k))) c :=
    fun c hm hall => hasBits_entry hm hall p f _
  have hvalid := hflags LaFlags.V (by decide) (by decide)
  have hhuge := hflags LaFlags.GH (by decide) (by decide)
  rw [hasBits_valid, MappingFlags.isEmpty_of_contains_read hf] at hvalid
  clear hflags
  generalize (newPage p f (decide (0 < k)) : LA64PTE) = e at *
  cases k with
  | zero => simp [decode, hvalid, hrights, blockBase_of_aligned hpage]
  | succ k =>
    rw [show decide (0 < k + 1) = true from rfl, hasBits_huge] at hhuge
    simp [decode, hvalid, hrights, hhuge, blockBase_of_aligned hpage]

theorem decode_newTable (hk : 0 < k) (p : BitVec 64) :
    decode k (newTable p : LA64PTE) = .table (paddr (newTable p : LA64PTE)) ⊤ := by
  have hhuge : hasBits (LaFlags.fromBitsTruncate (newTable p : LA64PTE).bits) LaFlags.GH = false :=
    (hasBits_newTable (by decide) (by decide) p).trans (by decide)
  simp [decode, hhuge, hk.ne']

/-- The zero entry of a directory is taken for a table at address zero. -/
theorem decode_empty : decode 0 (empty : LA64PTE) = .fault := by
  rw [decode]
  exact if_pos (by decide)

/-- The flags that are kept permit nothing more. -/
theorem permits_normalForm (hf : f.contains .READ = true) {a : Access}
    (ha : (normalForm f).permits false a = true) : f.permits false a = true := by
  obtain ⟨user, kind⟩ := a
  simp only [MappingFlags.permits, normalForm, hf, MappingFlags.isEmpty_of_contains_read hf] at ha ⊢
  generalize f.contains .WRITE = w, f.contains .EXECUTE = x, f.contains .USER = u,
    f.contains .DEVICE = d, f.contains .UNCACHED = n at ha ⊢
  cases kind <;> revert user w x u d n <;> decide

end LA64PTE

namespace Arch

/-- What an entry at a height means to the processor. -/
def decode : (arch : Arch) → ℕ → arch.PTE → Decoded (BitVec 64) Rights
  | x64 => X64PTE.decode
  | a64 _ => A64PTE.decode
  | sv39 _ => Rv64PTE.decode
  | sv48 _ => Rv64PTE.decode
  | la64 => LA64PTE.decode

/-- Privileged code does not fetch from user pages. -/
def apart : Arch → Bool
  | x64 | la64 => false
  | a64 armEl2 => !armEl2
  | sv39 _ | sv48 _ => true

/-- The accesses that flags permit. -/
def permits (arch : Arch) (g : MappingFlags 64) : Rights := g.permits arch.apart

variable (arch : Arch)

/-- An entry made for a readable page that is aligned to its size is that page, with the rights
that its flags tell. -/
theorem decode_newPage (hk : k ≤ 2) (hp : p.toNat % 2 ^ (12 + 9 * k) = 0)
    (hf : f.contains .READ = true) :
    arch.decode k (newPage p f (decide (0 < k)) : arch.PTE) =
      .page (paddr (newPage p f (decide (0 < k)) : arch.PTE))
        (arch.permits (flags (newPage p f (decide (0 < k)) : arch.PTE))) := by
  rw [LawfulPTE.flags_newPage arch.metaData]
  cases arch with
  | x64 =>
    show _ = Decoded.page _ ((normalise X64PTE f).permits false)
    rw [X64PTE.normalise_eq]
    exact X64PTE.decode_newPage hk hp hf
  | a64 armEl2 =>
    show _ = Decoded.page _ ((normalise (A64PTE armEl2) f).permits (!armEl2))
    rw [A64PTE.normalise_eq]
    exact A64PTE.decode_newPage hk hp hf
  | sv39 xuantie =>
    show _ = Decoded.page _ ((normalise (Rv64PTE xuantie) f).permits true)
    rw [Rv64PTE.normalise_eq]
    exact Rv64PTE.decode_newPage hp hf _
  | sv48 xuantie =>
    show _ = Decoded.page _ ((normalise (Rv64PTE xuantie) f).permits true)
    rw [Rv64PTE.normalise_eq]
    exact Rv64PTE.decode_newPage hp hf _
  | la64 =>
    show _ = Decoded.page _ ((normalise LA64PTE f).permits false)
    rw [LA64PTE.normalise_eq]
    exact LA64PTE.decode_newPage hp hf

/-- A table entry leads to its table and limits nothing. -/
theorem decode_newTable (hk : 0 < k) (p : BitVec 64) :
    arch.decode k (newTable p : arch.PTE) = .table (paddr (newTable p : arch.PTE)) ⊤ := by
  cases arch with
  | x64 => exact X64PTE.decode_newTable hk p
  | a64 armEl2 => exact A64PTE.decode_newTable hk p
  | sv39 xuantie => exact Rv64PTE.decode_newTable hk p
  | sv48 xuantie => exact Rv64PTE.decode_newTable hk p
  | la64 => exact LA64PTE.decode_newTable hk p

/-- An unused entry faults, but above the last level of LoongArch64. -/
theorem decode_empty (h : arch ≠ .la64 ∨ k = 0) :
    arch.decode k (empty : arch.PTE) = .fault := by
  cases arch with
  | x64 => exact X64PTE.decode_empty (k := k)
  | a64 armEl2 => exact A64PTE.decode_empty (k := k)
  | sv39 xuantie => exact Rv64PTE.decode_empty (k := k)
  | sv48 xuantie => exact Rv64PTE.decode_empty (k := k)
  | la64 =>
    obtain rfl : k = 0 := h.resolve_left fun hne => hne rfl
    exact LA64PTE.decode_empty

/-- The rights of an entry are among those asked for. -/
theorem permits_normalise (hf : f.contains .READ = true) {a : Access}
    (ha : arch.permits (normalise arch.PTE f) a = true) : f.permits arch.apart a = true := by
  cases arch with
  | x64 =>
    change (normalise X64PTE f).permits false a = true at ha
    rw [X64PTE.normalise_eq] at ha
    exact X64PTE.permits_normalForm hf ha
  | a64 armEl2 =>
    change (normalise (A64PTE armEl2) f).permits (!armEl2) a = true at ha
    rw [A64PTE.normalise_eq] at ha
    exact A64PTE.permits_normalForm hf ha
  | sv39 xuantie | sv48 xuantie =>
    change (normalise (Rv64PTE xuantie) f).permits true a = true at ha
    rw [Rv64PTE.normalise_eq] at ha
    exact Rv64PTE.permits_normalForm hf ha
  | la64 =>
    change (normalise LA64PTE f).permits false a = true at ha
    rw [LA64PTE.normalise_eq] at ha
    exact LA64PTE.permits_normalForm hf ha

end Arch

end PageTableMultiarch
