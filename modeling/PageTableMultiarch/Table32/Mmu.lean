/-
The translation of addresses by an ARMv7-A processor.

The processor reads the descriptors in memory by itself: that of the first level at the index of
the section, in the table that `TTBR0` points to, and that of the second level, if there is one.
The crate misreads some of the descriptors that it writes; the processor does not.

* `Represents.access_eq` — the processor finds the frame that a page is mapped to, and leaves the
  rights that its flags tell;
* `a32_translates` — so it is in every run of plain calls.
-/
import PageTableMultiarch.Entry.A32Hardware
import PageTableMultiarch.Table32.Refinement

namespace PageTableMultiarch.Bits32

open GenericPTE A32PTE PageWalk

variable {B : Build} {M : PagingMetaData} {σ : Type} {H : PagingHandler 32 σ}
  {inUse : σ → Set ℕ} {root : PhysAddr} {w w' : World A32PTE σ} {s : Space σ} {v : VirtAddr}

/-! ### The walk of the processor -/

/-- The bits of the base address in `TTBR0`. -/
def TTBR0_MASK : BitVec 32 := 0xffffc000

/-- The indices of an address. -/
def walkPath (v : VirtAddr) : List (BitVec 32) := [v >>> 20, (v >>> 12) &&& 0xff]

/-- The address of a descriptor is put together from that of the table and the index. -/
def fetch (mem : PhysAddr → A32PTE) (table : PhysAddr) (index : BitVec 32) : A32PTE :=
  mem (table ||| index <<< 2)

/-- The bits of an address that are not translated. -/
def pageOffset (k : ℕ) (v : VirtAddr) : BitVec 32 := v &&& if k = 0 then 0xfff else 0xfffff

/-- Where an access to an address goes, and which accesses are permitted; no result is a fault. -/
def access (ttbr0 : PhysAddr) (mem : PhysAddr → A32PTE) (v : VirtAddr) :
    Option (PhysAddr × Rights) :=
  (PageWalk.translate A32PTE.decode (fetch mem) ⊤ (ttbr0 &&& TTBR0_MASK) (walkPath v)).map
    fun found => (found.1 ||| pageOffset found.2.2 v, found.2.1)

/-! ### Aligned addresses -/

theorem toNat_or_of_aligned {n : ℕ} {t i : BitVec 32} (ht : t.toNat % 2 ^ n = 0)
    (hi : i.toNat < 2 ^ n) : (t ||| i).toNat = t.toNat + i.toNat := by
  have hdiv := Nat.div_add_mod t.toNat (2 ^ n)
  rw [ht, Nat.add_zero] at hdiv
  rw [BitVec.toNat_or, ← hdiv, Nat.two_pow_add_eq_or_of_lt hi]

theorem toNat_shiftLeft_two {i : BitVec 32} (hi : i.toNat < 4096) :
    (i <<< 2).toNat = 4 * i.toNat := by
  rw [BitVec.toNat_shiftLeft, Nat.shiftLeft_eq]
  omega

theorem and_ttbr0 (hroot : root.toNat % L1_ALIGN = 0) : root &&& TTBR0_MASK = root := by
  apply BitVec.eq_of_toNat_eq
  rw [L1_ALIGN] at hroot
  rw [Mask.toNat_and_of_lt (k := 14) (n := 32) (by decide) (by decide) root.isLt]
  omega

/-- The descriptor of the first level is the entry of the first level. -/
theorem fetch_root (hroot : root.toNat % L1_ALIGN = 0) (v : VirtAddr) :
    fetch w.mem root (v >>> 20) = w.entry (l1Slot root v) := by
  have hv := v.isLt
  have hindex : (v >>> 20).toNat = v.toNat / 0x100000 := by
    rw [BitVec.toNat_ushiftRight, Nat.shiftRight_eq_div_pow]
  have hshift := toNat_shiftLeft_two (i := v >>> 20) (by omega)
  have haddr : root ||| (v >>> 20) <<< 2 = (l1Slot root v).addr := by
    apply BitVec.eq_of_toNat_eq
    rw [toNat_l1At hroot, p1Index_val, ← hindex, ← hshift]
    exact toNat_or_of_aligned (n := 14) hroot (by omega)
  rw [fetch, haddr]
  rfl

/-- The descriptor of the second level is the entry of the second level. -/
theorem fetch_table {p : PhysAddr} (hp : p.toNat % 0x1000 = 0) (v : VirtAddr) :
    fetch w.mem (p &&& PAGE_TABLE_ADDR_MASK) (v >>> 12 &&& 0xff) =
      w.entry (l2Slot (newTable p : A32PTE) v) := by
  have hpaddr : paddr (newTable p : A32PTE) = p := physAddr_newTable hp
  have hmask : p &&& PAGE_TABLE_ADDR_MASK = p := by
    apply BitVec.eq_of_toNat_eq
    rw [Mask.toNat_and_of_lt (k := 10) (n := 32) (by decide) (by decide) p.isLt]
    omega
  have hindex : (v >>> 12 &&& 0xff).toNat = (p2Index v).val := rfl
  have hlt := p2Index_lt v
  have hshift := toNat_shiftLeft_two (i := v >>> 12 &&& 0xff) (by omega)
  have haddr : p ||| (v >>> 12 &&& 0xff) <<< 2 = (l2Slot (newTable p : A32PTE) v).addr := by
    apply BitVec.eq_of_toNat_eq
    rw [toNat_l2Slot (by rw [hpaddr]; exact hp), hpaddr, ← hindex, ← hshift]
    exact toNat_or_of_aligned (n := 12) hp (by omega)
  rw [fetch, hmask, haddr]
  rfl

/-- An address in a page. -/
theorem or_pageOffset {p : PhysAddr} {size : PageSize} {k : ℕ}
    (hsize : size = .size4K ∧ k = 0 ∨ size = .size1M ∧ k = 1)
    (hp : p.toNat % size.bytes = 0) (v : VirtAddr) :
    p ||| pageOffset k v = p + size.alignOffset v := by
  have hoffset : pageOffset k v = size.alignOffset v := by
    obtain ⟨rfl, rfl⟩ | ⟨rfl, rfl⟩ := hsize <;> rfl
  have hnat := PageSize.toNat_alignOffset (w := 32) le_rfl size v
  have hlt := p.isLt
  apply BitVec.eq_of_toNat_eq
  rw [hoffset, BitVec.toNat_add]
  obtain ⟨rfl, -⟩ | ⟨rfl, -⟩ := hsize
  · simp only [PageSize.bytes] at hp hnat
    rw [toNat_or_of_aligned (n := 12) hp (by omega)]
    omega
  · simp only [PageSize.bytes] at hp hnat
    rw [toNat_or_of_aligned (n := 20) hp (by omega)]
    omega

/-! ### What the processor finds -/

/-- The frame that a mapping points to, at an address of its page, and the rights. -/
def Mapping.meaning (x : Mapping) (size : PageSize) (v : VirtAddr) : PhysAddr × Rights :=
  (x.frame + size.alignOffset v, (normalForm x.flags).permits false)

/-- The processor finds the frame that the page of an address is mapped to, and the rights that its
flags tell. -/
theorem Represents.access_eq (R : Represents inUse root s w) (v : VirtAddr) :
    access root w.mem v = (s.find v).map fun found => found.2.meaning found.1.size v := by
  have hroot := R.layout.root_aligned
  rw [access, and_ttbr0 hroot, walkPath, PageWalk.translate, fetch_root hroot]
  cases hu : isUnused (w.entry (l1Slot root v)) with
  | true =>
    rw [R.leaf_none.mp (leafAt_of_unused hu)]
    dsimp only [List.length]
    rw [decode_unused hu]
    rfl
  | false =>
    cases hh : isHuge (w.entry (l1Slot root v)) with
    | true =>
      -- a section
      have hleaf := R.leaf v
      rw [leafAt_of_huge hh, eq_comm, Option.map_eq_some_iff] at hleaf
      obtain ⟨⟨page, x⟩, hfind, heq⟩ := hleaf
      obtain ⟨he, hsize⟩ := Prod.mk.inj heq
      have hfits := R.fits (Space.page_of_find hfind).2
      dsimp only at he hsize
      rw [hsize] at he hfits
      have haligned := hfits.aligned
      have hmask : x.frame &&& SECTION_ADDR_MASK = x.frame := by
        apply BitVec.eq_of_toNat_eq
        rw [toNat_and_section]
        simp only [PageSize.bytes] at haligned
        omega
      have hdecode := decode_newSection x.frame hfits.access
      rw [hmask] at hdecode
      rw [hfind, ← he]
      dsimp only [List.length]
      rw [show x.entry .size1M = newSection x.frame x.flags from rfl, hdecode]
      dsimp only [Option.map]
      rw [or_pageOffset (Or.inr ⟨rfl, rfl⟩) haligned, top_inf_eq, Mapping.meaning, hsize]
    | false =>
      -- a table
      obtain ⟨p, hentry, hp, -⟩ := R.layout.link (i := p1Index v) hu hh
      have hfirst : w.entry (l1Slot root v) = newTable p := hentry
      rw [hfirst] at hu hh
      have hleaf : leafAt root v w.mem = _ :=
        leafAt_of_table (by rw [hfirst]; exact hu) (by rw [hfirst]; exact hh)
      rw [hfirst, R.leaf] at hleaf
      rw [hfirst]
      dsimp only [List.length]
      rw [decode_newTable]
      dsimp only
      rw [PageWalk.translate, fetch_table hp, top_inf_eq]
      dsimp only [List.length]
      cases hu₂ : isUnused (w.entry (l2Slot (newTable p : A32PTE) v)) with
      | true =>
        rw [hu₂, if_pos rfl, Option.map_eq_none_iff] at hleaf
        rw [hleaf, decode_unused hu₂]
        rfl
      | false =>
        rw [hu₂, if_neg Bool.false_ne_true, Option.map_eq_some_iff] at hleaf
        obtain ⟨⟨page, x⟩, hfind, heq⟩ := hleaf
        obtain ⟨he, hsize⟩ := Prod.mk.inj heq
        have hfits := R.fits (Space.page_of_find hfind).2
        dsimp only at he hsize
        rw [hsize] at he hfits
        have haligned := hfits.aligned
        have hdecode := decode_newSmallPage x.frame hfits.access
        rw [and_smallPage_of_aligned haligned] at hdecode
        rw [hfind, ← he, show x.entry .size4K = newSmallPage x.frame x.flags from rfl, hdecode]
        dsimp only [Option.map]
        rw [or_pageOffset (Or.inl ⟨rfl, rfl⟩) haligned, top_inf_eq, Mapping.meaning, hsize]

/-- From a new table on, after any calls with page sizes 4K or 1M and flags that are not empty, the
processor translates each address as the address space maps it. -/
theorem a32_translates (hH : FreshFrames H inUse) {self : PageTable32 B M A32PTE H}
    {w₀ : World A32PTE σ} (h : PageTable32.tryNew B M A32PTE H w₀ = (.ok self, w))
    (cs : List Call) (hcs : ∀ c ∈ cs, c.Plain) (v : VirtAddr) :
    access self.rootPaddr (runCalls (Call.exec self) cs w).2.mem v =
      ((runCalls (Call.spec B H) cs (Space.new w.os)).2.find v).map fun found =>
        found.2.meaning found.1.size v :=
  (runCalls_agree hH self cs hcs (represents_new hH h)).2.access_eq v

/-- A section and an executable page, which loses the right to be written. -/
theorem a32_translates_run :
    access 0x4000 (runCalls (Call.exec (firstTable ⟨true, true⟩ 16))
        [.map 0x100000 0x40000000 .size1M .READ, .map 0x1000 0x5000 .size4K ⟨7⟩,
          .protect 0x1000 ⟨5⟩] firstWorld).2.mem 0x1234 =
      ((runCalls (Call.spec ⟨true, true⟩ (bumpHandler 16))
        [.map 0x100000 0x40000000 .size1M .READ, .map 0x1000 0x5000 .size4K ⟨7⟩,
          .protect 0x1000 ⟨5⟩] (Space.new firstWorld.os)).2.find 0x1234).map fun found =>
        found.2.meaning found.1.size 0x1234 :=
  a32_translates (freshFrames_bumpHandler (by decide)) (tryNew_blankWorld 9) _ (by decide) 0x1234

end PageTableMultiarch.Bits32
