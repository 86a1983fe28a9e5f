/-
What `query` and `unmap` of a `PageTable32` return for a page that has just been mapped.

* `sections_readBack_iff` — a section is read back as it was mapped, unless it lies in the first
  megabyte and is not writable device memory;
* `flags_readBack_iff` — the flags of a small page are read back exactly if `FlagsKept`.
-/
import PageTableMultiarch.Table32.Run

namespace PageTableMultiarch.Bits32

open GenericPTE A32PTE

variable {B : Build} {M : PagingMetaData} {σ : Type} {H : PagingHandler 32 σ}
  {inUse : σ → Set ℕ} {w w' : World A32PTE σ} (self : PageTable32 B M A32PTE H)

/-! ### Reading an entry -/

/-- What the methods return for an entry that a walk finds. -/
theorem readBack_of_find {v : VirtAddr} {slot : Slot} {size : PageSize} {e : A32PTE}
    (hfind : find self.rootPaddr v w.mem = some (slot, size)) (he : w.entry slot = e)
    (hused : isUnused e = false) :
    (self.query v w).1 = .ok (paddr e + size.alignOffset v, flags e, size) ∧
      (self.unmap v w).1 = .ok (paddr e, flags e, size) := by
  rw [PageTable32.query_apply, PageTable32.unmap_apply, hfind]
  dsimp only
  rw [he, hused]
  exact ⟨rfl, rfl⟩

theorem readBack_section {v : VirtAddr} {e : A32PTE}
    (he : w.entry (l1Slot self.rootPaddr v) = e) (hhuge : isHuge e = true) :
    (self.query v w).1 = .ok (paddr e + PageSize.size1M.alignOffset v, flags e, .size1M) ∧
      (self.unmap v w).1 = .ok (paddr e, flags e, .size1M) := by
  have hfind : find self.rootPaddr v w.mem = some (l1Slot self.rootPaddr v, .size1M) :=
    find_section (by rw [he]; exact hhuge)
  have hused := (find_cases hfind).1
  rw [he] at hused
  exact readBack_of_find self hfind he hused

theorem readBack_page {v : VirtAddr} {e₁ e : A32PTE}
    (he₁ : w.entry (l1Slot self.rootPaddr v) = e₁) (hu : isUnused e₁ = false)
    (hh : isHuge e₁ = false) (he : w.entry (l2Slot e₁ v) = e) (hused : isUnused e = false) :
    (self.query v w).1 = .ok (paddr e + PageSize.size4K.alignOffset v, flags e, .size4K) ∧
      (self.unmap v w).1 = .ok (paddr e, flags e, .size4K) := by
  subst he₁
  exact readBack_of_find self (find_page hu hh) he hused

/-- What a successful `map` has done. -/
theorem map_ok {v : VirtAddr} {target : PhysAddr} {size : PageSize} {f : MappingFlags 32}
    (hmap : (self.map v target size f w).1 = .ok ()) : ∃ slot w₁,
      self.getEntryMutOrCreate v size w = (.ok slot, w₁) ∧ isUnused (w₁.entry slot) = true ∧
        (self.map v target size f w).2 = ((w₁.touch slot.table).store slot
          (newPage (MemoryAddr.alignDown target (size.toUsize 32)) f size.isHuge)).queue v := by
  rw [PageTable32.map_apply] at hmap ⊢
  rcases hr : self.getEntryMutOrCreate v size w with ⟨slot | err | _, w₁⟩
  · rw [hr] at hmap
    dsimp only at hmap ⊢
    refine ⟨slot, w₁, rfl, ?_⟩
    split at hmap
    · next hu => exact ⟨hu, by rw [if_pos hu]⟩
    · nomatch hmap
  · rw [hr] at hmap
    nomatch hmap
  · rw [hr] at hmap
    nomatch hmap

/-! ### Sections -/

theorem alignDown_section (p : PhysAddr) :
    MemoryAddr.alignDown p (PageSize.size1M.toUsize 32) = p &&& SECTION_ADDR_MASK := rfl

theorem p1Index_of_same_section {v v' : VirtAddr}
    (h : v'.toNat / 0x100000 = v.toNat / 0x100000) : p1Index v' = p1Index v :=
  Fin.ext (by rw [p1Index_val, p1Index_val, h])

/-- The first level entry after a section has been mapped. -/
theorem map_section_entry {v : VirtAddr} {target : PhysAddr} {f : MappingFlags 32}
    (hmap : (self.map v target .size1M f w).1 = .ok ()) :
    (self.map v target .size1M f w).2.entry (l1Slot self.rootPaddr v) =
      newSection (target &&& SECTION_ADDR_MASK) f := by
  obtain ⟨slot, w₁, hcreate, -, heq⟩ := map_ok self hmap
  rw [PageTable32.getEntryMutOrCreate_apply, if_pos rfl] at hcreate
  obtain ⟨hslot, -⟩ := Prod.mk.inj hcreate
  obtain rfl := Res.ok.inj hslot
  rw [heq, World.queue_entry, World.store_entry, if_pos rfl]
  rfl

/-- A section that has been mapped with readable flags is read back as it was mapped at each of
its addresses, exactly if it lies above the first megabyte or is writable device memory. -/
theorem sections_readBack_iff {v : VirtAddr} {target : PhysAddr} {f : MappingFlags 32}
    (hf : f.contains .READ = true) (hmap : (self.map v target .size1M f w).1 = .ok ()) :
    (∀ v' : VirtAddr, v'.toNat / 0x100000 = v.toNat / 0x100000 →
      (self.query v' (self.map v target .size1M f w).2).1 =
          .ok (MemoryAddr.alignDown target (PageSize.size1M.toUsize 32) +
            PageSize.size1M.alignOffset v', normalForm f, .size1M) ∧
        (self.unmap v' (self.map v target .size1M f w).2).1 =
          .ok (MemoryAddr.alignDown target (PageSize.size1M.toUsize 32), normalForm f, .size1M)) ↔
      0x100000 ≤ target.toNat ∨ f.contains .DEVICE = true ∧ f.contains .WRITE = true := by
  have hne : f.isEmpty = false := isEmpty_of_contains_read hf
  have hhuge : isHuge (newSection (target &&& SECTION_ADDR_MASK) f) = true := by
    rw [isHuge_iff, descriptorType_newSection, hne]
    rfl
  have hread : ∀ v' : VirtAddr, v'.toNat / 0x100000 = v.toNat / 0x100000 →
      (self.query v' (self.map v target .size1M f w).2).1 =
          .ok (paddr (newSection (target &&& SECTION_ADDR_MASK) f) +
            PageSize.size1M.alignOffset v', normalForm f, .size1M) ∧
        (self.unmap v' (self.map v target .size1M f w).2).1 =
          .ok (paddr (newSection (target &&& SECTION_ADDR_MASK) f), normalForm f, .size1M) := by
    intro v' hv'
    rw [← flags_newSection (target &&& SECTION_ADDR_MASK) f]
    refine readBack_section self ?_ hhuge
    rw [l1Slot, p1Index_of_same_section hv']
    exact map_section_entry self hmap
  have hkept : paddr (newSection (target &&& SECTION_ADDR_MASK) f) = target &&& SECTION_ADDR_MASK ↔
      0x100000 ≤ target.toNat ∨ f.contains .DEVICE = true ∧ f.contains .WRITE = true := by
    have hiff := physAddr_newSection_eq_iff (target &&& SECTION_ADDR_MASK) hne
    rw [BitVec.and_assoc, BitVec.and_self, toNat_and_section] at hiff
    refine hiff.trans (or_congr_left ?_)
    omega
  rw [← hkept, alignDown_section]
  constructor
  · -- one address of the section tells the address of the entry
    intro h
    have hunmap := (h v rfl).2.symm.trans (hread v rfl).2
    exact (congrArg Prod.fst (Res.ok.inj hunmap)).symm
  · intro heq v' hv'
    have h := hread v' hv'
    rw [heq] at h
    exact h

/-- A section of the second gigabyte. -/
theorem sections_readBack_iff_run :
    (∀ v' : VirtAddr, v'.toNat / 0x100000 = (0x100000 : VirtAddr).toNat / 0x100000 →
      ((firstTable ⟨true, true⟩ 16).query v' ((firstTable ⟨true, true⟩ 16).map 0x100000 0x40000000
          .size1M .READ firstWorld).2).1 =
          .ok (MemoryAddr.alignDown 0x40000000 (PageSize.size1M.toUsize 32) +
            PageSize.size1M.alignOffset v', normalForm .READ, .size1M) ∧
        ((firstTable ⟨true, true⟩ 16).unmap v' ((firstTable ⟨true, true⟩ 16).map 0x100000
          0x40000000 .size1M .READ firstWorld).2).1 =
          .ok (MemoryAddr.alignDown 0x40000000 (PageSize.size1M.toUsize 32), normalForm .READ,
            .size1M)) ↔
      0x100000 ≤ (0x40000000 : PhysAddr).toNat ∨
        MappingFlags.contains (w := 32) .READ .DEVICE = true ∧
          MappingFlags.contains (w := 32) .READ .WRITE = true :=
  sections_readBack_iff (firstTable ⟨true, true⟩ 16) (by decide) (by decide +kernel)

/-- A section at physical address zero is read back with its attributes in the address. -/
theorem section_leaks_attributes :
    Reachable (firstTable ⟨true, true⟩ 16) firstWorld ∧
      ((firstTable ⟨true, true⟩ 16).map 0x100000 0 .size1M .READ firstWorld).1 = .ok () ∧
      ((firstTable ⟨true, true⟩ 16).query 0x100000 ((firstTable ⟨true, true⟩ 16).map 0x100000 0
        .size1M .READ firstWorld).2).1 = .ok (0x19000, .READ, .size1M) ∧
      (0x19000 : PhysAddr) ≠ MemoryAddr.alignDown 0 (PageSize.size1M.toUsize 32) +
        PageSize.size1M.alignOffset 0x100000 :=
  ⟨reachable_firstWorld 9, by decide +kernel, by decide +kernel, by decide⟩

/-! ### Small pages -/

theorem alignDown_smallPage (p : PhysAddr) :
    MemoryAddr.alignDown p (PageSize.size4K.toUsize 32) = p &&& SMALL_PAGE_ADDR_MASK := rfl

theorem alignDown_aligned (p : PhysAddr) :
    (MemoryAddr.alignDown p (PageSize.size4K.toUsize 32)).toNat % 0x1000 = 0 := by
  rw [alignDown_smallPage, toNat_and_smallPage]
  omega

/-- The entries after a small page has been mapped: the first level entry is the old one or points
to a new table. -/
theorem map_page_entries (hH : FreshFrames H inUse)
    (L : Layout SectionEntry inUse self.rootPaddr w) {v : VirtAddr} {target : PhysAddr}
    {f : MappingFlags 32} (hmap : (self.map v target .size4K f w).1 = .ok ()) : ∃ e₁ : A32PTE,
      (self.map v target .size4K f w).2.entry (l1Slot self.rootPaddr v) = e₁ ∧
        isUnused e₁ = false ∧ isHuge e₁ = false ∧
        (self.map v target .size4K f w).2.entry (l2Slot e₁ v) =
          newSmallPage (MemoryAddr.alignDown target (PageSize.size4K.toUsize 32)) f ∧
        (isUnused (w.entry (l1Slot self.rootPaddr v)) = true → ∃ p, e₁ = newTable p) ∧
        (isUnused (w.entry (l1Slot self.rootPaddr v)) = false →
          e₁ = w.entry (l1Slot self.rootPaddr v) ∧ ∀ j, (self.map v target .size4K f w).2.entry
            (l1At self.rootPaddr j) = w.entry (l1At self.rootPaddr j)) := by
  obtain ⟨slot, w₁, hcreate, -, heq⟩ := map_ok self hmap
  obtain ⟨hsteps, hfound⟩ := getEntryMutOrCreate_steps (V := fun _ => True) (S := SectionEntry)
    (w := w) self (v := v) trivial .size4K
  rw [hcreate] at hsteps hfound
  have hL₁ : Layout SectionEntry inUse self.rootPaddr w₁ := hsteps.layout hH (fun _ h => h) L
  obtain ⟨hsize, -⟩ | ⟨-, hfind⟩ := hfound slot rfl
  · nomatch hsize
  dsimp only at hfind
  obtain ⟨hu, ⟨-, -, hsize⟩ | ⟨hh, rfl, -⟩⟩ := find_cases hfind
  · nomatch hsize
  -- the store in the second level leaves the first level alone
  have hl1 : ∀ j, (self.map v target .size4K f w).2.entry (l1At self.rootPaddr j) =
      w₁.entry (l1At self.rootPaddr j) := by
    intro j
    rw [heq, World.queue_entry, World.store_entry,
      if_neg (hL₁.l2_ne_l1 (fun _ h => h) (i := p1Index v) hh v j), World.touch_entry]
  refine ⟨w₁.entry (l1Slot self.rootPaddr v), hl1 _, hu, hh, ?_, fun hunused => ?_, fun hused => ?_⟩
  · rw [heq, World.queue_entry, World.store_entry, if_pos rfl]
    rfl
  · -- the walk has created a table
    rw [PageTable32.getEntryMutOrCreate_apply, if_neg (by decide)] at hcreate
    dsimp only at hcreate
    rw [hunused, if_pos rfl] at hcreate
    rcases ha : H.allocFrame w.os with ⟨_ | p, os⟩
    · rw [ha] at hcreate
      exact absurd (congrArg Prod.fst hcreate) (by simp)
    · rw [ha] at hcreate
      refine ⟨p, ?_⟩
      rw [← (Prod.mk.inj hcreate).2, World.store_entry, if_pos rfl]
  · -- the walk has changed nothing
    have hmem : ∀ j, w₁.entry (l1At self.rootPaddr j) = w.entry (l1At self.rootPaddr j) := by
      intro j
      rw [PageTable32.getEntryMutOrCreate_apply, if_neg (by decide)] at hcreate
      dsimp only at hcreate
      rw [hused, if_neg Bool.false_ne_true] at hcreate
      split at hcreate
      · exact absurd (congrArg Prod.fst hcreate) (by simp)
      · rw [← (Prod.mk.inj hcreate).2]
        rfl
    exact ⟨hmem _, fun j => (hl1 j).trans (hmem j)⟩

/-- What is read back of a small page that has been mapped. -/
theorem map_page_readBack (hH : FreshFrames H inUse)
    (L : Layout SectionEntry inUse self.rootPaddr w) {v : VirtAddr} {target : PhysAddr}
    {f : MappingFlags 32} (hf : f.isEmpty = false)
    (hmap : (self.map v target .size4K f w).1 = .ok ()) :
    let e := newSmallPage (MemoryAddr.alignDown target (PageSize.size4K.toUsize 32)) f
    (self.query v (self.map v target .size4K f w).2).1 =
        .ok (paddr e + PageSize.size4K.alignOffset v, flags e, .size4K) ∧
      (self.unmap v (self.map v target .size4K f w).2).1 = .ok (paddr e, flags e, .size4K) := by
  obtain ⟨e₁, he₁, hu, hh, he, -, -⟩ := map_page_entries self hH L hmap
  exact readBack_page self he₁ hu hh he (newSmallPage_not_unused _ hf)

/-- The flags of a small page that has been mapped are read back exactly if the decoder of
sections finds them. -/
theorem flags_readBack_iff (hH : FreshFrames H inUse) (hw : Reachable self w) {v : VirtAddr}
    {target : PhysAddr} {f : MappingFlags 32} (hf : f.contains .READ = true)
    (hmap : (self.map v target .size4K f w).1 = .ok ()) :
    ((∃ p size, (self.query v (self.map v target .size4K f w).2).1 =
        .ok (p, normalForm f, size)) ∧
      ∃ p size, (self.unmap v (self.map v target .size4K f w).2).1 = .ok (p, normalForm f, size)) ↔
      FlagsKept target f := by
  have hne : f.isEmpty = false := isEmpty_of_contains_read hf
  obtain ⟨hquery, hunmap⟩ := map_page_readBack self hH (hw.layout hH) hne hmap
  have hiff := flags_newSmallPage_iff (MemoryAddr.alignDown target (PageSize.size4K.toUsize 32)) hne
  have hkept : FlagsKept (MemoryAddr.alignDown target (PageSize.size4K.toUsize 32)) f ↔
      FlagsKept target f := by
    have h12 : (MemoryAddr.alignDown target (PageSize.size4K.toUsize 32)).toNat / 0x1000 =
        target.toNat / 0x1000 := by
      rw [alignDown_smallPage, toNat_and_smallPage]
      omega
    have h15 : (MemoryAddr.alignDown target (PageSize.size4K.toUsize 32)).toNat / 0x8000 =
        target.toNat / 0x8000 := by
      rw [alignDown_smallPage, toNat_and_smallPage]
      omega
    rw [FlagsKept, FlagsKept, h12, h15]
  rw [← hkept, ← hiff]
  constructor
  · rintro ⟨⟨p, size, h⟩, -⟩
    have heq := Res.ok.inj (hquery.symm.trans h)
    exact congrArg (fun r => r.2.1) heq
  · intro heq
    rw [heq] at hquery hunmap
    exact ⟨⟨_, _, hquery⟩, ⟨_, _, hunmap⟩⟩

/-- A readable page below a multiple of 64 KiB. -/
theorem flags_readBack_iff_run :
    ((∃ p size, ((firstTable ⟨true, true⟩ 16).query 0x1000 ((firstTable ⟨true, true⟩ 16).map
        0x1000 0x4000f000 .size4K .READ firstWorld).2).1 = .ok (p, normalForm .READ, size)) ∧
      ∃ p size, ((firstTable ⟨true, true⟩ 16).unmap 0x1000 ((firstTable ⟨true, true⟩ 16).map
        0x1000 0x4000f000 .size4K .READ firstWorld).2).1 = .ok (p, normalForm .READ, size)) ↔
      FlagsKept 0x4000f000 .READ :=
  flags_readBack_iff (firstTable ⟨true, true⟩ 16) (freshFrames_bumpHandler (by decide))
    (reachable_firstWorld 9) (by decide) (by decide +kernel)

/-- A readable page at another address is read back as writable. -/
theorem flags_misread :
    Reachable (firstTable ⟨true, true⟩ 16) firstWorld ∧
      ((firstTable ⟨true, true⟩ 16).map 0x1000 0x40000000 .size4K .READ firstWorld).1 = .ok () ∧
      ((firstTable ⟨true, true⟩ 16).query 0x1000 ((firstTable ⟨true, true⟩ 16).map 0x1000
        0x40000000 .size4K .READ firstWorld).2).1 =
        .ok (0x40000000, .READ ||| .WRITE, .size4K) ∧
      (.READ ||| .WRITE : MappingFlags 32) ≠ normalForm .READ :=
  ⟨reachable_firstWorld 9, by decide +kernel, by decide +kernel, by decide⟩

end PageTableMultiarch.Bits32
