/-
A `PageTable32` with ARMv7-A entries refines a `Space`.

`Represents` says when the memory under a page table holds an address space.  From a new table on,
every call of every method returns what the method of the address space returns, whether it
succeeds, fails or panics, and leaves memory that holds the new address space; flags must not be
empty, since a section without access is read as a table at address zero.

* `Represents.store`, `Represents.clear`, `Represents.attach` — what the stores do to the address
  space;
* `Call.agree` — every call corresponds to the call of the address space;
* `refines_space` — runs give the same results.
-/
import PageTableMultiarch.Corres
import PageTableMultiarch.Table32.Leaf
import PageTableMultiarch.Table32.Space

namespace PageTableMultiarch.Bits32

open GenericPTE A32PTE

variable {B : Build} {M : PagingMetaData} {σ : Type} {H : PagingHandler 32 σ}
  {inUse : σ → Set ℕ} {root : PhysAddr} {w w' : World A32PTE σ} {s : Space σ} {v : VirtAddr}

/-! ### Pages and mappings -/

/-- A size that the page table knows. -/
def KnownSize (size : PageSize) : Prop := size = .size4K ∨ size = .size1M

instance (size : PageSize) : Decidable (KnownSize size) := inferInstanceAs (Decidable (_ ∨ _))

/-- What a page of a size may be mapped to. -/
structure Mapping.Fits (x : Mapping) (size : PageSize) : Prop where
  known : KnownSize size
  access : x.flags.isEmpty = false
  aligned : x.frame.toNat % size.bytes = 0

theorem Mapping.fits_alignDown {size : PageSize} (hsize : KnownSize size) (target : PhysAddr)
    {f : MappingFlags 32} (hf : f.isEmpty = false) :
    Mapping.Fits ⟨MemoryAddr.alignDown target (size.toUsize 32), f⟩ size := by
  refine ⟨hsize, hf, ?_⟩
  rw [PageSize.toNat_alignDown le_rfl]
  obtain rfl | rfl := hsize <;> simp only [PageSize.bytes] <;> omega

/-- The entry of a page does not depend on the lower bits of the frame. -/
theorem Mapping.entry_alignDown {size : PageSize} (hsize : KnownSize size) (target : PhysAddr)
    (f : MappingFlags 32) :
    Mapping.entry ⟨MemoryAddr.alignDown target (size.toUsize 32), f⟩ size =
      newPage target f size.isHuge := by
  obtain rfl | rfl := hsize
  · show newSmallPage (target &&& SMALL_PAGE_ADDR_MASK) f = newSmallPage target f
    rw [newSmallPage, newSmallPage, BitVec.and_assoc, BitVec.and_self]
  · show newSection (target &&& SECTION_ADDR_MASK) f = newSection target f
    rw [newSection, newSection, BitVec.and_assoc, BitVec.and_self]

theorem Mapping.Fits.isHuge_section {x : Mapping} (h : x.Fits .size1M) :
    isHuge (x.entry .size1M) = true := by
  show isHuge (newSection x.frame x.flags) = true
  rw [isHuge_iff, descriptorType_newSection, h.access]
  rfl

theorem Mapping.Fits.used {x : Mapping} {size : PageSize} (h : x.Fits size) :
    isUnused (x.entry size) = false := by
  obtain rfl | rfl := h.known
  · exact newSmallPage_not_unused x.frame h.access
  · refine Bool.eq_false_iff.mpr fun hu => ?_
    have htype := isHuge_iff.mp h.isHuge_section
    rw [descriptorType_of_isUnused hu] at htype
    exact absurd htype (by decide)

theorem covers_pageAt {size : PageSize} {v v' : VirtAddr} :
    (pageAt size v).Covers PageSize.bytes v'.toNat ↔ SamePage size v v' :=
  eq_comm

/-- A page covers only numbers that are addresses. -/
theorem exists_addr_of_covers {size : PageSize} (hsize : KnownSize size) {a : ℕ}
    (h : (pageAt size v).Covers PageSize.bytes a) : ∃ v' : VirtAddr, v'.toNat = a := by
  have hcov : a / size.bytes = v.toNat / size.bytes := h
  have hv := v.isLt
  have hlt : a < 2 ^ 32 := by
    obtain rfl | rfl := hsize <;> simp only [PageSize.bytes] at hcov <;> omega
  exact ⟨BitVec.ofNat 32 a, by rw [BitVec.toNat_ofNat, Nat.mod_eq_of_lt hlt]⟩

/-- The page that is found at an address is the one of its size. -/
theorem Space.page_of_find {page : Page PageSize} {x : Mapping} (h : s.find v = some (page, x)) :
    page = pageAt page.size v ∧ s.pages.get page = some x := by
  obtain ⟨hget, hcov⟩ := PageMap.lookup_eq_some.mp h
  exact ⟨Page.eq_containing_of_covers PageSize.bytes hcov, hget⟩

theorem Space.find_assign {size : PageSize}
    (h : s.pages.get (pageAt size v) ≠ none ∨ s.pages.Free (pageAt size v)) (x : Mapping)
    (v' : VirtAddr) : (s.assign (pageAt size v) x).find v' =
      if SamePage size v v' then some (pageAt size v, x) else s.find v' := by
  rw [find, assign, PageMap.lookup_assign h]
  exact if_congr covers_pageAt rfl rfl

theorem Space.find_erase {size : PageSize} (h : s.pages.get (pageAt size v) ≠ none)
    (v' : VirtAddr) : (s.erase (pageAt size v)).find v' =
      if SamePage size v v' then none else s.find v' := by
  rw [find, erase, PageMap.lookup_erase h]
  exact if_congr covers_pageAt rfl rfl

/-! ### The memory of an address space -/

/-- The memory under a page table holds an address space. -/
structure Represents (inUse : σ → Set ℕ) (root : PhysAddr) (s : Space σ)
    (w : World A32PTE σ) : Prop where
  layout : Layout PlainEntry inUse root w
  os : s.os = w.os
  linked (i : Fin ENTRY_COUNT) : s.linked i = true ↔
    isUnused (w.entry (l1At root i)) = false ∧ isHuge (w.entry (l1At root i)) = false
  leaf (v : VirtAddr) : leafAt root v w.mem =
    (s.find v).map fun found => (found.2.entry found.1.size, found.1.size)
  fits {page : Page PageSize} {x : Mapping} (h : s.pages.get page = some x) : x.Fits page.size

namespace Represents

/-- Accesses and flushes do not matter. -/
theorem congr (R : Represents inUse root s w) (hmem : w'.mem = w.mem) (hos : w'.os = w.os) :
    Represents inUse root s w' where
  layout := R.layout.congr (by rw [hos]) fun i => by rw [World.entry, hmem]; rfl
  os := R.os.trans hos.symm
  linked i := by
    rw [R.linked, World.entry, World.entry, hmem]
  leaf v := by rw [hmem, R.leaf]
  fits := R.fits

theorem leaf_none (R : Represents inUse root s w) :
    leafAt root v w.mem = none ↔ s.find v = none := by
  rw [R.leaf, Option.map_eq_none_iff]

/-- The walk to an address that is mapped. -/
theorem walk (R : Represents inUse root s w) {page : Page PageSize} {x : Mapping}
    (h : s.find v = some (page, x)) : ∃ slot,
      find root v w.mem = some (slot, page.size) ∧ w.entry slot = x.entry page.size ∧
        x.Fits page.size := by
  have hleaf := R.leaf v
  rw [h] at hleaf
  obtain ⟨slot, hfind, he, -⟩ := find_of_leafAt hleaf
  exact ⟨slot, hfind, he, R.fits (Space.page_of_find h).2⟩

/-- A page none of whose addresses is mapped is free. -/
theorem free (R : Represents inUse root s w) {size : PageSize} (hsize : KnownSize size)
    (h : ∀ v', SamePage size v v' → leafAt root v' w.mem = none) :
    s.pages.Free (pageAt size v) := by
  intro a ha
  obtain ⟨v', rfl⟩ := exists_addr_of_covers hsize ha
  exact R.leaf_none.mp (h v' (covers_pageAt.mp ha))

/-- The page of an entry that a walk finds is mapped or free. -/
theorem assignable (R : Represents inUse root s w) {slot : Slot} {size : PageSize}
    (hfind : Bits32.find root v w.mem = some (slot, size)) : KnownSize size ∧
      (s.pages.get (pageAt size v) ≠ none ∨ s.pages.Free (pageAt size v)) := by
  rcases hs : s.find v with _ | ⟨page, x⟩
  · -- an unused entry of a second level table
    obtain ⟨hnone, -⟩ | ⟨-, -, hfind', -⟩ := find_of_leafAt_none (R.leaf_none.mpr hs)
    · rw [hnone] at hfind
      cases hfind
    · obtain ⟨-, rfl⟩ := Prod.mk.inj (Option.some.inj (hfind.symm.trans hfind'))
      refine ⟨Or.inl rfl, Or.inr (R.free (Or.inl rfl) fun v' hv' => ?_)⟩
      rw [leafAt_samePage hv']
      exact R.leaf_none.mpr hs
  · obtain ⟨slot', hfind', -, hfits⟩ := R.walk hs
    obtain ⟨-, rfl⟩ := Prod.mk.inj (Option.some.inj (hfind.symm.trans hfind'))
    obtain ⟨hpage, hget⟩ := Space.page_of_find hs
    rw [← hpage, hget]
    exact ⟨hfits.known, Or.inl (by simp)⟩

/-- The sections with a table after a store at the entry that a walk finds. -/
theorem linked_store (R : Represents inUse root s w) {slot : Slot} {size : PageSize}
    (hfind : Bits32.find root v w.mem = some (slot, size)) {e : A32PTE}
    (he : size = .size1M → PlainEntry e) (i : Fin ENTRY_COUNT) : s.linked i = true ↔
      isUnused ((w.store slot e).entry (l1At root i)) = false ∧
        isHuge ((w.store slot e).entry (l1At root i)) = false := by
  rw [R.linked, World.store_entry]
  obtain ⟨-, ⟨hh, rfl, rfl⟩ | ⟨hh, rfl, -⟩⟩ := find_cases hfind
  · split
    · next heq =>
      -- neither the old nor the new entry points to a table
      obtain rfl := l1At_inj R.layout.root_aligned heq
      refine iff_of_false (fun h => ?_) fun h => ?_
      · rw [hh] at h
        exact absurd h.2 (by simp)
      · obtain hu | hh' := he rfl
        · rw [hu] at h
          exact absurd h.1 (by simp)
        · rw [hh'] at h
          exact absurd h.2 (by simp)
    · rfl
  · rw [if_neg]
    exact R.layout.l2_ne_l1 (fun _ => PlainEntry.sectionEntry) (i := p1Index v) hh v i

theorem layout_store (R : Represents inUse root s w) {slot : Slot} {size : PageSize}
    (hfind : Bits32.find root v w.mem = some (slot, size)) {e : A32PTE}
    (he : size = .size1M → PlainEntry e) : Layout PlainEntry inUse root (w.store slot e) := by
  obtain ⟨-, ⟨-, rfl, hsize⟩ | ⟨hh, rfl, -⟩⟩ := find_cases hfind
  · exact R.layout.storeL1 (fun _ => PlainEntry.sectionEntry) (p1Index v) (he hsize)
  · exact R.layout.storeL2 (fun _ => PlainEntry.sectionEntry) (i := p1Index v) hh v e

/-- A new entry where the walk ends maps its page. -/
theorem store (R : Represents inUse root s w) {slot : Slot} {size : PageSize}
    (hfind : Bits32.find root v w.mem = some (slot, size)) {x : Mapping} (hx : x.Fits size) :
    Represents inUse root (s.assign (pageAt size v) x) (w.store slot (x.entry size)) := by
  have he : size = .size1M → PlainEntry (x.entry size) := by
    rintro rfl
    exact Or.inr hx.isHuge_section
  refine ⟨R.layout_store hfind he, R.os, R.linked_store hfind he, fun v' => ?_, fun h => ?_⟩
  · rw [R.layout.leafAt_store hfind he v', hx.used, Space.find_assign (R.assignable hfind).2]
    split
    · rfl
    · exact R.leaf v'
  · obtain ⟨rfl, rfl⟩ | h := PageMap.get_assign h
    · exact hx
    · exact R.fits h

/-- Clearing the entry of a page unmaps it. -/
theorem clear (R : Represents inUse root s w) {page : Page PageSize} {x : Mapping} {slot : Slot}
    (hs : s.find v = some (page, x))
    (hfind : Bits32.find root v w.mem = some (slot, page.size)) :
    Represents inUse root (s.erase page) (w.store slot ⟨0⟩) := by
  have he : page.size = .size1M → PlainEntry ⟨0⟩ := fun _ => Or.inl rfl
  obtain ⟨hpage, hget⟩ := Space.page_of_find hs
  have herase : ∀ v', (s.erase page).find v' =
      if SamePage page.size v v' then none else s.find v' := by
    have hmapped : s.pages.get (pageAt page.size v) ≠ none := by
      rw [← hpage, hget]
      simp
    have herase := Space.find_erase hmapped
    rwa [← hpage] at herase
  refine ⟨R.layout_store hfind he, R.os, R.linked_store hfind he, fun v' => ?_, fun h => ?_⟩
  · rw [R.layout.leafAt_store hfind he v', herase]
    split
    · rfl
    · exact R.leaf v'
  · exact R.fits (PageMap.get_erase h)

/-- A section is mapped where there is nothing. -/
theorem mapSection (R : Represents inUse root s w)
    (hu : isUnused (w.entry (l1Slot root v)) = true) {x : Mapping} (hx : x.Fits .size1M) :
    s.pages.Free (pageAt .size1M v) ∧
      Represents inUse root (s.assign (pageAt .size1M v) x)
        (w.store (l1Slot root v) (x.entry .size1M)) := by
  have hfree : s.pages.Free (pageAt .size1M v) := R.free (Or.inr rfl) fun v' hv' => by
    refine leafAt_of_unused ?_
    rw [l1Slot, samePage_section.mp hv']
    exact hu
  have he : PlainEntry (x.entry .size1M) := Or.inr hx.isHuge_section
  refine ⟨hfree, R.layout.storeL1 (fun _ => PlainEntry.sectionEntry) (p1Index v) he, R.os,
    fun i => ?_, fun v' => ?_, fun h => ?_⟩
  · show s.linked i = true ↔ _
    rw [R.linked, World.store_entry]
    split
    · next heq =>
      obtain rfl := l1At_inj R.layout.root_aligned heq
      rw [show w.entry (l1At root (p1Index v)) = w.entry (l1Slot root v) from rfl, hu,
        hx.isHuge_section]
      simp
    · rfl
  · rw [R.layout.leafAt_storeL1 v he v', hx.used, Space.find_assign (Or.inr hfree)]
    split
    · rfl
    · exact R.leaf v'
  · obtain ⟨rfl, rfl⟩ | h := PageMap.get_assign h
    · exact hx
    · exact R.fits h

/-- A new table maps nothing. -/
theorem attach (R : Represents inUse root s w) (hH : FreshFrames H inUse)
    (hu : isUnused (w.entry (l1Slot root v)) = true) {p : PhysAddr} {os : σ}
    (ha : H.allocFrame w.os = (some p, os)) :
    Represents inUse root (s.link v os) ((w.grant p os).store (l1Slot root v) (newTable p)) where
  layout := R.layout.attach (fun _ => PlainEntry.sectionEntry) hH ha (p1Index v)
  os := rfl
  linked i := by
    rw [Space.link, attach_entry hH root ha, if_neg (R.layout.l1_ne_fresh hH ha i)]
    by_cases hi : i = p1Index v
    · rw [hi, if_pos rfl, isUnused_newTable, isHuge_newTable]
      simp
    · rw [if_neg fun heq => hi (l1At_inj R.layout.root_aligned heq), ← R.linked]
      simp [Function.update_of_ne hi]
  leaf v' := by
    rw [R.layout.leafAt_attach hH hu ha v']
    exact R.leaf v'
  fits := R.fits

end Represents

/-! ### Methods -/

section Methods

variable (self : PageTable32 B M A32PTE H) (R : Represents inUse self.rootPaddr s w)

include R

theorem query_agree (v : VirtAddr) : Agree (Represents inUse self.rootPaddr)
    (fun u _ u' _ => u = u') (Space.query v s) (self.query v w) := by
  rw [PageTable32.query_apply, Space.query]
  rcases hs : s.find v with _ | ⟨page, x⟩
  · obtain ⟨hnone, -⟩ | ⟨-, -, hfind, hu⟩ := find_of_leafAt_none (R.leaf_none.mpr hs)
    · rw [hnone]
      exact .err _ (R.congr rfl rfl)
    · rw [hfind]
      dsimp only
      rw [if_pos hu]
      exact .err _ (R.congr rfl rfl)
  · obtain ⟨slot, hfind, he, hfits⟩ := R.walk hs
    rw [hfind]
    dsimp only
    rw [he, hfits.used, if_neg Bool.false_ne_true]
    exact .ok (R.congr rfl rfl) rfl

theorem unmap_agree (v : VirtAddr) : Agree (Represents inUse self.rootPaddr)
    (fun u _ u' _ => u = u') (Space.unmap v s) (self.unmap v w) := by
  rw [PageTable32.unmap_apply, Space.unmap]
  rcases hs : s.find v with _ | ⟨page, x⟩
  · obtain ⟨hnone, -⟩ | ⟨-, -, hfind, hu⟩ := find_of_leafAt_none (R.leaf_none.mpr hs)
    · rw [hnone]
      exact .err _ (R.congr rfl rfl)
    · rw [hfind]
      dsimp only
      rw [if_pos hu]
      exact .err _ (R.congr rfl rfl)
  · obtain ⟨slot, hfind, he, hfits⟩ := R.walk hs
    rw [hfind]
    dsimp only
    rw [he, hfits.used, if_neg Bool.false_ne_true]
    exact .ok ((R.clear hs hfind).congr rfl rfl) rfl

theorem remap_agree (v : VirtAddr) (target : PhysAddr) {f : MappingFlags 32}
    (hf : f.isEmpty = false) : Agree (Represents inUse self.rootPaddr)
      (fun u _ u' _ => u = u') (Space.remap v target f s) (self.remap v target f w) := by
  rw [PageTable32.remap_apply, Space.remap]
  rcases hs : s.find v with _ | ⟨page, x⟩
  · obtain ⟨hnone, hu⟩ | ⟨hu, hh, hfind, -⟩ := find_of_leafAt_none (R.leaf_none.mpr hs)
    · -- there is no table for the page
      have hlinked : s.linked (p1Index v) = false := by
        rw [Bool.eq_false_iff]
        intro hlinked
        have hused := ((R.linked _).mp hlinked).1
        rw [show w.entry (l1At self.rootPaddr (p1Index v)) = w.entry (l1Slot self.rootPaddr v)
          from rfl, hu] at hused
        exact Bool.noConfusion hused
      rw [hnone]
      dsimp only
      rw [hlinked, if_neg Bool.false_ne_true]
      exact .err _ (R.congr rfl rfl)
    · have hfits := Mapping.fits_alignDown (Or.inl rfl) target hf
      have hstore := R.store hfind hfits
      rw [Mapping.entry_alignDown (Or.inl rfl)] at hstore
      rw [hfind]
      dsimp only
      rw [(R.linked _).mpr ⟨hu, hh⟩, if_pos rfl]
      exact .ok (hstore.congr rfl rfl) rfl
  · obtain ⟨slot, hfind, -, hfits⟩ := R.walk hs
    have hstore := R.store hfind (Mapping.fits_alignDown hfits.known target hf)
    rw [Mapping.entry_alignDown hfits.known, ← (Space.page_of_find hs).1] at hstore
    rw [hfind]
    exact .ok (hstore.congr rfl rfl) rfl

/-- The entry of a page gets other flags. -/
theorem reflag_represents {page : Page PageSize} {x : Mapping} {slot : Slot}
    (hs : s.find v = some (page, x))
    (hfind : find self.rootPaddr v w.mem = some (slot, page.size)) {f : MappingFlags 32}
    (hf : f.isEmpty = false) :
    Represents inUse self.rootPaddr (s.assign page (Space.reflag page x f))
      (w.store slot (newPage (paddr (x.entry page.size)) f page.size.isHuge)) := by
  have hknown := (R.fits (Space.page_of_find hs).2).known
  have hstore := R.store hfind (Mapping.fits_alignDown hknown (paddr (x.entry page.size)) hf)
  rwa [Mapping.entry_alignDown hknown, ← (Space.page_of_find hs).1] at hstore

theorem protect_agree (v : VirtAddr) {f : MappingFlags 32} (hf : f.isEmpty = false) :
    Agree (Represents inUse self.rootPaddr) (fun u _ u' _ => u = u') (Space.protect v f s)
      (self.protect v f w) := by
  rw [PageTable32.protect_apply, Space.protect]
  rcases hs : s.find v with _ | ⟨page, x⟩
  · obtain ⟨hnone, -⟩ | ⟨-, -, hfind, hu⟩ := find_of_leafAt_none (R.leaf_none.mpr hs)
    · rw [hnone]
      exact .err _ (R.congr rfl rfl)
    · rw [hfind]
      dsimp only
      rw [if_pos hu]
      exact .err _ (R.congr rfl rfl)
  · obtain ⟨slot, hfind, he, hfits⟩ := R.walk hs
    rw [hfind]
    dsimp only
    rw [he, hfits.used, if_neg Bool.false_ne_true]
    exact .ok ((reflag_represents self R hs hfind hf).congr rfl rfl) rfl

theorem protectRegionStep_agree (v : VirtAddr) (size : Usize) {f : MappingFlags 32}
    (hf : f.isEmpty = false) : Agree (Represents inUse self.rootPaddr)
      (fun u _ u' _ => u = u') (Space.protectRegionStep f v size s)
      (self.protectRegionStep f v size w) := by
  rw [PageTable32.protectRegionStep_apply, Space.protectRegionStep]
  rcases hs : s.find v with _ | ⟨page, x⟩
  · obtain ⟨hnone, -⟩ | ⟨-, -, hfind, hu⟩ := find_of_leafAt_none (R.leaf_none.mpr hs)
    · rw [hnone]
      exact .assertions _ _ _ (R.congr rfl rfl)
    · rw [hfind]
      dsimp only
      rw [if_pos hu]
      exact .assertions _ _ _ (R.congr rfl rfl)
  · obtain ⟨slot, hfind, he, hfits⟩ := R.walk hs
    rw [hfind]
    dsimp only
    rw [he, hfits.used, if_neg Bool.false_ne_true]
    exact .assertions _ _ _ ((reflag_represents self R hs hfind hf).congr rfl rfl)

/-- A page can be mapped where the walk ends at an unused entry. -/
theorem add_agree {slot : Slot} (hfind : find self.rootPaddr v w.mem = some (slot, .size4K))
    {x : Mapping} (hx : x.Fits .size4K) : Agree (Represents inUse self.rootPaddr)
      (fun u _ u' _ => u = u') (Space.add (pageAt .size4K v) x s)
      (if isUnused (w.entry slot) then
        (.ok (), ((w.touch slot.table).store slot (x.entry .size4K)).queue v)
      else (.err .alreadyMapped, w.touch slot.table)) := by
  have hleaf : leafAt self.rootPaddr v w.mem =
      if isUnused (w.entry slot) then none else some (w.entry slot, .size4K) := by
    rw [leafAt, hfind]
    rfl
  rw [Space.add]
  cases hu : isUnused (w.entry slot) with
  | true =>
    rw [hu] at hleaf
    have hfree : s.pages.Free (pageAt .size4K v) := R.free (Or.inl rfl) fun v' hv' => by
      rw [leafAt_samePage hv', hleaf]
      rfl
    rw [if_pos hfree, if_pos rfl]
    exact .ok ((R.store hfind hx).congr rfl rfl) rfl
  | false =>
    rw [hu] at hleaf
    have hfree : ¬ s.pages.Free (pageAt .size4K v) := fun hfree => by
      rw [R.leaf_none.mpr (hfree v.toNat (covers_pageAt.mpr rfl))] at hleaf
      cases hleaf
    rw [if_neg hfree, if_neg Bool.false_ne_true]
    exact .err _ (R.congr rfl rfl)

theorem map_agree (hH : FreshFrames H inUse) (v : VirtAddr) (target : PhysAddr)
    {size : PageSize} (hsize : KnownSize size) {f : MappingFlags 32} (hf : f.isEmpty = false) :
    Agree (Represents inUse self.rootPaddr) (fun u _ u' _ => u = u')
      (Space.map H v target size f s) (self.map v target size f w) := by
  have hfits := Mapping.fits_alignDown hsize target hf
  have hlinked : s.linked (p1Index v) = true ↔
      isUnused (w.entry (l1Slot self.rootPaddr v)) = false ∧
        isHuge (w.entry (l1Slot self.rootPaddr v)) = false := R.linked (p1Index v)
  rw [PageTable32.map_apply, PageTable32.getEntryMutOrCreate_apply]
  obtain rfl | rfl := hsize
  · have hne : ¬ PageSize.size4K = .size1M := by decide
    rw [Space.map_small, if_neg hne]
    dsimp only
    cases hu : isUnused (w.entry (l1Slot self.rootPaddr v)) with
    | true =>
      -- a table is needed
      have hno : s.linked (p1Index v) = false := by
        rw [Bool.eq_false_iff, Ne, hlinked, hu]
        simp
      have hfree : s.find v = none := R.leaf_none.mp (leafAt_of_unused hu)
      rw [hno, hfree, R.os, if_neg Bool.false_ne_true]
      rcases ha : H.allocFrame w.os with ⟨_ | p, os⟩
      · exact .err _ ⟨R.layout.congr (hH.alloc_none ha) fun _ => rfl, rfl, R.linked, R.leaf, R.fits⟩
      · have R₁ : Represents inUse self.rootPaddr (s.link v os)
            (((w.touch self.root).grant p os).store (l1Slot self.rootPaddr v) (newTable p)) :=
          (R.attach hH hu ha).congr rfl rfl
        have hentry : (((w.touch self.root).grant p os).store (l1Slot self.rootPaddr v)
            (newTable p)).entry (l1Slot self.rootPaddr v) = newTable p := by
          rw [World.store_entry, if_pos rfl]
        have hfind : find self.rootPaddr v (((w.touch self.root).grant p os).store
            (l1Slot self.rootPaddr v) (newTable p)).mem = _ :=
          find_page (by rw [hentry]; exact isUnused_newTable p)
            (by rw [hentry]; exact isHuge_newTable p)
        rw [hentry] at hfind
        exact add_agree self R₁ hfind hfits
    | false =>
      cases hh : isHuge (w.entry (l1Slot self.rootPaddr v)) with
      | true =>
        -- a section is in the way
        have hno : s.linked (p1Index v) = false := by
          rw [Bool.eq_false_iff, Ne, hlinked, hh]
          simp
        have hsome : (s.find v).isSome = true := by
          rw [Option.isSome_iff_ne_none, Ne, ← R.leaf_none, leafAt_of_huge hh]
          simp
        rw [hno, hsome]
        exact .err _ (R.congr rfl rfl)
      | false =>
        rw [hlinked.mpr ⟨hu, hh⟩]
        have R' : Represents inUse self.rootPaddr s (w.touch self.root) := R.congr rfl rfl
        exact add_agree self R' (find_page hu hh) hfits
  · rw [Space.map_section, if_pos rfl]
    dsimp only
    cases hu : isUnused (w.entry (l1Slot self.rootPaddr v)) with
    | true =>
      have hno : s.linked (p1Index v) = false := by
        rw [Bool.eq_false_iff, Ne, hlinked, hu]
        simp
      obtain ⟨hfree, hstore⟩ := R.mapSection hu hfits
      rw [hno, if_neg Bool.false_ne_true, if_pos rfl, Space.add, if_pos hfree]
      exact .ok (hstore.congr rfl rfl) rfl
    | false =>
      rw [if_neg Bool.false_ne_true]
      cases hh : isHuge (w.entry (l1Slot self.rootPaddr v)) with
      | true =>
        have hno : s.linked (p1Index v) = false := by
          rw [Bool.eq_false_iff, Ne, hlinked, hh]
          simp
        have hfree : ¬ s.pages.Free (pageAt .size1M v) := fun hfree => by
          have hleaf := leafAt_of_huge hh
          rw [R.leaf_none.mpr (hfree v.toNat (covers_pageAt.mpr rfl))] at hleaf
          cases hleaf
        rw [hno, if_neg Bool.false_ne_true, Space.add, if_neg hfree]
        exact .err _ (R.congr rfl rfl)
      | false =>
        rw [hlinked.mpr ⟨hu, hh⟩, if_pos rfl]
        exact .err _ (R.congr rfl rfl)

theorem mapRegion_agree (hH : FreshFrames H inUse) (v : VirtAddr)
    (getPaddr : VirtAddr → PhysAddr) (size : Usize) {f : MappingFlags 32}
    (hf : f.isEmpty = false) (allowHuge : Bool) : Agree (Represents inUse self.rootPaddr)
      (fun u _ u' _ => u = u') (Space.mapRegion B H v getPaddr size f allowHuge s)
      (self.mapRegion v getPaddr size f allowHuge w) := by
  rw [Space.mapRegion, PageTable32.mapRegion]
  split
  · exact .err _ R
  · refine .loop B (fun v size s w R => ?_) _ _ _ R
    have hsize : KnownSize (PageTable32.regionPageSize v (getPaddr v) size allowHuge) := by
      rw [PageTable32.regionPageSize]
      split
      · exact Or.inr rfl
      · exact Or.inl rfl
    exact (map_agree self R hH v (getPaddr v) hsize hf).bind fun _ _ _ _ R _ => .ok R rfl

theorem unmapRegion_agree (v : VirtAddr) (size : Usize) : Agree (Represents inUse self.rootPaddr)
    (fun u _ u' _ => u = u') (Space.unmapRegion B v size s) (self.unmapRegion v size w) := by
  refine .loop B (fun v size s w R => (unmap_agree self R v).bind fun u _ u' _ R hu => ?_) _ _ _ R
  subst hu
  exact .assertions _ _ _ R

theorem protectRegion_agree (v : VirtAddr) (size : Usize) {f : MappingFlags 32}
    (hf : f.isEmpty = false) : Agree (Represents inUse self.rootPaddr)
      (fun u _ u' _ => u = u') (Space.protectRegion B v size f s)
      (self.protectRegion v size f w) :=
  .loop B (fun v size _ _ R => protectRegionStep_agree self R v size hf) _ _ _ R

end Methods

/-! ### Runs -/

/-- What a call returns. -/
inductive Reply where
  | done
  | size (size : PageSize)
  | page (frame : PhysAddr) (f : MappingFlags 32) (size : PageSize)
  deriving DecidableEq

/-- A call of the page table. -/
def Call.exec (self : PageTable32 B M A32PTE H) : Call → Op (World A32PTE σ) Reply
  | .query v => do
    let (frame, f, size) ← self.query v
    return .page frame f size
  | .map v target size f => do
    self.map v target size f
    return .done
  | .remap v target f => do
    let size ← self.remap v target f
    return .size size
  | .protect v f => do
    let size ← self.protect v f
    return .size size
  | .unmap v => do
    let (frame, f, size) ← self.unmap v
    return .page frame f size
  | .mapRegion v getPaddr size f allowHuge => do
    self.mapRegion v getPaddr size f allowHuge
    return .done
  | .unmapRegion v size => do
    self.unmapRegion v size
    return .done
  | .protectRegion v size f => do
    self.protectRegion v size f
    return .done

/-- The same call of an address space. -/
noncomputable def Call.spec (B : Build) (H : PagingHandler 32 σ) : Call → Op (Space σ) Reply
  | .query v => do
    let (frame, f, size) ← Space.query v
    return .page frame f size
  | .map v target size f => do
    Space.map H v target size f
    return .done
  | .remap v target f => do
    let size ← Space.remap v target f
    return .size size
  | .protect v f => do
    let size ← Space.protect v f
    return .size size
  | .unmap v => do
    let (frame, f, size) ← Space.unmap v
    return .page frame f size
  | .mapRegion v getPaddr size f allowHuge => do
    Space.mapRegion B H v getPaddr size f allowHuge
    return .done
  | .unmapRegion v size => do
    Space.unmapRegion B v size
    return .done
  | .protectRegion v size f => do
    Space.protectRegion B v size f
    return .done

/-- The flags of the call are not empty, and its page size is one of those of the table. -/
def Call.Plain : Call → Prop
  | .query _ | .unmap _ | .unmapRegion _ _ => True
  | .map _ _ size f => KnownSize size ∧ f.isEmpty = false
  | .remap _ _ f | .protect _ f | .mapRegion _ _ _ f _ | .protectRegion _ _ f =>
    f.isEmpty = false

instance : DecidablePred Call.Plain
  | .query _ | .unmap _ | .unmapRegion _ _ => inferInstanceAs (Decidable True)
  | .map _ _ _ _ => inferInstanceAs (Decidable (_ ∧ _))
  | .remap _ _ _ | .protect _ _ | .mapRegion _ _ _ _ _ | .protectRegion _ _ _ =>
    inferInstanceAs (Decidable (_ = _))

/-- Every call corresponds to the call of the address space. -/
theorem Call.agree (hH : FreshFrames H inUse) (self : PageTable32 B M A32PTE H)
    (R : Represents inUse self.rootPaddr s w) (c : Call) (hc : c.Plain) :
    Agree (Represents inUse self.rootPaddr) (fun u _ u' _ => u = u') (c.spec B H s)
      (c.exec self w) := by
  -- the reply is made of what the method returns
  have hreply : ∀ {α : Type} {x : Op (Space σ) α} {y : Op (World A32PTE σ) α} (reply : α → Reply),
      Agree (Represents inUse self.rootPaddr) (fun u _ u' _ => u = u') (x s) (y w) →
      Agree (Represents inUse self.rootPaddr) (fun u _ u' _ => u = u')
        ((x >>= fun a => pure (reply a)) s) ((y >>= fun a => pure (reply a)) w) :=
    fun reply h => h.bind fun u _ u' _ R hu => .ok R (congrArg reply hu)
  cases c with
  | query v => exact hreply _ (query_agree self R v)
  | map v target size f => exact hreply _ (map_agree self R hH v target hc.1 hc.2)
  | remap v target f => exact hreply _ (remap_agree self R v target hc)
  | protect v f => exact hreply _ (protect_agree self R v hc)
  | unmap v => exact hreply _ (unmap_agree self R v)
  | mapRegion v getPaddr size f allowHuge =>
    exact hreply _ (mapRegion_agree self R hH v getPaddr size hc allowHuge)
  | unmapRegion v size => exact hreply _ (unmapRegion_agree self R v size)
  | protectRegion v size f => exact hreply _ (protectRegion_agree self R v size hc)

/-- The results and the last state of a list of calls. -/
def runCalls {S : Type} (exec : Call → Op S Reply) : List Call → S → List (Res Reply) × S
  | [], s => ([], s)
  | c :: cs, s =>
    let (r, s') := exec c s
    let (rs, s'') := runCalls exec cs s'
    (r :: rs, s'')

/-- Runs correspond. -/
theorem runCalls_agree (hH : FreshFrames H inUse) (self : PageTable32 B M A32PTE H)
    (cs : List Call) (hcs : ∀ c ∈ cs, c.Plain) (R : Represents inUse self.rootPaddr s w) :
    (runCalls (Call.exec self) cs w).1 = (runCalls (Call.spec B H) cs s).1 ∧
      Represents inUse self.rootPaddr (runCalls (Call.spec B H) cs s).2
        (runCalls (Call.exec self) cs w).2 := by
  induction cs generalizing w s with
  | nil => exact ⟨rfl, R⟩
  | cons c cs ih =>
    have h := c.agree hH self R (hcs c List.mem_cons_self)
    obtain ⟨hres, hrun⟩ := ih (fun d hd => hcs d (List.mem_cons_of_mem _ hd)) h.state
    refine ⟨?_, hrun⟩
    rw [runCalls, runCalls]
    exact congrArg₂ List.cons h.res_eq.symm hres

/-- A new table holds the empty address space. -/
theorem represents_new (hH : FreshFrames H inUse) {self : PageTable32 B M A32PTE H}
    {w₀ : World A32PTE σ} (h : PageTable32.tryNew B M A32PTE H w₀ = (.ok self, w)) :
    Represents inUse self.rootPaddr (Space.new w.os) w := by
  have hentry := tryNew_entry hH h
  have hu : ∀ i, isUnused (w.entry (l1At self.rootPaddr i)) = true := by
    intro i
    rw [hentry]
    rfl
  refine ⟨tryNew_layout hH (Or.inl rfl) h, rfl, fun i => ?_, fun v => ?_, fun {page x} h => ?_⟩
  · rw [hu]
    simp [Space.new]
  · rw [leafAt_of_unused (hu _)]
    have hnone : (Space.new w.os).find v = none := PageMap.lookup_empty v.toNat
    rw [hnone]
    rfl
  · cases h

/-- From a new table on, any calls with page sizes 4K or 1M and flags that are not empty return what
the calls of an empty address space return. -/
theorem refines_space (hH : FreshFrames H inUse) {self : PageTable32 B M A32PTE H}
    {w₀ : World A32PTE σ} (h : PageTable32.tryNew B M A32PTE H w₀ = (.ok self, w))
    (cs : List Call) (hcs : ∀ c ∈ cs, c.Plain) :
    (runCalls (Call.exec self) cs w).1 = (runCalls (Call.spec B H) cs (Space.new w.os)).1 :=
  (runCalls_agree hH self cs hcs (represents_new hH h)).1

/-- A region of a section and a page, of which the page is protected and the whole unmapped. -/
theorem refines_space_run :
    (runCalls (Call.exec (firstTable ⟨true, true⟩ 16))
        [.mapRegion 0x100000 (· + 0x40000000) 0x101000 .READ true,
          .protectRegion 0x200000 0x1000 (.READ ||| .WRITE), .unmapRegion 0x100000 0x101000]
        firstWorld).1 =
      (runCalls (Call.spec ⟨true, true⟩ (bumpHandler 16))
        [.mapRegion 0x100000 (· + 0x40000000) 0x101000 .READ true,
          .protectRegion 0x200000 0x1000 (.READ ||| .WRITE), .unmapRegion 0x100000 0x101000]
        (Space.new firstWorld.os)).1 :=
  refines_space (freshFrames_bumpHandler (by decide)) (tryNew_blankWorld 9) _ (by decide)

end PageTableMultiarch.Bits32
