/-
The mappings of a `PageTable32`.

`leafAt` is the entry that maps an address, with the size of its page.  While no section has lost
all access, each store changes the mapping of one page.

* `Layout.leafAt_store` — a store at the entry that a walk finds;
* `Layout.leafAt_storeL1` — a store in the first level;
* `Layout.leafAt_attach` — a new table maps nothing.
-/
import PageTableMultiarch.Table32.Accounting

namespace PageTableMultiarch.Bits32

open GenericPTE A32PTE

variable {B : Build} {M : PagingMetaData} {σ : Type} {H : PagingHandler 32 σ}
  {inUse : σ → Set ℕ} {root : PhysAddr} {w w' : World A32PTE σ}

/-- The addresses lie on the same page of a size. -/
def SamePage (size : PageSize) (v v' : VirtAddr) : Prop :=
  v.toNat / size.bytes = v'.toNat / size.bytes

instance (size : PageSize) (v v' : VirtAddr) : Decidable (SamePage size v v') :=
  inferInstanceAs (Decidable (_ = _))

theorem samePage_section {v v' : VirtAddr} : SamePage .size1M v v' ↔ p1Index v' = p1Index v := by
  rw [Fin.ext_iff, p1Index_val, p1Index_val]
  exact eq_comm

theorem samePage_small {v v' : VirtAddr} :
    SamePage .size4K v v' ↔ p1Index v' = p1Index v ∧ p2Index v' = p2Index v :=
  ⟨fun h => p1Index_of_same_page h.symm, fun h => (same_page h.1 h.2).symm⟩

/-- The entry that maps an address, with the size of its page. -/
def leafAt (root : PhysAddr) (v : VirtAddr) (mem : PhysAddr → A32PTE) :
    Option (A32PTE × PageSize) :=
  match find root v mem with
  | some (slot, size) => if isUnused (mem slot.addr) then none else some (mem slot.addr, size)
  | none => none

/-- The mapping in terms of the entries of the two levels. -/
theorem leafAt_eq (root : PhysAddr) (v : VirtAddr) (w : World A32PTE σ) :
    leafAt root v w.mem =
      let e₁ := w.entry (l1Slot root v)
      let e₂ := w.entry (l2Slot e₁ v)
      if isUnused e₁ then none
      else if isHuge e₁ then some (e₁, .size1M)
      else if isUnused e₂ then none else some (e₂, .size4K) := by
  rw [leafAt, find_eq]
  dsimp only
  cases hu : isUnused (w.entry (l1Slot root v)) with
  | true => rfl
  | false =>
    cases hh : isHuge (w.entry (l1Slot root v)) with
    | true =>
      simp only [Bool.false_eq_true, if_false, if_true]
      rw [if_neg]
      · rfl
      · rw [show w.mem (l1Slot root v).addr = w.entry (l1Slot root v) from rfl, hu]
        exact Bool.false_ne_true
    | false => rfl

theorem leafAt_of_unused {v : VirtAddr} (h : isUnused (w.entry (l1Slot root v)) = true) :
    leafAt root v w.mem = none := by
  rw [leafAt_eq]
  exact if_pos h

theorem leafAt_of_huge {v : VirtAddr} (h : isHuge (w.entry (l1Slot root v)) = true) :
    leafAt root v w.mem = some (w.entry (l1Slot root v), .size1M) := by
  have hu := (find_cases (find_section h)).1
  rw [leafAt_eq]
  simp only [h, hu, Bool.false_eq_true, if_false, if_true]

theorem leafAt_of_table {v : VirtAddr} (hu : isUnused (w.entry (l1Slot root v)) = false)
    (hh : isHuge (w.entry (l1Slot root v)) = false) :
    leafAt root v w.mem = if isUnused (w.entry (l2Slot (w.entry (l1Slot root v)) v)) then none
      else some (w.entry (l2Slot (w.entry (l1Slot root v)) v), .size4K) := by
  rw [leafAt_eq]
  simp only [hu, hh, Bool.false_eq_true, if_false]

/-- The mapping of an address depends on its entries of the two levels. -/
theorem leafAt_congr {v : VirtAddr}
    (h₁ : w'.entry (l1Slot root v) = w.entry (l1Slot root v))
    (h₂ : isUnused (w.entry (l1Slot root v)) = false → isHuge (w.entry (l1Slot root v)) = false →
      w'.entry (l2Slot (w.entry (l1Slot root v)) v) =
        w.entry (l2Slot (w.entry (l1Slot root v)) v)) :
    leafAt root v w'.mem = leafAt root v w.mem := by
  rw [leafAt_eq, leafAt_eq]
  dsimp only
  rw [h₁]
  cases hu : isUnused (w.entry (l1Slot root v)) with
  | true => rfl
  | false =>
    cases hh : isHuge (w.entry (l1Slot root v)) with
    | true => rfl
    | false => rw [h₂ hu hh]

/-- Addresses of the same small page have the same mapping. -/
theorem leafAt_samePage {v v' : VirtAddr} (h : SamePage .size4K v v') (mem : PhysAddr → A32PTE) :
    leafAt root v' mem = leafAt root v mem := by
  obtain ⟨h1, h2⟩ := samePage_small.mp h
  rw [leafAt, leafAt, find, find, l1Slot, l1Slot, h1, l2Slot, l2Slot, h2]

theorem find_of_leafAt {v : VirtAddr} {e : A32PTE} {size : PageSize}
    (h : leafAt root v w.mem = some (e, size)) :
    ∃ slot, find root v w.mem = some (slot, size) ∧ w.entry slot = e ∧ isUnused e = false := by
  rw [leafAt] at h
  rcases hfind : find root v w.mem with _ | ⟨slot, size'⟩
  · rw [hfind] at h
    cases h
  · rw [hfind] at h
    dsimp only at h
    split at h
    · cases h
    · next hu =>
      obtain ⟨rfl, rfl⟩ := Prod.mk.inj (Option.some.inj h)
      exact ⟨slot, rfl, rfl, Bool.eq_false_iff.mpr hu⟩

/-- The walk to an address that is not mapped ends at the first level, or at an unused entry of
the second. -/
theorem find_of_leafAt_none {v : VirtAddr} (h : leafAt root v w.mem = none) :
    find root v w.mem = none ∧ isUnused (w.entry (l1Slot root v)) = true ∨
      isUnused (w.entry (l1Slot root v)) = false ∧ isHuge (w.entry (l1Slot root v)) = false ∧
        find root v w.mem = some (l2Slot (w.entry (l1Slot root v)) v, .size4K) ∧
        isUnused (w.entry (l2Slot (w.entry (l1Slot root v)) v)) = true := by
  cases hu : isUnused (w.entry (l1Slot root v)) with
  | true => exact Or.inl ⟨by rw [find_eq, hu]; rfl, rfl⟩
  | false =>
    cases hh : isHuge (w.entry (l1Slot root v)) with
    | true =>
      rw [leafAt_of_huge hh] at h
      cases h
    | false =>
      refine Or.inr ⟨rfl, rfl, find_page hu hh, ?_⟩
      rw [leafAt_of_table hu hh] at h
      split at h
      · next hu₂ => exact hu₂
      · cases h

/-! ### Stores -/

/-- The first level entry of an address after a store in the first level. -/
theorem entry_storeL1 (hroot : root.toNat % L1_ALIGN = 0) (v v' : VirtAddr) (e : A32PTE) :
    (w.store (l1Slot root v) e).entry (l1Slot root v') =
      if SamePage .size1M v v' then e else w.entry (l1Slot root v') := by
  rw [World.store_entry]
  refine if_congr ?_ rfl rfl
  rw [samePage_section]
  exact ⟨l1At_inj hroot, fun h => by rw [l1Slot, l1Slot, h]⟩

/-- A store in the first level gives the section of the address another mapping. -/
theorem Layout.leafAt_storeL1 (L : Layout PlainEntry inUse root w) (v : VirtAddr) {e : A32PTE}
    (he : PlainEntry e) (v' : VirtAddr) :
    leafAt root v' (w.store (l1Slot root v) e).mem =
      if SamePage .size1M v v' then if isUnused e then none else some (e, .size1M)
      else leafAt root v' w.mem := by
  have hentry := entry_storeL1 (w := w) L.root_aligned v v' e
  split
  · next hs =>
    rw [if_pos hs] at hentry
    obtain hu | hh := he
    · rw [if_pos hu]
      exact leafAt_of_unused (by rw [hentry]; exact hu)
    · have hh' : isHuge ((w.store (l1Slot root v) e).entry (l1Slot root v')) = true := by
        rw [hentry]
        exact hh
      have hu := (find_cases (find_section hh')).1
      have hleaf := leafAt_of_huge hh'
      rw [hentry] at hu
      rw [hleaf, hentry, hu]
      rfl
  · next hs =>
    rw [if_neg hs] at hentry
    refine leafAt_congr hentry fun _ hh => ?_
    rw [World.store_entry, if_neg]
    exact (L.l2_ne_l1 (fun _ => PlainEntry.sectionEntry) (i := p1Index v') hh v' (p1Index v)).symm

/-- A store in the second level gives the page of the address another mapping. -/
theorem Layout.leafAt_storeL2 (L : Layout PlainEntry inUse root w) {v : VirtAddr}
    (hu : isUnused (w.entry (l1Slot root v)) = false)
    (hh : isHuge (w.entry (l1Slot root v)) = false) (e : A32PTE) (v' : VirtAddr) :
    leafAt root v' (w.store (l2Slot (w.entry (l1Slot root v)) v) e).mem =
      if SamePage .size4K v v' then if isUnused e then none else some (e, .size4K)
      else leafAt root v' w.mem := by
  have hS : ∀ e, PlainEntry e → SectionEntry e := fun _ => PlainEntry.sectionEntry
  have hl1 : ∀ j, (w.store (l2Slot (w.entry (l1Slot root v)) v) e).entry (l1At root j) =
      w.entry (l1At root j) := fun j => by
    rw [World.store_entry, if_neg (L.l2_ne_l1 hS (i := p1Index v) hh v j)]
  split
  · next hs =>
    obtain ⟨h1, h2⟩ := samePage_small.mp hs
    have hslot : l1Slot root v' = l1Slot root v := by rw [l1Slot, l1Slot, h1]
    have hl2 : ∀ e₁ : A32PTE, l2Slot e₁ v' = l2Slot e₁ v := fun e₁ => by rw [l2Slot, l2Slot, h2]
    rw [leafAt_of_table (by rw [hslot, hl1]; exact hu) (by rw [hslot, hl1]; exact hh), hslot, hl1,
      hl2, World.store_entry, if_pos rfl]
  · next hs =>
    refine leafAt_congr (hl1 _) fun hu' hh' => ?_
    rw [World.store_entry, if_neg]
    intro heq
    -- entries of second level tables are the same only for the same page
    obtain hs' | ⟨p, hp, halign, h0, -⟩ := L.entries (p1Index v)
    · obtain hs' | hs' := hs'
      · rw [hu] at hs'
        cases hs'
      · rw [hh] at hs'
        cases hs'
    · exact hs (samePage_small.mpr (L.l2_inj hS hp halign h0 (j := p1Index v') hh' heq))

/-- A store at the entry that a walk finds. -/
theorem Layout.leafAt_store (L : Layout PlainEntry inUse root w) {v : VirtAddr} {slot : Slot}
    {size : PageSize} (hfind : find root v w.mem = some (slot, size)) {e : A32PTE}
    (he : size = .size1M → PlainEntry e) (v' : VirtAddr) :
    leafAt root v' (w.store slot e).mem =
      if SamePage size v v' then if isUnused e then none else some (e, size)
      else leafAt root v' w.mem := by
  obtain ⟨hu, ⟨-, rfl, rfl⟩ | ⟨hh, rfl, rfl⟩⟩ := find_cases hfind
  · exact L.leafAt_storeL1 v (he rfl) v'
  · exact L.leafAt_storeL2 hu hh e v'

/-- A new table maps nothing. -/
theorem Layout.leafAt_attach (L : Layout PlainEntry inUse root w) (hH : FreshFrames H inUse)
    {v : VirtAddr} (hu : isUnused (w.entry (l1Slot root v)) = true) {p : PhysAddr} {os : σ}
    (ha : H.allocFrame w.os = (some p, os)) (v' : VirtAddr) :
    leafAt root v' ((w.grant p os).store (l1Slot root v) (newTable p)).mem =
      leafAt root v' w.mem := by
  have hp := hH.aligned ha
  have hentry := attach_entry hH root ha (p1Index v)
  by_cases hs : p1Index v' = p1Index v
  · -- the entries of the new table are zero
    have hslot : l1Slot root v' = l1Slot root v := by rw [l1Slot, l1Slot, hs]
    have hpaddr : (paddr (newTable p : A32PTE)) = p := physAddr_newTable hp
    have hframe : frameOf (l2Slot (newTable p : A32PTE) v').addr = frameOf p := by
      rw [frameOf_l2Slot (by rw [hpaddr]; exact hp), hpaddr]
    have hfirst : ((w.grant p os).store (l1Slot root v) (newTable p)).entry (l1Slot root v') =
        newTable p := by
      rw [hslot, World.store_entry, if_pos rfl]
    have hzero : ((w.grant p os).store (l1Slot root v) (newTable p)).entry
        (l2Slot (newTable p : A32PTE) v') = ⟨0⟩ := by
      rw [hentry, if_neg, if_pos hframe]
      intro heq
      exact L.l1_ne_fresh hH ha (p1Index v) (by rw [← heq]; exact hframe)
    rw [leafAt_of_unused (w := w) (by rw [hslot]; exact hu),
      leafAt_of_table (by rw [hfirst]; exact isUnused_newTable p)
        (by rw [hfirst]; exact isHuge_newTable p), hfirst, hzero]
    rfl
  · have hne : (l1Slot root v').addr ≠ (l1At root (p1Index v)).addr := fun heq =>
      hs (l1At_inj L.root_aligned heq)
    refine leafAt_congr ?_ fun hu' hh' => ?_
    · rw [hentry, if_neg hne, if_neg (L.l1_ne_fresh hH ha (p1Index v'))]
    · rw [hentry, if_neg, if_neg]
      · -- a table in use does not lie in the new frame
        intro heq
        obtain ⟨q, hq, hqa, hin⟩ := L.link (i := p1Index v') hu' hh'
        have hqaddr : paddr (w.entry (l1Slot root v')) = q := by
          rw [show w.entry (l1Slot root v') = newTable q from hq]
          exact physAddr_newTable hqa
        rw [frameOf_l2Slot (by rw [hqaddr]; exact hqa), hqaddr] at heq
        exact hH.fresh ha (heq ▸ hin)
      · exact (L.l2_ne_l1 (fun _ => PlainEntry.sectionEntry) (i := p1Index v') hh' v'
          (p1Index v)).symm

end PageTableMultiarch.Bits32
