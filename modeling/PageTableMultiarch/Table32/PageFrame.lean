/-
A small page of a `PageTable32` after further operations on other pages.

* `page_stays_iff` — a page that has been mapped is read back at its frame, whatever is done to
  other pages, exactly if its descriptor keeps the address and its entry is not shared with another
  section that has lost all access.
-/
import PageTableMultiarch.Table32.ReadBack

namespace PageTableMultiarch.Bits32

open GenericPTE A32PTE

variable {B : Build} {M : PagingMetaData} {σ : Type} {H : PagingHandler 32 σ}
  {V : VirtAddr → Prop} {inUse : σ → Set ℕ} {root : PhysAddr} {w w' : World A32PTE σ}

/-- An entry of the first level that a walk takes for a table at address zero. -/
def NoAccess (e : A32PTE) : Prop := isUnused e = false ∧ e.descriptorType = 0b00

instance (e : A32PTE) : Decidable (NoAccess e) := inferInstanceAs (Decidable (_ ∧ _))

theorem NoAccess.paddr_eq {e : A32PTE} (h : NoAccess e) : paddr e = 0 := physAddr_of_type_zero h.2

theorem NoAccess.isHuge_eq {e : A32PTE} (h : NoAccess e) : isHuge e = false := by
  rw [Bool.eq_false_iff]
  intro hh
  exact absurd (h.2.symm.trans (isHuge_iff.mp hh)) (by decide)

/-- An entry of the first level that is in use and no section points to a table, or has lost all
access. -/
theorem Layout.link_or_noAccess (L : Layout SectionEntry inUse root w) {i : Fin ENTRY_COUNT}
    (hu : isUnused (w.entry (l1At root i)) = false)
    (hh : isHuge (w.entry (l1At root i)) = false) : NoAccess (w.entry (l1At root i)) ∨
      ∃ p : PhysAddr, w.entry (l1At root i) = newTable p ∧ p.toNat % 0x1000 = 0 ∧ p ≠ 0 := by
  obtain (htype | htype) | ⟨p, he, hp, h0, -⟩ := L.entries i
  · exact Or.inl ⟨hu, htype⟩
  · rw [isHuge_iff.mpr htype] at hh
    nomatch hh
  · exact Or.inr ⟨p, he, hp, h0⟩

/-! ### Pages of sections without access -/

/-- The entry of a page below a section that has lost all access, where every other entry of the
first level points to a table. -/
structure LonePage (root : PhysAddr) (v : VirtAddr) (e₁ e : A32PTE) (w : World A32PTE σ) :
    Prop where
  first : w.entry (l1Slot root v) = e₁
  noAccess : NoAccess e₁
  others (j : Fin ENTRY_COUNT) (hj : j ≠ p1Index v) : (w.entry (l1At root j)).descriptorType = 0b01
  entry : w.entry (l2Slot e₁ v) = e

theorem LonePage.used {v v' : VirtAddr} {e₁ e : A32PTE} (P : LonePage root v e₁ e w) :
    isUnused (w.entry (l1Slot root v')) = false ∧ isHuge (w.entry (l1Slot root v')) = false := by
  by_cases hj : p1Index v' = p1Index v
  · rw [l1Slot, hj, show w.entry (l1At root (p1Index v)) = e₁ from P.first]
    exact ⟨P.noAccess.1, P.noAccess.isHuge_eq⟩
  · have htype := P.others _ hj
    refine ⟨Bool.eq_false_iff.mpr fun hu => ?_, Bool.eq_false_iff.mpr fun hh => ?_⟩
    · exact absurd (htype.symm.trans (descriptorType_of_isUnused hu)) (by decide)
    · exact absurd (htype.symm.trans (isHuge_iff.mp hh)) (by decide)

/-- Steps at other pages leave it alone: they cannot change the first level any more. -/
theorem Step.lonePage {v : VirtAddr} {e₁ e : A32PTE}
    (hV : ∀ v', V v' → v'.toNat / 0x1000 ≠ v.toNat / 0x1000)
    (L : Layout SectionEntry inUse root w) (P : LonePage root v e₁ e w)
    (h : Step H root V SectionEntry w w') : LonePage root v e₁ e w' := by
  have hfirst : w.entry (l1At root (p1Index v)) = e₁ := P.first
  have hzero : paddr e₁ = 0 := P.noAccess.paddr_eq
  -- the second level of an entry without address is in frame 0
  have hframe : frameOf (l2Slot e₁ v).addr = 0 := by
    rw [frameOf_l2Slot (by rw [hzero]; rfl), hzero]
    rfl
  cases h with
  | accessRoot => exact ⟨P.first, P.noAccess, P.others, P.entry⟩
  | access v' slot size h => exact ⟨P.first, P.noAccess, P.others, P.entry⟩
  | flush fl => exact ⟨P.first, P.noAccess, P.others, P.entry⟩
  | allocFail os h => exact ⟨P.first, P.noAccess, P.others, P.entry⟩
  | store v' slot size e' h hv he =>
    obtain ⟨hu, ⟨hh, -, -⟩ | ⟨hh, rfl, -⟩⟩ := find_cases h
    · rw [P.used.2] at hh
      nomatch hh
    · have hl1 : ∀ j, (w.store (l2Slot (w.entry (l1Slot root v')) v') e').entry (l1At root j) =
          w.entry (l1At root j) := by
        intro j
        rw [World.store_entry, if_neg (L.l2_ne_l1 (fun _ h => h) (i := p1Index v') hh v' j)]
      refine ⟨(hl1 _).trans P.first, P.noAccess, fun j hj => ?_, ?_⟩
      · rw [hl1]
        exact P.others j hj
      · rw [World.store_entry, if_neg]
        · exact P.entry
        · intro heq
          obtain hna | ⟨q, hq, hqa, hq0⟩ := L.link_or_noAccess (i := p1Index v') hu hh
          · -- the same section, but another page
            have hsame : p1Index v' = p1Index v := by
              by_contra hne
              exact absurd ((P.others _ hne).symm.trans hna.2) (by decide)
            have hentry : w.entry (l1Slot root v') = e₁ := by rw [l1Slot, hsame]; exact hfirst
            rw [hentry] at heq
            have hnat := congrArg BitVec.toNat heq
            rw [toNat_l2Slot (by rw [hzero]; rfl), toNat_l2Slot (by rw [hzero]; rfl)] at hnat
            exact hV v' hv (same_page hsame (Fin.ext (by omega)))
          · -- a table in another frame
            have hqaddr : paddr (w.entry (l1Slot root v')) = q := by
              rw [show w.entry (l1Slot root v') = newTable q from hq]
              exact physAddr_newTable hqa
            have hzero' : frameOf (l2Slot (w.entry (l1Slot root v')) v').addr = 0 := by
              rw [← heq]
              exact hframe
            rw [frameOf_l2Slot (by rw [hqaddr]; exact hqa), hqaddr, frameOf] at hzero'
            exact hq0 (BitVec.eq_of_toNat_eq
              (by rw [show (0 : PhysAddr).toNat = 0 from rfl]; omega))
  | mapSection v' e' h hv he =>
    -- every first-level entry is used already
    rw [P.used.1] at h
    nomatch h
  | attach v' p os h ha hv =>
    rw [P.used.1] at h
    nomatch h

/-! ### Runs on other pages -/

/-- The calls of a run work on pages that satisfy a condition. -/
theorem nextAll_steps (self : PageTable32 B M A32PTE H) (cs : List Call)
    (hcs : Call.EachPageAll (fun op _ => V op.addr) self cs w) :
    Steps H self.rootPaddr V SectionEntry w (Call.nextAll self cs w) := by
  induction cs generalizing w with
  | nil => exact .refl
  | cons c cs ih => exact .trans (c.steps_sectionEntry self hcs.1) (ih hcs.2)

theorem Steps.page {v : VirtAddr} {p : PhysAddr} {e : A32PTE} (hH : FreshFrames H inUse)
    (hV : ∀ v', V v' → v'.toNat / 0x1000 ≠ v.toNat / 0x1000)
    (L : Layout SectionEntry inUse root w) (P : PageAt root v p e w)
    (h : Steps H root V SectionEntry w w') : PageAt root v p e w' := by
  induction h with
  | refl => exact P
  | tail hsteps hstep ih =>
    exact hstep.page hH (fun _ h => h) hV (Steps.layout hH (fun _ h => h) L hsteps) ih

theorem Steps.lonePage {v : VirtAddr} {e₁ e : A32PTE} (hH : FreshFrames H inUse)
    (hV : ∀ v', V v' → v'.toNat / 0x1000 ≠ v.toNat / 0x1000)
    (L : Layout SectionEntry inUse root w) (P : LonePage root v e₁ e w)
    (h : Steps H root V SectionEntry w w') : LonePage root v e₁ e w' := by
  induction h with
  | refl => exact P
  | tail hsteps hstep ih =>
    exact hstep.lonePage hV (Steps.layout hH (fun _ h => h) L hsteps) ih

/-! ### What is read back -/

/-- At each address of a page the frame is read back, and `unmap` returns it. -/
def PageMapped (self : PageTable32 B M A32PTE H) (v : VirtAddr) (p : PhysAddr)
    (w : World A32PTE σ) : Prop :=
  ∀ v' : VirtAddr, v'.toNat / 0x1000 = v.toNat / 0x1000 →
    (∃ g, (self.query v' w).1 = .ok (p + PageSize.size4K.alignOffset v', g, .size4K)) ∧
      ∃ g, (self.unmap v' w).1 = .ok (p, g, .size4K)

theorem pageMapped_iff (self : PageTable32 B M A32PTE H) {v : VirtAddr} {p : PhysAddr}
    {e₁ e : A32PTE} (he₁ : w.entry (l1Slot self.rootPaddr v) = e₁) (hu : isUnused e₁ = false)
    (hh : isHuge e₁ = false) (he : w.entry (l2Slot e₁ v) = e) (hused : isUnused e = false) :
    PageMapped self v p w ↔ paddr e = p := by
  constructor
  · intro h
    obtain ⟨g, hg⟩ := (h v rfl).2
    have heq := Res.ok.inj ((readBack_page self he₁ hu hh he hused).2.symm.trans hg)
    exact congrArg Prod.fst heq
  · rintro rfl v' hv'
    obtain ⟨h1, h2⟩ := p1Index_of_same_page hv'
    have he₁' : w.entry (l1Slot self.rootPaddr v') = e₁ := by rw [l1Slot, h1]; exact he₁
    have he' : w.entry (l2Slot e₁ v') = e := by rw [l2Slot, h2]; exact he
    obtain ⟨hquery, hunmap⟩ := readBack_page self he₁' hu hh he' hused
    exact ⟨⟨_, hquery⟩, ⟨_, hunmap⟩⟩

/-! ### Shared entries -/

/-- A run on other pages after which a page is not read back any more. -/
def Breaks (self : PageTable32 B M A32PTE H) (v : VirtAddr) (p : PhysAddr)
    (w : World A32PTE σ) : Prop :=
  ∃ cs, Call.EachPageAll (fun op _ => op.addr.toNat / 0x1000 ≠ v.toNat / 0x1000) self cs w ∧
    ¬ PageMapped self v p (Call.nextAll self cs w)

theorem Breaks.cons {self : PageTable32 B M A32PTE H} {v : VirtAddr} {p : PhysAddr} {c : Call}
    (hc : c.EachPage (fun op _ => op.addr.toNat / 0x1000 ≠ v.toNat / 0x1000) self w)
    (h : Breaks self v p (c.next self w)) : Breaks self v p w := by
  obtain ⟨cs, hcs, hno⟩ := h
  exact ⟨c :: cs, ⟨hc, hcs⟩, hno⟩

/-- The address in another section with a given index in the second level. -/
def twin (j : Fin ENTRY_COUNT) (v : VirtAddr) : VirtAddr :=
  BitVec.ofNat 32 (j * 0x100000 + p2Index v * 0x1000)

theorem twin_index (j : Fin ENTRY_COUNT) (v : VirtAddr) :
    p1Index (twin j v) = j ∧ p2Index (twin j v) = p2Index v := by
  have hj : j.val < 4096 := j.isLt
  have h2 := p2Index_lt v
  have hnat : (twin j v).toNat = j * 0x100000 + p2Index v * 0x1000 := by
    rw [twin, BitVec.toNat_ofNat, Nat.mod_eq_of_lt (by omega)]
  refine ⟨Fin.ext ?_, Fin.ext ?_⟩
  · rw [p1Index_val, hnat]
    omega
  · rw [p2Index_val (twin j v), hnat]
    omega

theorem twin_other {j : Fin ENTRY_COUNT} {v : VirtAddr} (hj : j ≠ p1Index v) :
    (twin j v).toNat / 0x1000 ≠ v.toNat / 0x1000 := fun h =>
  hj ((twin_index j v).1.symm.trans (p1Index_of_same_page h).1)

section Shared

variable {self : PageTable32 B M A32PTE H} {v : VirtAddr} {p : PhysAddr} {e₁ : A32PTE}
  {j : Fin ENTRY_COUNT}

/-- Both sections have lost all access: the page is unmapped through the other one. -/
theorem breaks_of_noAccess (L : Layout SectionEntry inUse self.rootPaddr w)
    (he₁ : w.entry (l1Slot self.rootPaddr v) = e₁) (hna : NoAccess e₁) (hj : j ≠ p1Index v)
    (htwin : NoAccess (w.entry (l1At self.rootPaddr j))) : Breaks self v p w := by
  obtain ⟨h1, h2⟩ := twin_index j v
  have hslot : l2Slot (w.entry (l1Slot self.rootPaddr (twin j v))) (twin j v) = l2Slot e₁ v := by
    rw [l1Slot, h1, l2Slot, l2Slot, htwin.paddr_eq, hna.paddr_eq, h2]
  have hfind : find self.rootPaddr (twin j v) w.mem = some (l2Slot e₁ v, .size4K) := by
    rw [← hslot]
    refine find_page ?_ ?_
    · rw [l1Slot, h1]
      exact htwin.1
    · rw [l1Slot, h1]
      exact htwin.isHuge_eq
  refine .cons (c := .unmap (twin j v)) (twin_other hj) ⟨[], trivial, fun hmapped => ?_⟩
  obtain ⟨g, hg⟩ := (hmapped v rfl).2
  -- the entry is unused now
  have hl1 : ((self.unmap (twin j v) w).2).entry (l1Slot self.rootPaddr v) = e₁ := by
    have hne := L.l2_ne_l1 (fun _ h => h) (i := p1Index v)
      (by rw [show w.entry (l1At self.rootPaddr (p1Index v)) = e₁ from he₁]; exact hna.isHuge_eq)
      v (p1Index v)
    rw [show w.entry (l1At self.rootPaddr (p1Index v)) = e₁ from he₁] at hne
    rw [PageTable32.unmap_apply, hfind]
    dsimp only
    split
    · exact he₁
    · rw [World.queue_entry, World.store_entry, if_neg hne]
      exact he₁
  have hl2 : isUnused (((self.unmap (twin j v) w).2).entry (l2Slot e₁ v)) = true := by
    rw [PageTable32.unmap_apply, hfind]
    dsimp only
    split
    · next hu => exact hu
    · rw [World.queue_entry, World.store_entry, if_pos rfl]
      rfl
  have hgone : find self.rootPaddr v ((self.unmap (twin j v) w).2).mem =
      some (l2Slot e₁ v, .size4K) := by
    rw [find_page (by rw [hl1]; exact hna.1) (by rw [hl1]; exact hna.isHuge_eq), hl1]
  have hno : (self.unmap v (self.unmap (twin j v) w).2).1 = .err .notMapped := by
    rw [PageTable32.unmap_apply self v (self.unmap (twin j v) w).2, hgone]
    dsimp only
    rw [if_pos hl2]
  exact absurd (hno.symm.trans hg) (by simp)

/-- An unused entry of the first level: a section without access is made of it. -/
theorem breaks_of_unused (hH : FreshFrames H inUse) (L : Layout SectionEntry inUse self.rootPaddr w)
    (he₁ : w.entry (l1Slot self.rootPaddr v) = e₁) (hna : NoAccess e₁) (hj : j ≠ p1Index v)
    (hunused : isUnused (w.entry (l1At self.rootPaddr j)) = true) : Breaks self v p w := by
  obtain ⟨h1, -⟩ := twin_index j v
  refine .cons (c := .map (twin j v) 0x100000 .size1M .empty) (twin_other hj) ?_
  have hentry : ∀ k, ((self.map (twin j v) 0x100000 .size1M .empty w).2).entry
      (l1At self.rootPaddr k) = if k = j then newSection 0x100000 .empty
        else w.entry (l1At self.rootPaddr k) := by
    intro k
    rw [PageTable32.map_apply, PageTable32.getEntryMutOrCreate_apply, if_pos rfl]
    dsimp only
    rw [l1Slot, h1, hunused, if_pos rfl, World.queue_entry, World.store_entry]
    exact if_congr ⟨l1At_inj L.root_aligned, fun h => by rw [h]⟩ rfl rfl
  have L' : Layout SectionEntry inUse self.rootPaddr
      (self.map (twin j v) 0x100000 .size1M .empty w).2 :=
    ((Call.map (twin j v) 0x100000 .size1M .empty).steps_sectionEntry (V := fun _ => True) self
      trivial).layout hH (fun _ h => h) L
  refine breaks_of_noAccess L' (j := j) ?_ hna hj ?_
  · exact (hentry (p1Index v)).trans ((if_neg hj.symm).trans he₁)
  · rw [Call.next, hentry, if_pos rfl]
    decide

/-- A section: it is unmapped first. -/
theorem breaks_of_section (hH : FreshFrames H inUse)
    (L : Layout SectionEntry inUse self.rootPaddr w)
    (he₁ : w.entry (l1Slot self.rootPaddr v) = e₁) (hna : NoAccess e₁) (hj : j ≠ p1Index v)
    (hhuge : isHuge (w.entry (l1At self.rootPaddr j)) = true) : Breaks self v p w := by
  obtain ⟨h1, -⟩ := twin_index j v
  refine .cons (c := .unmap (twin j v)) (twin_other hj) ?_
  have hfind : find self.rootPaddr (twin j v) w.mem =
      some (l1At self.rootPaddr j, .size1M) := by
    rw [find_section, l1Slot, h1]
    rw [l1Slot, h1]
    exact hhuge
  have hentry : ∀ k, ((self.unmap (twin j v) w).2).entry (l1At self.rootPaddr k) =
      if k = j then ⟨0⟩ else w.entry (l1At self.rootPaddr k) := by
    intro k
    have hused : isUnused (w.entry (l1At self.rootPaddr j)) = false := by
      have hused := (find_cases hfind).1
      rwa [l1Slot, h1] at hused
    rw [PageTable32.unmap_apply, hfind]
    dsimp only
    rw [hused, if_neg Bool.false_ne_true, World.queue_entry, World.store_entry]
    exact if_congr ⟨l1At_inj L.root_aligned, fun h => by rw [h]⟩ rfl rfl
  have L' : Layout SectionEntry inUse self.rootPaddr (self.unmap (twin j v) w).2 :=
    ((Call.unmap (twin j v)).steps_sectionEntry (V := fun _ => True) self trivial).layout hH
      (fun _ h => h) L
  refine breaks_of_unused hH L' (j := j) ?_ hna hj ?_
  · exact (hentry (p1Index v)).trans ((if_neg hj.symm).trans he₁)
  · rw [Call.next, hentry, if_pos rfl]
    rfl

end Shared

/-- A small page that has been mapped is read back at its frame, whatever is done to other pages,
exactly if its descriptor keeps the address and its first level entry is not a section without
access, or all other ones point to tables. -/
theorem page_stays_iff (hH : FreshFrames H inUse) {self : PageTable32 B M A32PTE H}
    (hw : Reachable self w) {v : VirtAddr} {target : PhysAddr} {f : MappingFlags 32}
    (hf : f.isEmpty = false) (hmap : (self.map v target .size4K f w).1 = .ok ()) :
    (∀ cs, Call.EachPageAll (fun op _ => op.addr.toNat / 0x1000 ≠ v.toNat / 0x1000) self cs
        (self.map v target .size4K f w).2 →
      PageMapped self v (MemoryAddr.alignDown target (PageSize.size4K.toUsize 32))
        (Call.nextAll self cs (self.map v target .size4K f w).2)) ↔
      Keeps (MemoryAddr.alignDown target (PageSize.size4K.toUsize 32)) f ∧
        (¬ NoAccess (w.entry (l1Slot self.rootPaddr v)) ∨ ∀ j ≠ p1Index v,
          (w.entry (l1At self.rootPaddr j)).descriptorType = 0b01) := by
  have L := hw.layout hH
  have hreach : Reachable self (self.map v target .size4K f w).2 :=
    .call hw (.map v target .size4K f)
  have L' := hreach.layout hH
  have halign := alignDown_aligned target
  have hused := newSmallPage_not_unused
    (MemoryAddr.alignDown target (PageSize.size4K.toUsize 32)) hf
  have hkeeps := physAddr_newSmallPage_eq_iff halign f
  obtain ⟨e₁, he₁, hu, hh, he, hnew, hold⟩ := map_page_entries self hH L hmap
  constructor
  · intro h
    refine ⟨?_, ?_⟩
    · exact hkeeps.mp ((pageMapped_iff self he₁ hu hh he hused).mp (h [] trivial))
    · by_contra hc
      rw [not_or, not_not] at hc
      obtain ⟨hna, hothers⟩ := hc
      push Not at hothers
      obtain ⟨j, hj, htype⟩ := hothers
      obtain ⟨rfl, hl1⟩ := hold hna.1
      -- the other entry is unused, a section or without access
      have hbreak : Breaks self v (MemoryAddr.alignDown target (PageSize.size4K.toUsize 32))
          (self.map v target .size4K f w).2 := by
        obtain (hz | hs) | ⟨q, hq, -⟩ := L'.entries j
        · by_cases hju : isUnused ((self.map v target .size4K f w).2.entry
              (l1At self.rootPaddr j)) = true
          · exact breaks_of_unused hH L' he₁ hna hj hju
          · exact breaks_of_noAccess L' he₁ hna hj ⟨Bool.eq_false_iff.mpr hju, hz⟩
        · exact breaks_of_section hH L' he₁ hna hj (isHuge_iff.mpr hs)
        · rw [hl1] at hq
          rw [hq, descriptorType_newTable] at htype
          exact absurd rfl htype
      obtain ⟨cs, hcs, hno⟩ := hbreak
      exact hno (h cs hcs)
  · rintro ⟨hkeep, halone⟩ cs hcs
    have hsteps := nextAll_steps (V := fun v' => v'.toNat / 0x1000 ≠ v.toNat / 0x1000) self cs hcs
    by_cases hna : NoAccess (w.entry (l1Slot self.rootPaddr v))
    · -- no other entry of the first level can become a section
      obtain ⟨rfl, hl1⟩ := hold hna.1
      have P := hsteps.lonePage hH (fun _ h => h) L' ⟨he₁, hna, fun j hj => by
        rw [hl1]
        exact halone.resolve_left (not_not_intro hna) j hj, he⟩
      exact (pageMapped_iff self P.first hu hh P.entry hused).mpr (hkeeps.mpr hkeep)
    · -- the first level entry points to a table
      obtain ⟨q, hq, hqa, hq0⟩ : ∃ q : PhysAddr, e₁ = newTable q ∧ q.toNat % 0x1000 = 0 ∧
          q ≠ 0 := by
        obtain hz | ⟨q, hq, hqa, hq0⟩ := L'.link_or_noAccess (i := p1Index v)
          (by rw [he₁]; exact hu) (by rw [he₁]; exact hh)
        · rw [he₁] at hz
          cases hun : isUnused (w.entry (l1Slot self.rootPaddr v)) with
          | true =>
            obtain ⟨q, rfl⟩ := hnew hun
            rw [NoAccess, descriptorType_newTable] at hz
            exact absurd hz.2 (by decide)
          | false => exact absurd ((hold hun).1 ▸ hz) hna
        · exact ⟨q, he₁.symm.trans hq, hqa, hq0⟩
      subst hq
      have P := hsteps.page hH (fun _ h => h) L' ⟨he₁, hqa, hq0, he⟩
      exact (pageMapped_iff self P.table hu hh P.entry hused).mpr (hkeeps.mpr hkeep)

/-- A page that is not executable. -/
theorem page_stays_iff_run :
    (∀ cs, Call.EachPageAll (fun op _ => op.addr.toNat / 0x1000 ≠ (0 : VirtAddr).toNat / 0x1000)
        (firstTable ⟨true, true⟩ 16) cs ((firstTable ⟨true, true⟩ 16).map 0 0x40001000 .size4K .READ
          firstWorld).2 →
      PageMapped (firstTable ⟨true, true⟩ 16) 0
        (MemoryAddr.alignDown 0x40001000 (PageSize.size4K.toUsize 32))
        (Call.nextAll (firstTable ⟨true, true⟩ 16) cs ((firstTable ⟨true, true⟩ 16).map 0 0x40001000
          .size4K .READ firstWorld).2)) ↔
      Keeps (MemoryAddr.alignDown 0x40001000 (PageSize.size4K.toUsize 32)) .READ ∧
        (¬ NoAccess (firstWorld.entry (l1Slot 0x4000 0)) ∨ ∀ j ≠ p1Index 0,
          (firstWorld.entry (l1At 0x4000 j)).descriptorType = 0b01) :=
  page_stays_iff (freshFrames_bumpHandler (by decide)) (reachable_firstWorld 9) (by decide)
    (by decide +kernel)

/-- An executable page is read back at the start of its megabyte. -/
theorem executable_page_moves :
    Reachable (firstTable ⟨true, true⟩ 16) firstWorld ∧
      ((firstTable ⟨true, true⟩ 16).map 0 0x40001000 .size4K (.READ ||| .EXECUTE) firstWorld).1 =
        .ok () ∧
      ((firstTable ⟨true, true⟩ 16).unmap 0 ((firstTable ⟨true, true⟩ 16).map 0 0x40001000 .size4K
        (.READ ||| .EXECUTE) firstWorld).2).1 = .ok (0x40000000, .READ ||| .WRITE, .size4K) ∧
      (0x40000000 : PhysAddr) ≠ MemoryAddr.alignDown 0x40001000 (PageSize.size4K.toUsize 32) :=
  ⟨reachable_firstWorld 9, by decide +kernel, by decide +kernel, by decide⟩

end PageTableMultiarch.Bits32
