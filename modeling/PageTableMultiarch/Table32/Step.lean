/-
The elementary steps of a `PageTable32` and the layout they keep.

Every method of `PageTable32` but the drop is a chain of steps (`Steps`): an access to the first
level or to the table that a walk finds, a change of the pending flushes, a failed allocation, the
store of an entry that a walk finds, the creation of a section, and the creation of a second level
table.

* `Step.layout` — each step keeps the layout;
* `Step.page` — steps at other pages leave the entry of a page alone.
-/
import PageTableMultiarch.Table32.Layout

namespace PageTableMultiarch.Bits32

open GenericPTE A32PTE

variable {B : Build} {M : PagingMetaData} {σ : Type} {H : PagingHandler 32 σ}
  {S : A32PTE → Prop} {V : VirtAddr → Prop} {inUse : σ → Set ℕ} {root : PhysAddr}
  {w w' : World A32PTE σ}

/-- One elementary step at an address that satisfies `V`; the entries stored in the first level
satisfy `S`, unless they point to a new table. -/
inductive Step (H : PagingHandler 32 σ) (root : PhysAddr) (V : VirtAddr → Prop)
    (S : A32PTE → Prop) (w : World A32PTE σ) : World A32PTE σ → Prop
  | accessRoot : Step H root V S w (w.touch ⟨root, L1_SIZE_PAGES⟩)
  | access (v : VirtAddr) (slot : Slot) (size : PageSize)
    (h : find root v w.mem = some (slot, size)) : Step H root V S w (w.touch slot.table)
  | flush (flusher : TlbFlusher 32) : Step H root V S w { w with flusher := flusher }
  | allocFail (os : σ) (h : H.allocFrame w.os = (none, os)) :
    Step H root V S w { w with os := os }
  | store (v : VirtAddr) (slot : Slot) (size : PageSize) (e : A32PTE)
    (h : find root v w.mem = some (slot, size)) (hV : V v) (hS : size = .size1M → S e) :
    Step H root V S w (w.store slot e)
  | mapSection (v : VirtAddr) (e : A32PTE) (h : isUnused (w.entry (l1Slot root v)) = true)
    (hV : V v) (hS : S e) : Step H root V S w (w.store (l1Slot root v) e)
  | attach (v : VirtAddr) (p : PhysAddr) (os : σ)
    (h : isUnused (w.entry (l1Slot root v)) = true) (ha : H.allocFrame w.os = (some p, os))
    (hV : V v) : Step H root V S w ((w.grant p os).store (l1Slot root v) (newTable p))

/-- A chain of steps. -/
def Steps (H : PagingHandler 32 σ) (root : PhysAddr) (V : VirtAddr → Prop) (S : A32PTE → Prop) :
    World A32PTE σ → World A32PTE σ → Prop :=
  Relation.ReflTransGen (Step H root V S)

/-! ### What a walk finds -/

/-- The walk finds a section, or an entry of the table that the first level entry points to. -/
theorem find_cases {v : VirtAddr} {slot : Slot} {size : PageSize}
    (h : find root v w.mem = some (slot, size)) :
    isUnused (w.entry (l1Slot root v)) = false ∧
      (isHuge (w.entry (l1Slot root v)) = true ∧ slot = l1Slot root v ∧ size = .size1M ∨
        isHuge (w.entry (l1Slot root v)) = false ∧
          slot = l2Slot (w.entry (l1Slot root v)) v ∧ size = .size4K) := by
  rw [find_eq] at h
  split at h
  · nomatch h
  · next hused =>
    refine ⟨Bool.eq_false_iff.mpr hused, ?_⟩
    split at h
    · next hhuge =>
      obtain ⟨rfl, rfl⟩ := Prod.mk.inj (Option.some.inj h)
      exact Or.inl ⟨hhuge, rfl, rfl⟩
    · next hhuge =>
      obtain ⟨rfl, rfl⟩ := Prod.mk.inj (Option.some.inj h)
      exact Or.inr ⟨Bool.eq_false_iff.mpr hhuge, rfl, rfl⟩

theorem find_section {v : VirtAddr}
    (h : isHuge (w.entry (l1Slot root v)) = true) :
    find root v w.mem = some (l1Slot root v, .size1M) := by
  have hused : isUnused (w.entry (l1Slot root v)) = false := by
    rw [Bool.eq_false_iff]
    intro hu
    have htype := descriptorType_of_isUnused hu
    rw [isHuge_iff.mp h] at htype
    exact absurd htype (by decide)
  rw [find_eq, hused, h]
  rfl

theorem find_page {v : VirtAddr}
    (hu : isUnused (w.entry (l1Slot root v)) = false)
    (hh : isHuge (w.entry (l1Slot root v)) = false) :
    find root v w.mem = some (l2Slot (w.entry (l1Slot root v)) v, .size4K) := by
  rw [find_eq, hu, hh]
  rfl

theorem isUnused_newTable (p : PhysAddr) : isUnused (newTable p : A32PTE) = false := by
  rw [Bool.eq_false_iff]
  intro hu
  have htype := descriptorType_of_isUnused hu
  rw [descriptorType_newTable] at htype
  exact absurd htype (by decide)

theorem isHuge_newTable (p : PhysAddr) : isHuge (newTable p : A32PTE) = false := by
  rw [Bool.eq_false_iff]
  intro hh
  have htype := isHuge_iff.mp hh
  rw [descriptorType_newTable] at htype
  exact absurd htype (by decide)

/-! ### The layout is kept -/

/-- The layout depends on the first level only. -/
theorem Layout.congr (L : Layout S inUse root w) (hos : inUse w.os ⊆ inUse w'.os)
    (hl1 : ∀ i, w'.entry (l1At root i) = w.entry (l1At root i)) : Layout S inUse root w' where
  root_aligned := L.root_aligned
  root_ne_zero := L.root_ne_zero
  root_inUse n h := hos (L.root_inUse n h)
  entries i := by
    rw [hl1]
    refine (L.entries i).imp_right fun ⟨p, he, hp, h0, hin, hout⟩ => ?_
    exact ⟨p, he, hp, h0, hos hin, hout⟩
  inj hi hj := by
    rw [hl1] at hi hj
    exact L.inj hi hj

theorem Layout.storeL1 (L : Layout S inUse root w) (hS : ∀ e, S e → SectionEntry e)
    (i : Fin ENTRY_COUNT) {e : A32PTE} (he : S e) :
    Layout S inUse root (w.store (l1At root i) e) where
  root_aligned := L.root_aligned
  root_ne_zero := L.root_ne_zero
  root_inUse := L.root_inUse
  entries j := by
    rw [World.store_entry]
    split
    · exact Or.inl he
    · exact L.entries j
  inj {j k p} hj hk := by
    rw [World.store_entry] at hj hk
    split at hj
    · exact absurd hj ((hS e he).ne_newTable p)
    · split at hk
      · exact absurd hk ((hS e he).ne_newTable p)
      · exact L.inj hj hk

theorem Layout.storeL2 (L : Layout S inUse root w) (hS : ∀ e, S e → SectionEntry e)
    {i : Fin ENTRY_COUNT} (hhuge : isHuge (w.entry (l1At root i)) = false) (v : VirtAddr)
    (e : A32PTE) : Layout S inUse root (w.store (l2Slot (w.entry (l1At root i)) v) e) := by
  refine L.congr Set.Subset.rfl fun j => ?_
  rw [World.store_entry, if_neg (L.l2_ne_l1 hS hhuge v j)]

/-- The entries after a table has been attached. -/
theorem attach_entry (hH : FreshFrames H inUse) (root : PhysAddr) {p : PhysAddr}
    {os : σ} (ha : H.allocFrame w.os = (some p, os)) (i : Fin ENTRY_COUNT) (slot : Slot) :
    ((w.grant p os).store (l1At root i) (newTable p)).entry slot =
      if slot.addr = (l1At root i).addr then newTable p
      else if frameOf slot.addr = frameOf p then ⟨0⟩ else w.entry slot := by
  rw [World.store_entry, World.entry, World.grant]
  dsimp only
  rw [zeroed_apply _ (hH.aligned ha)]
  rfl

/-- The new frame holds no entry of the first level. -/
theorem Layout.l1_ne_fresh (L : Layout S inUse root w) (hH : FreshFrames H inUse) {p : PhysAddr}
    {os : σ} (ha : H.allocFrame w.os = (some p, os)) (i : Fin ENTRY_COUNT) :
    frameOf (l1At root i).addr ≠ frameOf p := fun heq =>
  hH.fresh ha (heq ▸ L.root_inUse _ (rootFrame_l1At L.root_aligned i))

theorem Layout.attach (L : Layout S inUse root w) (hS : ∀ e, S e → SectionEntry e)
    (hH : FreshFrames H inUse) {p : PhysAddr} {os : σ}
    (ha : H.allocFrame w.os = (some p, os)) (i : Fin ENTRY_COUNT) :
    Layout S inUse root ((w.grant p os).store (l1At root i) (newTable p)) := by
  have hp := hH.aligned ha
  have hsub := hH.alloc ha
  have hentry : ∀ j, ((w.grant p os).store (l1At root i) (newTable p)).entry (l1At root j) =
      if j = i then newTable p else w.entry (l1At root j) := by
    intro j
    rw [attach_entry hH root ha, if_neg (L.l1_ne_fresh hH ha j)]
    refine if_congr ⟨l1At_inj L.root_aligned, fun h => by rw [h]⟩ rfl rfl
  -- no other entry points to the new frame
  have hother : ∀ j, w.entry (l1At root j) ≠ newTable p := by
    intro j heq
    obtain hs | ⟨q, he, hq, -, hin, -⟩ := L.entries j
    · exact (hS _ hs).ne_newTable p heq
    · obtain rfl := newTable_inj hq hp (he.symm.trans heq)
      exact hH.fresh ha hin
  refine ⟨L.root_aligned, L.root_ne_zero, fun n h => hsub (Or.inr (L.root_inUse n h)),
    fun j => ?_, fun {j k q} hj hk => ?_⟩
  · rw [hentry]
    split
    · refine Or.inr ⟨p, rfl, hp, hH.ne_zero ha, hsub (Or.inl rfl), fun hroot => ?_⟩
      exact hH.fresh ha (L.root_inUse _ hroot)
    · refine (L.entries j).imp_right fun ⟨q, he, hq, h0, hin, hout⟩ => ?_
      exact ⟨q, he, hq, h0, hsub (Or.inr hin), hout⟩
  · rw [hentry] at hj hk
    split at hj
    · next hji =>
      split at hk
      · next hki => exact hji.trans hki.symm
      · exact absurd (hk.trans hj.symm) (hother k)
    · split at hk
      · exact absurd (hj.trans hk.symm) (hother j)
      · exact L.inj hj hk

/-- Each step keeps the layout. -/
theorem Step.layout (hH : FreshFrames H inUse) (hS : ∀ e, S e → SectionEntry e)
    (L : Layout S inUse root w) (h : Step H root V S w w') : Layout S inUse root w' := by
  cases h with
  | accessRoot => exact L.congr Set.Subset.rfl fun _ => rfl
  | access v slot size h => exact L.congr Set.Subset.rfl fun _ => rfl
  | flush fl => exact L.congr Set.Subset.rfl fun _ => rfl
  | allocFail os h => exact L.congr (hH.alloc_none h) fun _ => rfl
  | store v slot size e h hV he =>
    obtain ⟨-, ⟨-, rfl, hsize⟩ | ⟨hhuge, rfl, -⟩⟩ := find_cases h
    · exact L.storeL1 hS (p1Index v) (he hsize)
    · exact L.storeL2 hS (i := p1Index v) hhuge v e
  | mapSection v e h hV he => exact L.storeL1 hS (p1Index v) he
  | attach v p os h ha hV => exact L.attach hS hH ha (p1Index v)

theorem Steps.layout (hH : FreshFrames H inUse) (hS : ∀ e, S e → SectionEntry e)
    (L : Layout S inUse root w) (h : Steps H root V S w w') : Layout S inUse root w' := by
  induction h with
  | refl => exact L
  | tail _ hstep ih => exact hstep.layout hH hS ih

/-! ### Other pages -/

/-- The entry of a page: the table that the first level points to, and the entry in it. -/
structure PageAt (root : PhysAddr) (v : VirtAddr) (p : PhysAddr) (e : A32PTE)
    (w : World A32PTE σ) : Prop where
  table : w.entry (l1Slot root v) = newTable p
  aligned : p.toNat % 0x1000 = 0
  ne_zero : p ≠ 0
  entry : w.entry (l2Slot (newTable p : A32PTE) v) = e

/-- Steps at other pages leave the entry of a page alone. -/
theorem Step.page {v : VirtAddr} {p : PhysAddr} {e : A32PTE} (hH : FreshFrames H inUse)
    (hS : ∀ e, S e → SectionEntry e) (hV : ∀ v', V v' → v'.toNat / 0x1000 ≠ v.toNat / 0x1000)
    (L : Layout S inUse root w) (P : PageAt root v p e w) (h : Step H root V S w w') :
    PageAt root v p e w' := by
  have hpaddr : paddr (newTable p : A32PTE) = p := physAddr_newTable P.aligned
  have hl2 : (paddr (newTable p : A32PTE)).toNat % 0x1000 = 0 := by rw [hpaddr]; exact P.aligned
  have hhuge : isHuge (w.entry (l1At root (p1Index v))) = false := by
    rw [show w.entry (l1At root (p1Index v)) = newTable p from P.table]
    exact isHuge_newTable p
  have hne : ∀ j, (l1At root j).addr ≠ (l2Slot (newTable p : A32PTE) v).addr := by
    have hne := L.l2_ne_l1 hS hhuge v
    rwa [show w.entry (l1At root (p1Index v)) = newTable p from P.table] at hne
  -- an entry of the first level that is stored to is another one
  have hl1 : ∀ v', (l1Slot root v).addr = (l1Slot root v').addr →
      w.entry (l1Slot root v') = newTable p := by
    intro v' heq
    rw [World.entry, ← heq]
    exact P.table
  cases h with
  | accessRoot => exact ⟨P.table, P.aligned, P.ne_zero, P.entry⟩
  | access v' slot size h => exact ⟨P.table, P.aligned, P.ne_zero, P.entry⟩
  | flush fl => exact ⟨P.table, P.aligned, P.ne_zero, P.entry⟩
  | allocFail os h => exact ⟨P.table, P.aligned, P.ne_zero, P.entry⟩
  | store v' slot size e' h hv he =>
    obtain ⟨-, ⟨hhuge', rfl, -⟩ | ⟨hhuge', rfl, -⟩⟩ := find_cases h
    · refine ⟨?_, P.aligned, P.ne_zero, ?_⟩
      · rw [World.store_entry, if_neg]
        · exact P.table
        · intro heq
          rw [hl1 v' heq, isHuge_newTable] at hhuge'
          exact absurd hhuge' (by simp)
      · rw [World.store_entry, if_neg (hne (p1Index v')).symm]
        exact P.entry
    · refine ⟨?_, P.aligned, P.ne_zero, ?_⟩
      · rw [World.store_entry, if_neg (L.l2_ne_l1 hS (i := p1Index v') hhuge' v' (p1Index v))]
        exact P.table
      · rw [World.store_entry, if_neg]
        · exact P.entry
        · intro heq
          have hinj := L.l2_inj hS (i := p1Index v) (j := p1Index v') P.table P.aligned P.ne_zero
            hhuge'
            (by rw [show w.entry (l1At root (p1Index v)) = newTable p from P.table]; exact heq.symm)
          exact hV v' hv (same_page hinj.1 hinj.2)
  | mapSection v' e' h hv he =>
    refine ⟨?_, P.aligned, P.ne_zero, ?_⟩
    · rw [World.store_entry, if_neg]
      · exact P.table
      · intro heq
        rw [hl1 v' heq, isUnused_newTable] at h
        exact absurd h (by simp)
    · rw [World.store_entry, if_neg (hne (p1Index v')).symm]
      exact P.entry
  | attach v' q os h ha hv =>
    have hfresh : frameOf (l2Slot (newTable p : A32PTE) v).addr ≠ frameOf q := by
      rw [frameOf_l2Slot hl2, hpaddr]
      intro heq
      obtain hs | ⟨r, hr, hra, -, hin, -⟩ := L.entries (p1Index v)
      · exact (hS _ hs).ne_newTable p P.table
      · obtain rfl := newTable_inj hra P.aligned (hr.symm.trans P.table)
        exact hH.fresh ha (heq ▸ hin)
    refine ⟨?_, P.aligned, P.ne_zero, ?_⟩
    · have hentry := attach_entry hH root ha (p1Index v') (l1Slot root v)
      rw [if_neg, if_neg (L.l1_ne_fresh hH ha (p1Index v))] at hentry
      · exact hentry.trans P.table
      · intro heq
        rw [hl1 v' heq, isUnused_newTable] at h
        exact absurd h (by simp)
    · have hentry := attach_entry hH root ha (p1Index v') (l2Slot (newTable p : A32PTE) v)
      rw [if_neg (hne (p1Index v')).symm, if_neg hfresh] at hentry
      exact hentry.trans P.entry

end PageTableMultiarch.Bits32
