/-
What a cursor of a `PageTable32` records for its flush.

Every method that changes the mapping of an address goes through `Edit`s: each stores one entry and
pushes an address of its page, or it changes no mapping.

* `Call.Plain.edits` — the methods are chains of edits;
* `Edits.tracked` — each mapping that has changed is covered by the flush that is pending.
-/
import PageTableMultiarch.Table32.Leaf
import PageTableMultiarch.Table32.Refinement

namespace PageTableMultiarch.Bits32

open GenericPTE A32PTE

variable {B : Build} {M : PagingMetaData} {σ : Type} {H : PagingHandler 32 σ}
  {inUse : σ → Set ℕ} {root : PhysAddr} {w w' w'' : World A32PTE σ}

/-! ### What a flush removes -/

/-- The calls to the processor of one flush remove what is cached for an address as part of a page
of some size: everything goes, or an address of the page is named. -/
def Flushed (calls : List (Option VirtAddr)) (v : VirtAddr) (size : PageSize) : Prop :=
  none ∈ calls ∨ ∃ addr, some addr ∈ calls ∧ SamePage size addr v

theorem Flushed.push_self (flusher : TlbFlusher 32) {a v : VirtAddr} {size : PageSize}
    (h : SamePage size a v) : Flushed (flusher.push a).calls v size := by
  cases flusher with
  | none => exact Or.inr ⟨a, List.mem_cons_self, h⟩
  | full => exact Or.inl List.mem_cons_self
  | array addrs =>
    rw [TlbFlusher.push]
    split
    · refine Or.inr ⟨a, List.mem_map.mpr ⟨a, ?_, rfl⟩, h⟩
      exact List.mem_append_right _ List.mem_cons_self
    · exact Or.inl List.mem_cons_self

theorem Flushed.push {flusher : TlbFlusher 32} {v : VirtAddr} {size : PageSize}
    (h : Flushed flusher.calls v size) (a : VirtAddr) :
    Flushed (flusher.push a).calls v size := by
  cases flusher with
  | none =>
    obtain h | ⟨addr, h, -⟩ := h
    · exact absurd h List.not_mem_nil
    · exact absurd h List.not_mem_nil
  | full => exact Or.inl List.mem_cons_self
  | array addrs =>
    rw [TlbFlusher.push]
    split
    · obtain h | ⟨addr, h, hsame⟩ := h
      · obtain ⟨_, -, h⟩ := List.mem_map.mp h
        cases h
      · obtain ⟨b, hb, heq⟩ := List.mem_map.mp h
        refine Or.inr ⟨addr, List.mem_map.mpr ⟨b, ?_, heq⟩, hsame⟩
        exact List.mem_append_left _ hb
    · exact Or.inl List.mem_cons_self

/-- `query` answers by the mapping of the address. -/
theorem query_eq_leafAt (self : PageTable32 B M A32PTE H) (v : VirtAddr) (w : World A32PTE σ) :
    (self.query v w).1 = match leafAt self.rootPaddr v w.mem with
      | some (e, size) => .ok (paddr e + (v &&& (size.toUsize 32 - 1)), flags e, size)
      | none => .err .notMapped := by
  rw [PageTable32.query_apply, leafAt]
  rcases find self.rootPaddr v w.mem with _ | ⟨slot, size⟩
  · rfl
  · dsimp only
    have hentry : w.mem slot.addr = w.entry slot := rfl
    rw [hentry]
    cases isUnused (w.entry slot) <;> rfl

/-! ### Edits -/

/-- A change of one mapping that is recorded, or a change of none. -/
inductive Edit (H : PagingHandler 32 σ) (root : PhysAddr) (w : World A32PTE σ) :
    World A32PTE σ → Prop
  | accessRoot : Edit H root w (w.touch ⟨root, L1_SIZE_PAGES⟩)
  | access (v : VirtAddr) (slot : Slot) (size : PageSize)
    (h : find root v w.mem = some (slot, size)) : Edit H root w (w.touch slot.table)
  | allocFail (os : σ) (h : H.allocFrame w.os = (none, os)) :
    Edit H root w { w with os := os }
  | store (v : VirtAddr) (slot : Slot) (size : PageSize) (e : A32PTE)
    (h : find root v w.mem = some (slot, size)) (hS : size = .size1M → PlainEntry e) :
    Edit H root w ((w.store slot e).queue v)
  | mapSection (v : VirtAddr) (e : A32PTE) (h : isUnused (w.entry (l1Slot root v)) = true)
    (hS : PlainEntry e) : Edit H root w ((w.store (l1Slot root v) e).queue v)
  | attach (v : VirtAddr) (p : PhysAddr) (os : σ)
    (h : isUnused (w.entry (l1Slot root v)) = true) (ha : H.allocFrame w.os = (some p, os)) :
    Edit H root w ((w.grant p os).store (l1Slot root v) (newTable p))

/-- A chain of edits. -/
def Edits (H : PagingHandler 32 σ) (root : PhysAddr) : World A32PTE σ → World A32PTE σ → Prop :=
  Relation.ReflTransGen (Edit H root)

/-- An edit is one or two elementary steps. -/
theorem Edit.steps (h : Edit H root w w') :
    Steps H root (fun _ => True) PlainEntry w w' := by
  cases h with
  | accessRoot => exact .single .accessRoot
  | access v slot size h => exact .single (.access v slot size h)
  | allocFail os h => exact .single (.allocFail os h)
  | store v slot size e h hS => exact .tail (.single (.store v slot size e h trivial hS)) (.flush _)
  | mapSection v e h hS => exact .tail (.single (.mapSection v e h trivial hS)) (.flush _)
  | attach v p os h ha => exact .single (.attach v p os h ha trivial)

/-! ### Methods as chains of edits -/

section Methods

variable (self : PageTable32 B M A32PTE H)

/-- A store at the entry that a walk finds, after the accesses of the walk. -/
theorem Edits.update {v : VirtAddr} {slot : Slot} {size : PageSize} {e : A32PTE}
    (hfind : find root v w.mem = some (slot, size)) (hS : size = .size1M → PlainEntry e) :
    Edits H root w (((w.touch slot.table).store slot e).queue v) :=
  .tail (.single (.access v slot size hfind)) (.store v slot size e hfind hS)

theorem query_edits (v : VirtAddr) : Edits H self.rootPaddr w (self.query v w).2 := by
  have hroot : Edits H self.rootPaddr w (w.touch self.root) := .single .accessRoot
  rw [PageTable32.query_apply]
  rcases hfind : find self.rootPaddr v w.mem with _ | ⟨slot, size⟩
  · exact hroot
  · exact .tail hroot (.access v slot size hfind)

theorem unmap_edits (v : VirtAddr) : Edits H self.rootPaddr w (self.unmap v w).2 := by
  have hroot : Edits H self.rootPaddr w (w.touch self.root) := .single .accessRoot
  rw [PageTable32.unmap_apply]
  rcases hfind : find self.rootPaddr v w.mem with _ | ⟨slot, size⟩
  · exact hroot
  · dsimp only
    split
    · exact .tail hroot (.access v slot size hfind)
    · exact .trans hroot (Edits.update hfind fun _ => Or.inl rfl)

/-- A section with access is an entry of the first level that is used. -/
theorem plainEntry_of_flags (p : PhysAddr) {f : MappingFlags 32} (hf : f.isEmpty = false) :
    PlainEntry (newSection p f) := by
  refine plainEntry_newSection fun h => ?_
  rw [hf] at h
  cases h

theorem plainEntry_newPage (p : PhysAddr) {f : MappingFlags 32} (hf : f.isEmpty = false)
    {size : PageSize} (h : size = .size1M) : PlainEntry (newPage p f size.isHuge) := by
  subst h
  exact plainEntry_of_flags p hf

theorem remap_edits (v : VirtAddr) (target : PhysAddr) {f : MappingFlags 32}
    (hf : f.isEmpty = false) : Edits H self.rootPaddr w (self.remap v target f w).2 := by
  have hroot : Edits H self.rootPaddr w (w.touch self.root) := .single .accessRoot
  rw [PageTable32.remap_apply]
  rcases hfind : find self.rootPaddr v w.mem with _ | ⟨slot, size⟩
  · exact hroot
  · exact .tail hroot (.store v slot size _ hfind (plainEntry_newPage target hf))

theorem protect_edits (v : VirtAddr) {f : MappingFlags 32} (hf : f.isEmpty = false) :
    Edits H self.rootPaddr w (self.protect v f w).2 := by
  have hroot : Edits H self.rootPaddr w (w.touch self.root) := .single .accessRoot
  rw [PageTable32.protect_apply]
  rcases hfind : find self.rootPaddr v w.mem with _ | ⟨slot, size⟩
  · exact hroot
  · dsimp only
    split
    · exact .tail hroot (.access v slot size hfind)
    · exact .trans hroot (Edits.update hfind (plainEntry_newPage _ hf))

theorem protectRegionStep_edits (v : VirtAddr) {f : MappingFlags 32} (hf : f.isEmpty = false)
    (rest : Usize) : Edits H self.rootPaddr w (self.protectRegionStep f v rest w).2 := by
  have hroot : Edits H self.rootPaddr w (w.touch self.root) := .single .accessRoot
  rw [PageTable32.protectRegionStep_apply]
  rcases hfind : find self.rootPaddr v w.mem with _ | ⟨slot, size⟩
  · dsimp only
    rw [assertStep_snd]
    exact hroot
  · dsimp only
    split
    · rw [assertStep_snd]
      exact .tail hroot (.access v slot size hfind)
    · rw [assertStep_snd]
      exact .trans hroot (Edits.update hfind (plainEntry_newPage _ hf))

/-- The walk of `map` leads to an unused section entry, or to an entry of the second level. -/
theorem getEntryMutOrCreate_edits (v : VirtAddr) (size : PageSize) :
    Edits H self.rootPaddr w (self.getEntryMutOrCreate v size w).2 := by
  have hroot : Edits H self.rootPaddr w (w.touch self.root) := .single .accessRoot
  rw [PageTable32.getEntryMutOrCreate_apply]
  split
  · exact .refl
  · dsimp only
    split
    · next hu =>
      rcases ha : H.allocFrame w.os with ⟨_ | p, os⟩
      · exact .tail hroot (.allocFail os ha)
      · exact .tail hroot (.attach v p os hu ha)
    · split <;> exact hroot

theorem map_edits (v : VirtAddr) (target : PhysAddr) (size : PageSize) {f : MappingFlags 32}
    (hf : f.isEmpty = false) : Edits H self.rootPaddr w (self.map v target size f w).2 := by
  have hedits := getEntryMutOrCreate_edits (w := w) self v size
  have hfound := (getEntryMutOrCreate_steps (V := fun _ => True) (S := PlainEntry) (w := w) self
    (v := v) trivial size).2
  rw [PageTable32.map_apply]
  rcases hr : self.getEntryMutOrCreate v size w with ⟨slot | err | _, w₁⟩
  · rw [hr] at hedits hfound
    dsimp only at hedits hfound ⊢
    obtain ⟨hsize, rfl⟩ | ⟨hsize, hfind⟩ := hfound slot rfl
    · split
      · next hu =>
        refine .trans hedits (.tail (.single .accessRoot) (.mapSection v _ hu ?_))
        exact plainEntry_newPage _ hf hsize
      · exact .trans hedits (.single .accessRoot)
    · split
      · exact .trans hedits (Edits.update hfind fun h => by cases h)
      · exact .tail hedits (.access v slot _ hfind)
  · rw [hr] at hedits
    exact hedits
  · rw [hr] at hedits
    exact hedits

theorem regionLoop_edits {body : VirtAddr → Usize → Op (World A32PTE σ) PageSize}
    (hbody : ∀ v size (w : World A32PTE σ), Edits H root w (body v size w).2) (fuel : ℕ)
    (v : VirtAddr) (size : Usize) : Edits H root w (regionLoop B body fuel v size w).2 :=
  regionLoop_rel (J := fun _ => True) (r := Edits H root) (fun _ => .refl)
    (fun h h' => .trans h h') (fun v size w _ => ⟨hbody v size w, trivial⟩) fuel v size trivial

/-- The methods are chains of edits. -/
theorem Call.Plain.edits {c : Call} (hc : c.Plain) : Edits H self.rootPaddr w (c.next self w) := by
  cases c with
  | query v => exact query_edits self v
  | map v target size f => exact map_edits self v target size hc.2
  | remap v target f => exact remap_edits self v target hc
  | protect v f => exact protect_edits self v hc
  | unmap v => exact unmap_edits self v
  | mapRegion v getPaddr size f allowHuge =>
    rw [Call.next, PageTable32.mapRegion]
    split
    · exact .refl
    · refine regionLoop_edits (fun v size w => ?_) _ v size
      rw [mapRegionStep_snd]
      exact map_edits self v _ _ hc
  | unmapRegion v size =>
    refine regionLoop_edits (fun v size w => ?_) _ v size
    rw [unmapRegionStep_snd]
    exact unmap_edits self v
  | protectRegion v size f =>
    exact regionLoop_edits (fun v size w => protectRegionStep_edits self v hc size) _ v size

end Methods

/-! ### What is recorded -/

/-- Each mapping that has changed since `w` is covered by the flush that is pending in `w'`. -/
structure Tracked (root : PhysAddr) (w w' : World A32PTE σ) : Prop where
  leaf (v : VirtAddr) : leafAt root v w'.mem = leafAt root v w.mem ∨
    ∀ e size, leafAt root v w.mem = some (e, size) → Flushed w'.flusher.calls v size
  keeps {v : VirtAddr} {size : PageSize} : Flushed w.flusher.calls v size →
    Flushed w'.flusher.calls v size

theorem Tracked.refl (root : PhysAddr) (w : World A32PTE σ) : Tracked root w w :=
  ⟨fun _ => Or.inl rfl, id⟩

theorem Tracked.trans (h : Tracked root w w') (h' : Tracked root w' w'') :
    Tracked root w w'' where
  leaf v := by
    obtain h1 | h1 := h.leaf v
    · rw [← h1]
      exact h'.leaf v
    · exact Or.inr fun e size he => h'.keeps (h1 e size he)
  keeps hf := h'.keeps (h.keeps hf)

/-- Walks to addresses of the same page end on the same level. -/
theorem find_size_of_samePage {v v' : VirtAddr} {slot slot' : Slot} {size size' : PageSize}
    (h : find root v w.mem = some (slot, size)) (hs : SamePage size v v')
    (h' : find root v' w.mem = some (slot', size')) : size' = size := by
  have hslot : p1Index v' = p1Index v := by
    obtain ⟨-, ⟨-, -, rfl⟩ | ⟨-, -, rfl⟩⟩ := find_cases h
    · exact samePage_section.mp hs
    · exact (samePage_small.mp hs).1
  obtain ⟨-, ⟨hh, -, rfl⟩ | ⟨hh, -, rfl⟩⟩ := find_cases h
  · obtain ⟨-, ⟨-, -, hsize⟩ | ⟨hh', -, -⟩⟩ := find_cases h'
    · exact hsize
    · rw [l1Slot, hslot, hh] at hh'
      cases hh'
  · obtain ⟨-, ⟨hh', -, -⟩ | ⟨-, -, hsize⟩⟩ := find_cases h'
    · rw [l1Slot, hslot, hh] at hh'
      cases hh'
    · exact hsize

/-- Each edit is recorded. -/
theorem Edit.tracked (hH : FreshFrames H inUse) (L : Layout PlainEntry inUse root w)
    (h : Edit H root w w') : Tracked root w w' := by
  cases h with
  | accessRoot => exact ⟨fun _ => Or.inl rfl, id⟩
  | access v slot size h => exact ⟨fun _ => Or.inl rfl, id⟩
  | allocFail os h => exact ⟨fun _ => Or.inl rfl, id⟩
  | store v slot size e h hS =>
    refine ⟨fun v' => ?_, fun hf => hf.push v⟩
    have hleaf := L.leafAt_store h hS v'
    by_cases hs : SamePage size v v'
    · -- the page that was mapped is the page of the entry
      right
      intro e' size' he'
      suffices hsize : size' = size by
        rw [hsize]
        exact Flushed.push_self _ hs
      obtain ⟨slot', hfind, -⟩ := find_of_leafAt he'
      exact find_size_of_samePage h hs hfind
    · rw [if_neg hs] at hleaf
      exact Or.inl hleaf
  | mapSection v e h hS =>
    refine ⟨fun v' => ?_, fun hf => hf.push v⟩
    have hleaf := L.leafAt_storeL1 v hS v'
    by_cases hs : SamePage .size1M v v'
    · -- nothing was mapped
      right
      intro e' size' he'
      have hslot : l1Slot root v' = l1Slot root v := by
        rw [l1Slot, l1Slot, samePage_section.mp hs]
      rw [leafAt_of_unused (by rw [hslot]; exact h)] at he'
      cases he'
    · rw [if_neg hs] at hleaf
      exact Or.inl hleaf
  | attach v p os h ha => exact ⟨fun v' => Or.inl (L.leafAt_attach hH h ha v'), id⟩

theorem Edits.tracked (hH : FreshFrames H inUse) (L : Layout PlainEntry inUse root w)
    (h : Edits H root w w') : Tracked root w w' := by
  have hboth : Layout PlainEntry inUse root w' ∧ Tracked root w w' := by
    induction h with
    | refl => exact ⟨L, .refl root w⟩
    | tail _ hedit ih =>
      obtain ⟨L₁, T₁⟩ := ih
      exact ⟨hedit.steps.layout hH (fun _ he => he.sectionEntry) L₁,
        T₁.trans (hedit.tracked hH L₁)⟩
  exact hboth.2

end PageTableMultiarch.Bits32
