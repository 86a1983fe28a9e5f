/-
Runs of one `PageTable32` with ARMv7-A entries.

A run starts with `try_new` and goes on with calls of the methods, each of which may succeed, fail
or panic.  What a call does to a page, alone or in a round of a region method, is a `PageOp`.

* `Call.steps` — every call is a chain of elementary steps;
* `Reachable.layout` — in every state of a run the tables are laid out properly.
-/
import PageTableMultiarch.Table32.Step

namespace PageTableMultiarch.Bits32

open GenericPTE A32PTE

variable {B : Build} {M : PagingMetaData} {σ : Type} {H : PagingHandler 32 σ}
  {S : A32PTE → Prop} {V : VirtAddr → Prop} {inUse : σ → Set ℕ} {root : PhysAddr}
  {w w' : World A32PTE σ}

/-! ### Methods as chains of steps -/

/-- A store at the entry that a walk finds, after the accesses of the walk. -/
theorem Steps.update {v : VirtAddr} {slot : Slot} {size : PageSize} {e : A32PTE}
    (hfind : find root v w.mem = some (slot, size)) (hV : V v) (hS : size = .size1M → S e) :
    Steps H root V S w (((w.touch slot.table).store slot e).queue v) :=
  .tail (.tail (.single (.access v slot size hfind)) (.store v slot size e hfind hV hS)) (.flush _)

variable (self : PageTable32 B M A32PTE H)

theorem query_steps (v : VirtAddr) : Steps H self.rootPaddr V S w (self.query v w).2 := by
  have hroot : Steps H self.rootPaddr V S w (w.touch self.root) := .single .accessRoot
  rw [PageTable32.query_apply]
  rcases hfind : find self.rootPaddr v w.mem with _ | ⟨slot, size⟩
  · exact hroot
  · exact .tail hroot (.access v slot size hfind)

theorem unmap_steps {v : VirtAddr} (hV : V v) (hS : S ⟨0⟩) :
    Steps H self.rootPaddr V S w (self.unmap v w).2 := by
  have hroot : Steps H self.rootPaddr V S w (w.touch self.root) := .single .accessRoot
  rw [PageTable32.unmap_apply]
  rcases hfind : find self.rootPaddr v w.mem with _ | ⟨slot, size⟩
  · exact hroot
  · dsimp only
    split
    · exact .tail hroot (.access v slot size hfind)
    · exact .trans hroot (Steps.update hfind hV fun _ => hS)

theorem remap_steps {v : VirtAddr} (hV : V v) (target : PhysAddr) (f : MappingFlags 32)
    (hS : isHuge (w.entry (l1Slot self.rootPaddr v)) = true → S (newSection target f)) :
    Steps H self.rootPaddr V S w (self.remap v target f w).2 := by
  have hroot : Steps H self.rootPaddr V S w (w.touch self.root) := .single .accessRoot
  rw [PageTable32.remap_apply]
  rcases hfind : find self.rootPaddr v w.mem with _ | ⟨slot, size⟩
  · exact hroot
  · refine .tail (.tail hroot (.store v slot size _ hfind hV fun hsize => ?_)) (.flush _)
    subst hsize
    obtain ⟨-, ⟨hhuge, -⟩ | ⟨-, -, hsize⟩⟩ := find_cases hfind
    · exact hS hhuge
    · nomatch hsize

/-- The entry that `protect` and `protect_region` store in place of a section. -/
theorem section_of_find {v : VirtAddr} {slot : Slot} {size : PageSize} {f : MappingFlags 32}
    (hfind : find root v w.mem = some (slot, size))
    (hS : isHuge (w.entry (l1Slot root v)) = true →
      S (newSection (w.entry (l1Slot root v)).physAddr f)) (hsize : size = .size1M) :
    S (newPage (paddr (w.entry slot)) f size.isHuge) := by
  subst hsize
  obtain ⟨-, ⟨hhuge, rfl, -⟩ | ⟨-, -, hsize⟩⟩ := find_cases hfind
  · exact hS hhuge
  · nomatch hsize

theorem protect_steps {v : VirtAddr} (hV : V v) (f : MappingFlags 32)
    (hS : isHuge (w.entry (l1Slot self.rootPaddr v)) = true →
      S (newSection (w.entry (l1Slot self.rootPaddr v)).physAddr f)) :
    Steps H self.rootPaddr V S w (self.protect v f w).2 := by
  have hroot : Steps H self.rootPaddr V S w (w.touch self.root) := .single .accessRoot
  rw [PageTable32.protect_apply]
  rcases hfind : find self.rootPaddr v w.mem with _ | ⟨slot, size⟩
  · exact hroot
  · dsimp only
    split
    · exact .tail hroot (.access v slot size hfind)
    · exact .trans hroot (Steps.update hfind hV (section_of_find hfind hS))

theorem protectRegionStep_steps {v : VirtAddr} (hV : V v) (f : MappingFlags 32) (rest : Usize)
    (hS : isHuge (w.entry (l1Slot self.rootPaddr v)) = true →
      S (newSection (w.entry (l1Slot self.rootPaddr v)).physAddr f)) :
    Steps H self.rootPaddr V S w (self.protectRegionStep f v rest w).2 := by
  have hroot : Steps H self.rootPaddr V S w (w.touch self.root) := .single .accessRoot
  rw [PageTable32.protectRegionStep_apply]
  rcases hfind : find self.rootPaddr v w.mem with _ | ⟨slot, size⟩
  · dsimp only
    rw [assertStep_snd]
    exact hroot
  · dsimp only
    split
    · rw [assertStep_snd]
      exact .tail hroot (.access v slot size hfind)
    · rw [assertStep_snd]
      exact .trans hroot (Steps.update hfind hV (section_of_find hfind hS))

/-- The walk of `map` leads to an unused section entry, or to an entry of the second level. -/
theorem getEntryMutOrCreate_steps {v : VirtAddr} (hV : V v) (size : PageSize) :
    Steps H self.rootPaddr V S w (self.getEntryMutOrCreate v size w).2 ∧
      ∀ slot, (self.getEntryMutOrCreate v size w).1 = .ok slot →
        size = .size1M ∧ slot = l1Slot self.rootPaddr v ∨ size ≠ .size1M ∧
          find self.rootPaddr v (self.getEntryMutOrCreate v size w).2.mem =
            some (slot, .size4K) := by
  have hroot : Steps H self.rootPaddr V S w (w.touch self.root) := .single .accessRoot
  rw [PageTable32.getEntryMutOrCreate_apply]
  split
  · next hsize =>
    refine ⟨.refl, fun slot hok => Or.inl ⟨hsize, ?_⟩⟩
    exact (Res.ok.inj hok).symm
  · next hsize =>
    dsimp only
    split
    · next hu =>
      -- an unused first-level entry gets a second level, if there is a frame
      rcases ha : H.allocFrame w.os with ⟨_ | p, os⟩
      · refine ⟨.tail hroot (.allocFail os ha), fun slot hok => nomatch hok⟩
      · refine ⟨.tail hroot (.attach v p os hu ha hV), fun slot hok => Or.inr ⟨hsize, ?_⟩⟩
        obtain rfl := Res.ok.inj hok
        dsimp only
        have hentry : (((w.touch self.root).grant p os).store (l1Slot self.rootPaddr v)
            (newTable p)).entry (l1Slot self.rootPaddr v) = newTable p := by
          rw [World.store_entry, if_pos rfl]
        rw [find_page (by rw [hentry]; exact isUnused_newTable p)
          (by rw [hentry]; exact isHuge_newTable p), hentry]
    · next hu =>
      split
      · exact ⟨hroot, fun slot hok => nomatch hok⟩
      · next hh =>
        refine ⟨hroot, fun slot hok => Or.inr ⟨hsize, ?_⟩⟩
        obtain rfl := Res.ok.inj hok
        exact find_page (Bool.eq_false_iff.mpr hu) (Bool.eq_false_iff.mpr hh)

theorem map_steps {v : VirtAddr} (hV : V v) (target : PhysAddr) (size : PageSize)
    (f : MappingFlags 32)
    (hS : size = .size1M → isUnused (w.entry (l1Slot self.rootPaddr v)) = true →
      S (newSection (MemoryAddr.alignDown target (PageSize.size1M.toUsize 32)) f)) :
    Steps H self.rootPaddr V S w (self.map v target size f w).2 := by
  obtain ⟨hsteps, hfound⟩ := getEntryMutOrCreate_steps (S := S) (w := w) self hV size
  rw [PageTable32.map_apply]
  rcases hr : self.getEntryMutOrCreate v size w with ⟨slot | err | _, w₁⟩
  · rw [hr] at hsteps hfound
    dsimp only at hsteps hfound ⊢
    obtain ⟨hsize, rfl⟩ | ⟨hsize, hfind⟩ := hfound slot rfl
    · -- a section: the walk has not touched anything
      obtain rfl : w₁ = w := by
        rw [PageTable32.getEntryMutOrCreate_apply, if_pos hsize] at hr
        exact (Prod.mk.inj hr).2.symm
      split
      · next hu =>
        subst hsize
        exact .tail (.tail (.single .accessRoot) (.mapSection v _ hu hV (hS rfl hu))) (.flush _)
      · exact .single .accessRoot
    · split
      · exact .trans hsteps (Steps.update hfind hV fun h => nomatch h)
      · exact .tail hsteps (.access v slot _ hfind)
  · rw [hr] at hsteps
    exact hsteps
  · rw [hr] at hsteps
    exact hsteps

theorem mapRegionStep_snd (getPaddr : VirtAddr → PhysAddr) (f : MappingFlags 32)
    (allowHuge : Bool) (v : VirtAddr) (size : Usize) :
    (self.mapRegionStep getPaddr f allowHuge v size w).2 = (self.map v (getPaddr v)
      (PageTable32.regionPageSize v (getPaddr v) size allowHuge) f w).2 := by
  rw [PageTable32.mapRegionStep, Op.bind_apply]
  rcases self.map v (getPaddr v) (PageTable32.regionPageSize v (getPaddr v) size allowHuge) f w
    with ⟨_ | e | _, w'⟩ <;> rfl

theorem unmapRegionStep_snd (v : VirtAddr) (size : Usize) :
    (self.unmapRegionStep v size w).2 = (self.unmap v w).2 := by
  rw [PageTable32.unmapRegionStep, Op.bind_apply]
  rcases self.unmap v w with ⟨⟨_, _, ps⟩ | e | _, w'⟩
  · exact assertStep_snd _ _ _ _
  · rfl
  · rfl

/-! ### Runs -/

/-- What is done to the page at an address; `setFlags` is a round of `protect_region`. -/
inductive PageOp where
  | map (vaddr : VirtAddr) (target : PhysAddr) (pageSize : PageSize) (f : MappingFlags 32)
  | remap (vaddr : VirtAddr) (target : PhysAddr) (f : MappingFlags 32)
  | protect (vaddr : VirtAddr) (f : MappingFlags 32)
  | setFlags (vaddr : VirtAddr) (f : MappingFlags 32)
  | unmap (vaddr : VirtAddr)

/-- The address of an operation. -/
def PageOp.addr : PageOp → VirtAddr
  | .map v _ _ _ | .remap v _ _ | .protect v _ | .setFlags v _ | .unmap v => v

/-- The entries of the first level that an operation stores satisfy a condition. -/
def PageOp.Stores (S : A32PTE → Prop) (root : PhysAddr) (w : World A32PTE σ) : PageOp → Prop
  | .map v target size f => size = .size1M → isUnused (w.entry (l1Slot root v)) = true →
    S (newSection (MemoryAddr.alignDown target (PageSize.size1M.toUsize 32)) f)
  | .remap v target f => isHuge (w.entry (l1Slot root v)) = true → S (newSection target f)
  | .protect v f | .setFlags v f => isHuge (w.entry (l1Slot root v)) = true →
    S (newSection (w.entry (l1Slot root v)).physAddr f)
  | .unmap _ => S ⟨0⟩

/-- A call of a method of a page table or of its cursor. -/
inductive Call where
  | query (vaddr : VirtAddr)
  | map (vaddr : VirtAddr) (target : PhysAddr) (pageSize : PageSize) (f : MappingFlags 32)
  | remap (vaddr : VirtAddr) (target : PhysAddr) (f : MappingFlags 32)
  | protect (vaddr : VirtAddr) (f : MappingFlags 32)
  | unmap (vaddr : VirtAddr)
  | mapRegion (vaddr : VirtAddr) (getPaddr : VirtAddr → PhysAddr) (size : Usize)
    (f : MappingFlags 32) (allowHuge : Bool)
  | unmapRegion (vaddr : VirtAddr) (size : Usize)
  | protectRegion (vaddr : VirtAddr) (size : Usize) (f : MappingFlags 32)

/-- The state after a call, whatever it returns. -/
def Call.next (self : PageTable32 B M A32PTE H) (w : World A32PTE σ) : Call → World A32PTE σ
  | .query v => (self.query v w).2
  | .map v target size f => (self.map v target size f w).2
  | .remap v target f => (self.remap v target f w).2
  | .protect v f => (self.protect v f w).2
  | .unmap v => (self.unmap v w).2
  | .mapRegion v getPaddr size f allowHuge => (self.mapRegion v getPaddr size f allowHuge w).2
  | .unmapRegion v size => (self.unmapRegion v size w).2
  | .protectRegion v size f => (self.protectRegion v size f w).2

/-- The states after a list of calls. -/
def Call.nextAll (self : PageTable32 B M A32PTE H) (cs : List Call) (w : World A32PTE σ) :
    World A32PTE σ :=
  cs.foldl (Call.next self) w

/-- A condition holds of each operation of a call on a page, when it is started. -/
def Call.EachPage (ok : PageOp → World A32PTE σ → Prop) (self : PageTable32 B M A32PTE H)
    (w : World A32PTE σ) : Call → Prop
  | .query _ => True
  | .map v target size f => ok (.map v target size f) w
  | .remap v target f => ok (.remap v target f) w
  | .protect v f => ok (.protect v f) w
  | .unmap v => ok (.unmap v) w
  | .mapRegion v getPaddr size f allowHuge =>
    PageSize.size4K.isAligned v = true → PageSize.size4K.isAligned size = true →
      Rounds B (self.mapRegionStep getPaddr f allowHuge)
        (fun v size w => ok (.map v (getPaddr v)
          (PageTable32.regionPageSize v (getPaddr v) size allowHuge) f) w) (regionFuel size)
        v size w
  | .unmapRegion v size =>
    Rounds B self.unmapRegionStep (fun v _ w => ok (.unmap v) w) (regionFuel size) v size w
  | .protectRegion v size f =>
    Rounds B (self.protectRegionStep f) (fun v _ w => ok (.setFlags v f) w) (regionFuel size)
      v size w

/-- A condition holds of each operation of a run on a page, when it is started. -/
def Call.EachPageAll (ok : PageOp → World A32PTE σ → Prop) (self : PageTable32 B M A32PTE H) :
    List Call → World A32PTE σ → Prop
  | [], _ => True
  | c :: cs, w => c.EachPage ok self w ∧ Call.EachPageAll ok self cs (c.next self w)

theorem regionLoop_steps {body : VirtAddr → Usize → Op (World A32PTE σ) PageSize}
    {ok : VirtAddr → Usize → World A32PTE σ → Prop}
    (hbody : ∀ v size w, ok v size w → Steps H root V S w (body v size w).2) {fuel : ℕ}
    {v : VirtAddr} {size : Usize} (hok : Rounds B body ok fuel v size w) :
    Steps H root V S w (regionLoop B body fuel v size w).2 :=
  regionLoop_rounds (J := fun _ => True) (r := Steps H root V S) (fun _ => .refl)
    (fun h h' => .trans h h') (fun v size w _ h => ⟨hbody v size w h, trivial⟩) fuel v size
    trivial hok

/-- Every call is a chain of steps. -/
theorem Call.steps (c : Call)
    (hc : c.EachPage (fun op w => V op.addr ∧ op.Stores S self.rootPaddr w) self w) :
    Steps H self.rootPaddr V S w (c.next self w) := by
  cases c with
  | query v => exact query_steps self v
  | map v target size f => exact map_steps self hc.1 target size f hc.2
  | remap v target f => exact remap_steps self hc.1 target f hc.2
  | protect v f => exact protect_steps self hc.1 f hc.2
  | unmap v => exact unmap_steps self hc.1 hc.2
  | mapRegion v getPaddr size f allowHuge =>
    rw [Call.EachPage] at hc
    rw [Call.next, PageTable32.mapRegion]
    split
    · exact .refl
    · next haligned =>
      obtain ⟨hv, hsize⟩ := PageSize.isAligned_of_not haligned
      refine regionLoop_steps (fun v size w hok => ?_) (hc hv hsize)
      rw [mapRegionStep_snd]
      exact map_steps self hok.1 _ _ f hok.2
  | unmapRegion v size =>
    rw [Call.EachPage] at hc
    refine regionLoop_steps (fun v size w hok => ?_) hc
    rw [unmapRegionStep_snd]
    exact unmap_steps self hok.1 hok.2
  | protectRegion v size f =>
    rw [Call.EachPage] at hc
    refine regionLoop_steps (fun v size w hok => ?_) hc
    exact protectRegionStep_steps self hok.1 f size hok.2

theorem Call.EachPage.mono {ok ok' : PageOp → World A32PTE σ → Prop}
    (h : ∀ op w, ok op w → ok' op w) {self : PageTable32 B M A32PTE H} {c : Call}
    (hc : c.EachPage ok self w) : c.EachPage ok' self w := by
  cases c with
  | query v => trivial
  | map v target size f => exact h _ _ hc
  | remap v target f => exact h _ _ hc
  | protect v f => exact h _ _ hc
  | unmap v => exact h _ _ hc
  | mapRegion v getPaddr size f allowHuge =>
    exact fun hv hsize => Rounds.mono (fun _ _ _ => h _ _) (hc hv hsize)
  | unmapRegion v size => exact Rounds.mono (fun _ _ _ => h _ _) hc
  | protectRegion v size f => exact Rounds.mono (fun _ _ _ => h _ _) hc

theorem Call.eachPage_of_forall {ok : PageOp → World A32PTE σ → Prop} (h : ∀ op w, ok op w)
    (c : Call) : c.EachPage ok self w := by
  cases c with
  | query v => trivial
  | map v target size f => exact h _ _
  | remap v target f => exact h _ _
  | protect v f => exact h _ _
  | unmap v => exact h _ _
  | mapRegion v getPaddr size f allowHuge =>
    exact fun _ _ => Rounds.of_forall (fun _ _ _ => h _ _) _ _ _ _
  | unmapRegion v size => exact Rounds.of_forall (fun _ _ _ => h _ _) _ _ _ _
  | protectRegion v size f => exact Rounds.of_forall (fun _ _ _ => h _ _) _ _ _ _

/-- Everything that is stored in the first level is a section, perhaps without access. -/
theorem sectionEntry_newSection (p : PhysAddr) (f : MappingFlags 32) :
    SectionEntry (newSection p f) := by
  rw [SectionEntry, descriptorType_newSection]
  cases f.isEmpty with
  | true => exact Or.inl rfl
  | false => exact Or.inr rfl

theorem PageOp.stores_sectionEntry (op : PageOp) : op.Stores SectionEntry root w := by
  cases op with
  | map v target size f => exact fun _ _ => sectionEntry_newSection _ _
  | remap v target f => exact fun _ => sectionEntry_newSection _ _
  | protect v f => exact fun _ => sectionEntry_newSection _ _
  | setFlags v f => exact fun _ => sectionEntry_newSection _ _
  | unmap v => exact Or.inl (by decide)

/-- Every call at addresses in `V` is a chain of steps. -/
theorem Call.steps_sectionEntry (c : Call) (hc : c.EachPage (fun op _ => V op.addr) self w) :
    Steps H self.rootPaddr V SectionEntry w (c.next self w) :=
  c.steps self (Call.EachPage.mono (fun op _ hV => ⟨hV, op.stores_sectionEntry⟩) hc)

/-- The states of a table that can be reached from `try_new`. -/
inductive Reachable (self : PageTable32 B M A32PTE H) : World A32PTE σ → Prop
  | new {w₀ w : World A32PTE σ}
    (h : PageTable32.tryNew B M A32PTE H w₀ = (.ok self, w)) : Reachable self w
  | call {w : World A32PTE σ} (h : Reachable self w) (c : Call) : Reachable self (c.next self w)

/-- What `try_new` does: it gets four frames and zeroes them. -/
theorem tryNew_eq {self : PageTable32 B M A32PTE H} {w₀ : World A32PTE σ}
    (h : PageTable32.tryNew B M A32PTE H w₀ = (.ok self, w)) : ∃ os,
      H.allocFrames w₀.os L1_SIZE_PAGES L1_ALIGN = (some self.rootPaddr, os) ∧
        self.borrowedEntries = (fun _ => false) ∧
        w = { w₀ with
          mem := zeroed w₀.mem self.rootPaddr (L1_SIZE_PAGES * 0x1000)
          os := os
          trace := .access self.root :: .alloc self.root :: w₀.trace } := by
  rw [PageTable32.tryNew] at h
  rcases ha : H.allocFrames w₀.os L1_SIZE_PAGES L1_ALIGN with ⟨_ | p, os⟩
  · rw [ha] at h
    exact absurd (congrArg Prod.fst h) (by simp)
  · rw [ha] at h
    simp only [Prod.mk.injEq, Res.ok.injEq] at h
    obtain ⟨rfl, rfl⟩ := h
    exact ⟨os, rfl, rfl, rfl⟩

/-- The first level of a new table is unused. -/
theorem tryNew_entry (hH : FreshFrames H inUse) {self : PageTable32 B M A32PTE H}
    {w₀ : World A32PTE σ} (h : PageTable32.tryNew B M A32PTE H w₀ = (.ok self, w))
    (i : Fin ENTRY_COUNT) : w.entry (l1At self.rootPaddr i) = ⟨0⟩ := by
  obtain ⟨os, ha, -, rfl⟩ := tryNew_eq h
  have hi : i.val < 4096 := i.isLt
  have hroot := self.rootPaddr.isLt
  have haddr := toNat_l1At (hH.frames_aligned ha) i
  show zeroed w₀.mem self.rootPaddr (L1_SIZE_PAGES * 0x1000) (l1At self.rootPaddr i).addr = ⟨0⟩
  rw [zeroed, if_pos]
  · rfl
  · rw [BitVec.toNat_sub, haddr, L1_SIZE_PAGES]
    omega

theorem tryNew_layout (hH : FreshFrames H inUse) (hS : S ⟨0⟩)
    {self : PageTable32 B M A32PTE H} {w₀ : World A32PTE σ}
    (h : PageTable32.tryNew B M A32PTE H w₀ = (.ok self, w)) :
    Layout S inUse self.rootPaddr w := by
  have hzero := tryNew_entry hH h
  obtain ⟨os, ha, -, rfl⟩ := tryNew_eq h
  have hne : ∀ p : PhysAddr, (⟨0⟩ : A32PTE) ≠ newTable p := by
    intro p h0
    have htype := descriptorType_newTable p
    rw [← h0] at htype
    exact absurd htype (by decide)
  refine ⟨hH.frames_aligned ha, hH.frames_ne_zero ha, fun n hn => ?_, fun i => ?_,
    fun {i _ p} hi _ => ?_⟩
  · have hin := hH.frames_alloc ha (n - frameOf self.rootPaddr) (by
      have := hn.1
      have := hn.2
      omega)
    rwa [show frameOf self.rootPaddr + (n - frameOf self.rootPaddr) = n by have := hn.1; omega]
      at hin
  · rw [hzero i]
    exact Or.inl hS
  · rw [hzero i] at hi
    exact absurd hi (hne p)

/-- In every state of a run the tables are laid out properly. -/
theorem Reachable.layout (hH : FreshFrames H inUse) {self : PageTable32 B M A32PTE H}
    (h : Reachable self w) : Layout SectionEntry inUse self.rootPaddr w := by
  induction h with
  | new h => exact tryNew_layout hH (Or.inl (by decide)) h
  | call h c ih =>
    exact (c.steps_sectionEntry (V := fun _ => True) _
      (Call.eachPage_of_forall _ (fun _ _ => trivial) c)).layout hH (fun _ he => he) ih

/-! ### An allocator -/

/-- An allocator that counts up; the state is the number of the last frame handed out. -/
def bumpHandler (limit : ℕ) : PagingHandler 32 ℕ where
  allocFrame n :=
    if n < limit then (some (BitVec.ofNat 32 (0x1000 * (n + 1))), n + 1) else (none, n)
  allocFrames n _ _ :=
    if n / 4 * 4 + 7 ≤ limit then (some (BitVec.ofNat 32 (0x4000 * (n / 4 + 1))), n / 4 * 4 + 7)
    else (none, n)
  deallocFrame n _ := n
  deallocFrames n _ _ := n

theorem bumpHandler_allocFrame {limit n n' : ℕ} (h : limit < 0x100000) {p : PhysAddr}
    (ha : (bumpHandler limit).allocFrame n = (some p, n')) :
    p.toNat = 0x1000 * (n + 1) ∧ n' = n + 1 := by
  simp only [bumpHandler] at ha
  split at ha
  · simp only [Prod.mk.injEq, Option.some.injEq] at ha
    obtain ⟨rfl, rfl⟩ := ha
    refine ⟨?_, rfl⟩
    rw [BitVec.toNat_ofNat, Nat.mod_eq_of_lt (by omega)]
  · exact absurd (congrArg Prod.fst ha) (by simp)

/-- The four frames of a root follow the number up to its next multiple of 4. -/
theorem bumpHandler_allocFrames {limit n n' : ℕ} (h : limit < 0x100000) {p : PhysAddr}
    (ha : (bumpHandler limit).allocFrames n L1_SIZE_PAGES L1_ALIGN = (some p, n')) :
    p.toNat = 0x4000 * (n / 4 + 1) ∧ n' = n / 4 * 4 + 7 := by
  simp only [bumpHandler] at ha
  split at ha
  · simp only [Prod.mk.injEq, Option.some.injEq] at ha
    obtain ⟨rfl, rfl⟩ := ha
    refine ⟨?_, rfl⟩
    rw [BitVec.toNat_ofNat, Nat.mod_eq_of_lt (by omega)]
  · exact absurd (congrArg Prod.fst ha) (by simp)

theorem freshFrames_bumpHandler {limit : ℕ} (h : limit < 0x100000) :
    FreshFrames (bumpHandler limit) fun n => {k | k ≤ n} := by
  refine ⟨fun ha => ?_, ?_, fun ha => ?_, fun ha => ?_, fun ha => ?_, fun ha => ?_, ?_, ?_⟩
  · rw [(bumpHandler_allocFrame h ha).1]
    exact Nat.mul_mod_right _ _
  · rintro s s' p ha rfl
    exact absurd (bumpHandler_allocFrame h ha).1 (by simp)
  · rw [frameOf, (bumpHandler_allocFrame h ha).1]
    simp
  · obtain ⟨hp, rfl⟩ := bumpHandler_allocFrame h ha
    rintro k (rfl | hk)
    · rw [Set.mem_ofPred_eq, frameOf, hp]
      omega
    · rw [Set.mem_ofPred_eq] at hk ⊢
      omega
  · simp only [bumpHandler] at ha
    split at ha
    · exact absurd (congrArg Prod.fst ha) (by simp)
    · simp only [Prod.mk.injEq, true_and] at ha
      rw [ha]
  · rw [(bumpHandler_allocFrames h ha).1, L1_ALIGN]
    exact Nat.mul_mod_right _ _
  · rintro s s' p ha rfl
    exact absurd (bumpHandler_allocFrames h ha).1 (by simp)
  · intro s s' p ha i hi
    obtain ⟨hp, rfl⟩ := bumpHandler_allocFrames h ha
    rw [Set.mem_ofPred_eq, frameOf, hp]
    rw [L1_SIZE_PAGES] at hi
    omega

/-- A state before any table. -/
def blankWorld : World A32PTE ℕ := { mem := fun _ => ⟨0⟩, os := 0, trace := [], flusher := .none }

/-- The first table made from the blank state, and the state after it is made. -/
def firstTable (B : Build) (limit : ℕ) :
    PageTable32 B A32PagingMetaData A32PTE (bumpHandler limit) :=
  ⟨0x4000, fun _ => false⟩

def firstWorld : World A32PTE ℕ :=
  { mem := fun _ => ⟨0⟩, os := 7,
    trace := [.access ⟨0x4000, 4⟩, .alloc ⟨0x4000, 4⟩], flusher := .none }

theorem tryNew_blankWorld (limit : ℕ) :
    PageTable32.tryNew B A32PagingMetaData A32PTE (bumpHandler (limit + 7)) blankWorld =
      (.ok (firstTable B (limit + 7)), firstWorld) := by
  have halloc : (bumpHandler (limit + 7)).allocFrames blankWorld.os L1_SIZE_PAGES L1_ALIGN =
      (some 0x4000, 7) := by
    simp [bumpHandler, blankWorld]
  have hmem : zeroed (fun _ => ⟨0⟩ : PhysAddr → A32PTE) 0x4000 (L1_SIZE_PAGES * 0x1000) =
      fun _ => ⟨0⟩ := by
    funext a
    exact ite_self _
  rw [PageTable32.tryNew, halloc]
  simp only [blankWorld, hmem]
  rfl

theorem reachable_firstWorld (limit : ℕ) :
    Reachable (firstTable B (limit + 7)) firstWorld :=
  .new (tryNew_blankWorld limit)

end PageTableMultiarch.Bits32
