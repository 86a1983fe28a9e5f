/-
Runs of one `PageTable64`.

A run starts with `try_new` and goes on with calls of the methods, each of which may
succeed, fail or panic.

* `Call.steps` — every call is a chain of elementary steps;
* `Reachable.inv` — in every state of a run with accepted flags the invariant holds;
* `regionLoop_rule` — the rule for the loops of the region methods.
-/
import PageTableMultiarch.Table64.Effect

namespace PageTableMultiarch

open GenericPTE Radix

variable {B : Build} {M : PagingMetaData} {PTE σ : Type} {H : PagingHandler 64 σ}

/-! ### Calls as chains of steps -/

variable [GenericPTE 64 PTE] {P : PTE → Prop} {root : PhysAddr}
  {A : List (Fin ENTRY_COUNT) → Prop} {w : World PTE σ}

/-- The entries that the methods store where all leaves satisfy `P`. -/
def LeafStore (P : PTE → Prop) (M : PagingMetaData) (ρ : List (Fin ENTRY_COUNT)) (e : PTE) :
    Prop :=
  LeafEntry P M ρ.length e

variable {W : List (Fin ENTRY_COUNT) → PTE → Prop}

theorem LeafEntry.leafStore (hL : M.LEVELS = 3 ∨ M.LEVELS = 4) {v : VirtAddr}
    {k : ℕ} {e : PTE} (h : LeafEntry P M (M.LEVELS - k) e) : LeafStore P M (pathTo M k v) e := by
  rw [LeafStore, length_pathTo hL]
  exact h

/-- A store at the entry that a walk finds, after the accesses of the walk. -/
theorem Steps.store_found (hL : M.LEVELS = 3 ∨ M.LEVELS = 4) {acc : List PhysAddr}
    (hacc : ∀ t ∈ acc, t ∈ nodes child w.mem {root} (M.LEVELS - 1)) {v : VirtAddr} {slot : Slot}
    {k : ℕ} (hs : seek w.mem root (vpath M v) = .ok (slot, k)) {e : PTE}
    (he : W (pathTo M k v) e) : Steps M H root A W w ((w.touch acc).store slot e) := by
  obtain ⟨hslot, hk, hh⟩ := slotAt_of_seek hL hs
  have hlen := length_pathTo hL k v
  refine .tail (Steps.touch acc hacc) (.store (pathTo M k v) slot e hslot (by omega) ?_ he)
  rcases Nat.eq_zero_or_pos k with hk0 | hk0
  · exact Or.inl (by omega)
  · exact Or.inr (child_of_isHuge (hh hk0))

theorem Steps.queue {w' : World PTE σ} (h : Steps M H root A W w w') (v : VirtAddr) :
    Steps M H root A W w (w'.queue v) :=
  .tail h (.flush _)

section Lawful

variable [LawfulPTE M PTE] (self : PageTable64 B M PTE H) {f : MappingFlags 64}

theorem query_steps (v : VirtAddr) :
    Steps M H self.rootPaddr A W w (self.query v w).2 := by
  obtain ⟨acc, hacc, heq⟩ := query_apply (LawfulPTE.levels PTE) self v w
  have htouch : (self.query v w).2 = w.touch acc := by
    rw [heq]
    split
    · split <;> rfl
    · rfl
  rw [htouch]
  exact Steps.touch acc hacc

/-! With any flags: the entries stored are in `W` when those are that the method makes. -/

theorem Steps.unmap (v : VirtAddr) (hempty : ∀ k, W (pathTo M k v) (empty : PTE)) :
    Steps M H self.rootPaddr A W w (self.unmap v w).2 := by
  have hL := LawfulPTE.levels (M := M) PTE
  obtain ⟨acc, hacc, heq⟩ := unmap_apply hL self v w
  rcases hs : seek w.mem self.rootPaddr (vpath M v) with e | ⟨slot, k⟩
  · simp only [hs] at heq
    rw [heq]
    exact Steps.touch acc hacc
  · have hclear : W (pathTo M k v) (clear (w.entry slot)) := by
      rw [LawfulPTE.clear_eq M]
      exact hempty k
    have hstore := Steps.store_found (H := H) (A := A) hL hacc hs hclear
    simp only [hs] at heq
    rw [heq]
    split
    · exact hstore.queue v
    · exact hstore

theorem Steps.protect (v : VirtAddr) (f : MappingFlags 64)
    (hW : ∀ slot k, seek w.mem self.rootPaddr (vpath M v) = .ok (slot, k) →
      isPresent (w.entry slot) = true → flagsPass B PTE f = true →
      W (pathTo M k v) (setFlags (w.entry slot) f (heightSize k).isHuge)) :
    Steps M H self.rootPaddr A W w (self.protect v f w).2 := by
  have hL := LawfulPTE.levels (M := M) PTE
  obtain ⟨acc, hacc, heq⟩ := protect_apply hL self v w f
  rcases hs : seek w.mem self.rootPaddr (vpath M v) with e | ⟨slot, k⟩
  · simp only [hs] at heq
    rw [heq]
    exact Steps.touch acc hacc
  · simp only [hs] at heq
    rw [heq]
    split
    · next hp =>
      split
      · next hf => exact (Steps.store_found hL hacc hs (hW slot k hs hp hf)).queue v
      · exact Steps.touch acc hacc
    · exact Steps.touch acc hacc

theorem Steps.remap (v : VirtAddr) (target : PhysAddr) (f : MappingFlags 64)
    (hW : ∀ slot k, seek w.mem self.rootPaddr (vpath M v) = .ok (slot, k) →
      flagsPass B PTE f = true →
      W (pathTo M k v) (setFlags (setPaddr (w.entry slot) target) f (heightSize k).isHuge))
    (hW' : ∀ slot k, seek w.mem self.rootPaddr (vpath M v) = .ok (slot, k) →
      ¬ flagsPass B PTE f = true → W (pathTo M k v) (setPaddr (w.entry slot) target)) :
    Steps M H self.rootPaddr A W w (self.remap v target f w).2 := by
  have hL := LawfulPTE.levels (M := M) PTE
  obtain ⟨acc, hacc, heq⟩ := remap_apply hL self v w target f
  rcases hs : seek w.mem self.rootPaddr (vpath M v) with e | ⟨slot, k⟩
  · simp only [hs] at heq
    rw [heq]
    exact Steps.touch acc hacc
  · simp only [hs] at heq
    rw [heq]
    split
    · next hf => exact (Steps.store_found hL hacc hs (hW slot k hs hf)).queue v
    · next hf => exact Steps.store_found hL hacc hs (hW' slot k hs hf)

theorem Steps.protectRegionStep (v : VirtAddr) (size : Usize) (f : MappingFlags 64)
    (hW : ∀ slot k, seek w.mem self.rootPaddr (vpath M v) = .ok (slot, k) →
      isPresent (w.entry slot) = true → flagsPass B PTE f = true →
      W (pathTo M k v) (setFlags (w.entry slot) f (heightSize k).isHuge)) :
    Steps M H self.rootPaddr A W w (self.protectRegionStep f v size w).2 := by
  have hL := LawfulPTE.levels (M := M) PTE
  obtain ⟨acc, hacc, heq⟩ := protectRegionStep_apply hL self v w f size
  rcases hs : seek w.mem self.rootPaddr (vpath M v) with e | ⟨slot, k⟩
  · have htouch : (self.protectRegionStep f v size w).2 = w.touch acc := by
      rw [heq, hs]
      cases e <;> first | rfl | exact assertStep_snd _ _ _ _
    rw [htouch]
    exact Steps.touch acc hacc
  · simp only [hs] at heq
    rw [heq]
    split
    · next hp =>
      split
      · next hf =>
        rw [assertStep_snd]
        exact (Steps.store_found hL hacc hs (hW slot k hs hp hf)).queue v
      · exact Steps.touch acc hacc
    · rw [assertStep_snd]
      exact Steps.touch acc hacc

theorem Steps.map {inUse : σ → Set PhysAddr} (hH : FreshFrames M H inUse)
    (T : Tree M inUse self.rootPaddr w) (v : VirtAddr) (target : PhysAddr) (size : PageSize)
    (f : MappingFlags 64)
    (hW : (self.map v target size f w).1 = .ok () → flagsPass B PTE f = true →
      W (pathTo M size.height v)
        (newPage (MemoryAddr.alignDown target (size.toUsize 64)) f size.isHuge)) :
    Steps M H self.rootPaddr (CreatePath M H self.rootPaddr w v size.height) W w
      (self.map v target size f w).2 := by
  have hlen := length_pathTo (M := M) (LawfulPTE.levels PTE) size.height v
  obtain ⟨w', hgrow, ⟨err, heq, -⟩ | ⟨slot, hslot, hold, heq⟩⟩ :=
    map_apply hH self v target size f T
  · rw [heq]
    exact hgrow.steps
  · by_cases hf : flagsPass B PTE f = true
    · rw [if_pos hf] at heq
      have hentry := hW (by rw [heq]) hf
      rw [heq]
      refine Steps.queue (.tail hgrow.steps (.store _ slot _ hslot (by omega) (Or.inr ?_) hentry)) v
      rw [hold]
      exact child_empty M
    · rw [heq, if_neg hf]
      exact hgrow.steps

/-! With allowed flags the entries stored are leaves. -/

omit [LawfulPTE M PTE] in
theorem leafStore_empty (v : VirtAddr) (k : ℕ) : LeafStore P M (pathTo M k v) (empty : PTE) :=
  Or.inl rfl

theorem leafStore_setFlags (hf : Allowed P f) (v : VirtAddr) (e : PTE) {slot : Slot} {k : ℕ}
    (hs : seek w.mem root (vpath M v) = .ok (slot, k)) :
    LeafStore P M (pathTo M k v) (setFlags e f (heightSize k).isHuge) :=
  have hL := LawfulPTE.levels (M := M) PTE
  (setFlags_leafEntry hf e (slotAt_of_seek hL hs).2.1).leafStore hL

theorem unmap_steps (v : VirtAddr) :
    Steps M H self.rootPaddr A (LeafStore P M) w (self.unmap v w).2 :=
  Steps.unmap self v (leafStore_empty v)

theorem protect_steps (hf : Allowed P f) (v : VirtAddr) :
    Steps M H self.rootPaddr A (LeafStore P M) w (self.protect v f w).2 :=
  Steps.protect self v f fun _ _ hs _ _ => leafStore_setFlags hf v _ hs

theorem remap_steps (hf : Allowed P f) (v : VirtAddr) (target : PhysAddr) :
    Steps M H self.rootPaddr A (LeafStore P M) w (self.remap v target f w).2 :=
  Steps.remap self v target f (fun _ _ hs _ => leafStore_setFlags hf v _ hs)
    fun _ _ _ hno => absurd (flagsPass_of_accepted hf.accepted) hno

theorem protectRegionStep_steps (hf : Allowed P f) (v : VirtAddr) (size : Usize) :
    Steps M H self.rootPaddr A (LeafStore P M) w (self.protectRegionStep f v size w).2 :=
  Steps.protectRegionStep self v size f fun _ _ hs _ _ => leafStore_setFlags hf v _ hs

theorem map_steps {inUse : σ → Set PhysAddr} (hH : FreshFrames M H inUse)
    (T : Tree M inUse self.rootPaddr w) (hf : Allowed P f) (v : VirtAddr) (target : PhysAddr)
    (size : PageSize) :
    Steps M H self.rootPaddr (CreatePath M H self.rootPaddr w v size.height) (LeafStore P M) w
      (self.map v target size f w).2 :=
  Steps.map self hH T v target size f fun _ _ =>
    (newPage_leafEntry hf _ size).leafStore (LawfulPTE.levels PTE)

omit [LawfulPTE M PTE] in
theorem unmapRegionStep_snd (v : VirtAddr) (size : Usize) :
    (self.unmapRegionStep v size w).2 = (self.unmap v w).2 := by
  rw [PageTable64.unmapRegionStep, Op.bind_apply]
  rcases self.unmap v w with ⟨⟨_, _, ps⟩ | e | _, w'⟩
  · exact assertStep_snd _ _ _ _
  · rfl
  · rfl

omit [LawfulPTE M PTE] in
theorem mapRegionStep_snd (getPaddr : VirtAddr → PhysAddr) (allowHuge : Bool) (v : VirtAddr)
    (size : Usize) :
    (self.mapRegionStep getPaddr f allowHuge v size w).2 =
      (self.map v (getPaddr v) (PageTable64.regionPageSize v (getPaddr v) size allowHuge) f
        w).2 := by
  rw [PageTable64.mapRegionStep, Op.bind_apply]
  rcases self.map v (getPaddr v) (PageTable64.regionPageSize v (getPaddr v) size allowHuge) f w
    with ⟨_ | e | _, w'⟩ <;> rfl

end Lawful

/-! ### Runs -/

/-- A call of a method of a page table or of its cursor. -/
inductive Call where
  | query (vaddr : VirtAddr)
  | map (vaddr : VirtAddr) (target : PhysAddr) (pageSize : PageSize) (f : MappingFlags 64)
  | remap (vaddr : VirtAddr) (target : PhysAddr) (f : MappingFlags 64)
  | protect (vaddr : VirtAddr) (f : MappingFlags 64)
  | unmap (vaddr : VirtAddr)
  | mapRegion (vaddr : VirtAddr) (getPaddr : VirtAddr → PhysAddr) (size : Usize)
    (f : MappingFlags 64) (allowHuge : Bool)
  | unmapRegion (vaddr : VirtAddr) (size : Usize)
  | protectRegion (vaddr : VirtAddr) (size : Usize) (f : MappingFlags 64)

/-- The flags given to a call satisfy a condition. -/
def Call.FlagsIn (F : MappingFlags 64 → Prop) : Call → Prop
  | .map _ _ _ f | .remap _ _ f | .protect _ f | .mapRegion _ _ _ f _ | .protectRegion _ _ f =>
    F f
  | .query _ | .unmap _ | .unmapRegion _ _ => True

omit [GenericPTE 64 PTE] in
theorem Call.FlagsIn.mono {F G : MappingFlags 64 → Prop} {c : Call} (h : c.FlagsIn F)
    (hFG : ∀ f, F f → G f) : c.FlagsIn G := by
  cases c <;> first | trivial | exact hFG _ h

instance (F : MappingFlags 64 → Prop) [DecidablePred F] : (c : Call) → Decidable (c.FlagsIn F)
  | .map _ _ _ f | .remap _ _ f | .protect _ f | .mapRegion _ _ _ f _ | .protectRegion _ _ f =>
    inferInstanceAs (Decidable (F f))
  | .query _ | .unmap _ | .unmapRegion _ _ => inferInstanceAs (Decidable True)

/-- The state after a call, whatever it returns. -/
def Call.next (self : PageTable64 B M PTE H) (w : World PTE σ) : Call → World PTE σ
  | .query v => (self.query v w).2
  | .map v target size f => (self.map v target size f w).2
  | .remap v target f => (self.remap v target f w).2
  | .protect v f => (self.protect v f w).2
  | .unmap v => (self.unmap v w).2
  | .mapRegion v getPaddr size f allowHuge => (self.mapRegion v getPaddr size f allowHuge w).2
  | .unmapRegion v size => (self.unmapRegion v size w).2
  | .protectRegion v size f => (self.protectRegion v size f w).2

/-- A condition holds of each page that a call asks to map, when it does so. -/
def Call.EachMap (ok : VirtAddr → PageSize → World PTE σ → Prop) (self : PageTable64 B M PTE H)
    (w : World PTE σ) : Call → Prop
  | .map v _ size _ => ok v size w
  | .mapRegion v getPaddr size f allowHuge =>
    PageSize.size4K.isAligned v = true → PageSize.size4K.isAligned size = true →
      Rounds B (self.mapRegionStep getPaddr f allowHuge)
        (fun v size w => ok v (PageTable64.regionPageSize v (getPaddr v) size allowHuge) w)
        (regionFuel size) v size w
  | _ => True

/-- The states of a table that can be reached from `try_new` by calls with flags in `F`. -/
inductive Reachable (F : MappingFlags 64 → Prop) (self : PageTable64 B M PTE H) :
    World PTE σ → Prop
  | new {w₀ w : World PTE σ} (h : PageTable64.tryNew B M PTE H w₀ = (.ok self, w)) :
    Reachable F self w
  | call {w : World PTE σ} (h : Reachable F self w) (c : Call) (hc : c.FlagsIn F) :
    Reachable F self (c.next self w)

/-- What `try_new` does: it gets a frame and zeroes it. -/
theorem tryNew_apply (w₀ : World PTE σ) :
    PageTable64.tryNew B M PTE H w₀ = match H.allocFrame w₀.os with
      | (some p, os) => (.ok ⟨p, fun _ => false⟩,
          { w₀ with
            mem := Function.update w₀.mem p fun _ => empty
            os := os
            trace := .access p :: .alloc p :: w₀.trace })
      | (none, os) => (.err .noMemory, { w₀ with os := os }) := by
  obtain ⟨frame, os, ha⟩ : ∃ frame os, H.allocFrame w₀.os = (frame, os) := ⟨_, _, rfl⟩
  rw [PageTable64.tryNew, Op.bind_apply, PageTable64.allocTable, ha]
  rcases frame with _ | p <;> rfl

/-- A new table has borrowed nothing. -/
theorem tryNew_borrowedEntries {self : PageTable64 B M PTE H} {w₀ : World PTE σ}
    (h : PageTable64.tryNew B M PTE H w₀ = (.ok self, w)) (i : Fin ENTRY_COUNT) :
    self.borrowedEntries i = false := by
  rw [tryNew_apply] at h
  rcases ha : H.allocFrame w₀.os with ⟨_ | p, os⟩
  · rw [ha] at h
    exact absurd (congrArg Prod.fst h) (by simp)
  · rw [ha] at h
    simp only [Prod.mk.injEq, Res.ok.injEq] at h
    rw [← h.1]

/-- A state before any table, with the allocator that counts up. -/
def blankWorld (PTE : Type) [GenericPTE 64 PTE] : World PTE ℕ :=
  { mem := fun _ _ => empty, os := 0, trace := [], flusher := .none }

/-- The first table made from the blank state, and the state after it is made. -/
def firstTable (B : Build) (M : PagingMetaData) (PTE : Type) (limit : ℕ) :
    PageTable64 B M PTE (bumpHandler limit) :=
  ⟨0x1000, fun _ => false⟩

def firstWorld (PTE : Type) [GenericPTE 64 PTE] : World PTE ℕ :=
  { mem := fun _ _ => empty, os := 1, trace := [.access 0x1000, .alloc 0x1000],
    flusher := .none }

theorem tryNew_blankWorld (limit : ℕ) :
    PageTable64.tryNew B M PTE (bumpHandler (limit + 1)) (blankWorld PTE) =
      (.ok (firstTable B M PTE (limit + 1)), firstWorld PTE) := by
  have hmem : Function.update (fun _ _ => empty : PhysAddr → Fin ENTRY_COUNT → PTE) 0x1000
      (fun _ => empty) = fun _ _ => empty := Function.update_eq_self 0x1000 _
  have halloc : (bumpHandler (limit + 1)).allocFrame (blankWorld PTE).os = (some 0x1000, 1) := rfl
  rw [tryNew_apply, halloc]
  simp only [blankWorld, hmem]
  rfl

section Runs

variable [LawfulPTE M PTE] {inUse : σ → Set PhysAddr} (hH : FreshFrames M H inUse)
  (self : PageTable64 B M PTE H)
include hH

/-- A new table satisfies the invariant. -/
theorem tryNew_inv {w₀ : World PTE σ} (h : PageTable64.tryNew B M PTE H w₀ = (.ok self, w)) :
    Inv P M inUse self.rootPaddr w := by
  rw [tryNew_apply] at h
  obtain ⟨frame, os, ha⟩ : ∃ frame os, H.allocFrame w₀.os = (frame, os) := ⟨_, _, rfl⟩
  rw [ha] at h
  rcases frame with _ | p
  · exact absurd (congrArg Prod.fst h) (by simp)
  simp only [Prod.mk.injEq, Res.ok.injEq] at h
  obtain ⟨rfl, rfl⟩ := h
  have hzero : ∀ r ∈ ({p} : Set PhysAddr), ∀ i : Fin ENTRY_COUNT,
      child (Function.update w₀.mem p (fun _ => (empty : PTE)) r i) = none := by
    rintro r rfl i
    rw [Function.update_self]
    exact child_empty M
  refine ⟨⟨Forest.of_no_child hzero, ?_⟩, ?_⟩
  · rw [nodes_of_no_child hzero, Set.singleton_subset_iff]
    exact hH.alloc ha (Set.mem_insert _ _)
  · rintro ρ slot ⟨π, rfl, hs⟩ -
    have hroot : slot.table = p := by
      have hmem : slot.table ∈ nodes child (Function.update w₀.mem p fun _ => (empty : PTE)) {p}
          π.length := ⟨p, rfl, π, le_rfl, hs⟩
      rwa [nodes_of_no_child hzero] at hmem
    refine Or.inr (Or.inl ?_)
    simp only [World.entry, hroot, Function.update_self]

omit hH in
/-- A new table maps nothing. -/
theorem tryNew_leafAt {w₀ : World PTE σ}
    (h : PageTable64.tryNew B M PTE H w₀ = (.ok self, w))
    (v : VirtAddr) : leafAt M w.mem self.rootPaddr v = none := by
  have hL := LawfulPTE.levels (M := M) PTE
  rw [tryNew_apply] at h
  obtain ⟨frame, os, ha⟩ : ∃ frame os, H.allocFrame w₀.os = (frame, os) := ⟨_, _, rfl⟩
  rw [ha] at h
  rcases frame with _ | p
  · exact absurd (congrArg Prod.fst h) (by simp)
  simp only [Prod.mk.injEq, Res.ok.injEq] at h
  obtain ⟨rfl, rfl⟩ := h
  -- the first entry of the path is unused
  obtain ⟨i, τ, hτ⟩ : ∃ i τ, vpath M v = [i] ++ τ := by
    rcases hL with h | h
    · exact ⟨_, _, vpath_three h v⟩
    · exact ⟨_, _, vpath_four h v⟩
  have hslot : SlotAt (Function.update w₀.mem p fun _ => (empty : PTE)) p [i] ⟨p, i⟩ :=
    ⟨[], rfl, rfl⟩
  have hentry : Function.update w₀.mem p (fun _ => (empty : PTE)) p i = empty := by
    rw [Function.update_self]
  have hchild : child (Function.update w₀.mem p (fun _ => (empty : PTE)) p i) = none := by
    rw [hentry]
    exact child_empty M
  simp only [leafAt, hτ]
  rw [hslot.leaf_append (Or.inr hchild), if_neg]
  rw [hentry, LawfulPTE.isPresent_empty M]
  simp

/-- A loop is a chain of steps when its rounds are. -/
theorem regionLoop_steps (hW : ∀ ρ e, W ρ e → NoTable M ρ.length e)
    (T : Tree M inUse self.rootPaddr w)
    {body : VirtAddr → Usize → Op (World PTE σ) PageSize}
    {ok : VirtAddr → Usize → World PTE σ → Prop}
    (hbody : ∀ v size w', Tree M inUse self.rootPaddr w' → ok v size w' →
      Steps M H self.rootPaddr A W w' (body v size w').2) {fuel : ℕ} {v : VirtAddr} {size : Usize}
    (hrounds : Rounds B body ok fuel v size w) :
    Steps M H self.rootPaddr A W w (regionLoop B body fuel v size w).2 := by
  refine regionLoop_rounds (J := Tree M inUse self.rootPaddr) (fun _ => .refl)
    (fun h h' => h.trans h') (fun v size w' T' hnow => ⟨hbody v size w' T' hnow, ?_⟩) fuel v size
    T hrounds
  exact (hbody v size w' T' hnow).tree hH hW T'

omit hH [LawfulPTE M PTE] in
/-- `map_region` refuses what is not aligned; then its loop runs. -/
theorem mapRegion_cases (v : VirtAddr) (getPaddr : VirtAddr → PhysAddr) (size : Usize)
    (f : MappingFlags 64) (allowHuge : Bool) (w : World PTE σ) :
    self.mapRegion v getPaddr size f allowHuge w = (.err .notAligned, w) ∨
      PageSize.size4K.isAligned v = true ∧ PageSize.size4K.isAligned size = true ∧
        self.mapRegion v getPaddr size f allowHuge w =
          regionLoop B (self.mapRegionStep getPaddr f allowHuge) (regionFuel size) v size w := by
  rw [PageTable64.mapRegion]
  split
  · exact Or.inl rfl
  · next haligned =>
    obtain ⟨hv, hsize⟩ := PageSize.isAligned_of_not haligned
    exact Or.inr ⟨hv, hsize, rfl⟩

/-- Every call is a chain of steps that store leaves satisfying `P` and create tables under
the paths of the pages it maps. -/
theorem Call.steps_of_eachMap (ok : VirtAddr → PageSize → World PTE σ → Prop)
    (hok : ∀ v size w' ρ, ok v size w' → CreatePath M H self.rootPaddr w' v size.height ρ → A ρ)
    (T : Tree M inUse self.rootPaddr w) (c : Call) (hc : c.FlagsIn (Allowed P))
    (hmaps : c.EachMap ok self w) :
    Steps M H self.rootPaddr A (LeafStore P M) w (c.next self w) := by
  have hW : ∀ ρ (e : PTE), LeafStore P M ρ e → NoTable M ρ.length e := fun _ _ h => h.noTable
  cases c with
  | query v => exact query_steps self v
  | map v target size f =>
    exact (map_steps self hH T hc v target size).mono (fun ρ => hok v size w ρ hmaps) fun _ _ h => h
  | remap v target f => exact remap_steps self hc v target
  | protect v f => exact protect_steps self hc v
  | unmap v => exact unmap_steps self v
  | mapRegion v getPaddr size f allowHuge =>
    rw [Call.EachMap] at hmaps
    rw [Call.next]
    obtain h | ⟨hv, hsize, h⟩ := mapRegion_cases self v getPaddr size f allowHuge w
    · rw [h]
      exact .refl
    · rw [h]
      -- each round of the loop is one `map`
      refine regionLoop_steps hH self hW T (fun v size w' T' hnow => ?_) (hmaps hv hsize)
      have hmap := map_steps self hH T' hc v (getPaddr v)
        (PageTable64.regionPageSize v (getPaddr v) size allowHuge)
      rw [mapRegionStep_snd]
      exact hmap.mono (fun ρ => hok v _ w' ρ hnow) fun _ _ h => h
  | unmapRegion v size =>
    refine regionLoop_steps hH self hW T (fun v size w' _ _ => ?_)
      (.of_forall (fun _ _ _ => trivial) _ v size w)
    rw [unmapRegionStep_snd]
    exact unmap_steps self v
  | protectRegion v size f =>
    exact regionLoop_steps hH self hW T
      (fun v size w' _ _ => protectRegionStep_steps self hc v size)
      (.of_forall (fun _ _ _ => trivial) _ v size w)

theorem Call.steps (T : Tree M inUse self.rootPaddr w) (c : Call)
    (hc : c.FlagsIn (Allowed P)) :
    Steps M H self.rootPaddr (fun _ => True) (LeafStore P M) w (c.next self w) := by
  refine Call.steps_of_eachMap hH self (fun _ _ _ => True) (fun _ _ _ _ _ _ => trivial) T c
    hc ?_
  cases c with
  | mapRegion v getPaddr size f allowHuge =>
    exact fun _ _ => .of_forall (fun _ _ _ => trivial) _ v size w
  | _ => trivial

theorem Call.inv (I : Inv P M inUse self.rootPaddr w) (c : Call) (hc : c.FlagsIn (Allowed P)) :
    Inv P M inUse self.rootPaddr (c.next self w) :=
  (Call.steps hH self I.toTree c hc).inv hH (fun _ _ h => h) I

/-- The invariant holds in every reachable state. -/
theorem Reachable.inv {F : MappingFlags 64 → Prop} (hF : ∀ f, F f → Allowed P f)
    (h : Reachable F self w) : Inv P M inUse self.rootPaddr w := by
  induction h with
  | new h => exact tryNew_inv hH self h
  | call _ c hc ih =>
    exact Call.inv hH self ih c (hc.mono hF)

end Runs

end PageTableMultiarch
