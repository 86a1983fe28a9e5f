/-
The walk of `map`, which creates the tables it misses.

* `nextTableMutOrCreate_spec`, `getEntryMutOrCreate_spec` — the walk grows the tree
  along the path of the address and ends at the slot of the page, or fails;
* `map_apply`, `map_spec` — `map` grows the tree and then stores at most one entry, over
  an unused one.
-/
import PageTableMultiarch.Table64.Step

namespace PageTableMultiarch

open GenericPTE Radix

variable {B : Build} {M : PagingMetaData} {PTE σ : Type} {H : PagingHandler 64 σ}

/-- The height of the entries that map pages of a size. -/
def PageSize.height : PageSize → ℕ
  | .size1G => 2
  | .size2M => 1
  | _ => 0

theorem PageSize.height_le (size : PageSize) : size.height ≤ 2 := by cases size <;> decide

theorem heightSize_height {size : PageSize} (h : size ≠ .size1M) :
    heightSize size.height = size := by
  cases size <;> first | rfl | exact absurd rfl h

theorem height_heightSize {k : ℕ} (hk : k ≤ 2) : (heightSize k).height = k := by
  obtain rfl | rfl | rfl : k = 0 ∨ k = 1 ∨ k = 2 := by omega
  all_goals rfl

/-! ### Paths, one index at a time -/

section Paths

variable (hL : M.LEVELS = 3 ∨ M.LEVELS = 4) (v : VirtAddr)
include hL

theorem pathTo_zero : pathTo M 0 v = pathTo M 1 v ++ [p1Index v] := by
  rcases hL with h | h
  · rw [pathTo, pathTo, vpath_three h, h]
    rfl
  · rw [pathTo, pathTo, vpath_four h, h]
    rfl

theorem pathTo_one : pathTo M 1 v = pathTo M 2 v ++ [p2Index v] := by
  rcases hL with h | h
  · rw [pathTo, pathTo, vpath_three h, h]
    rfl
  · rw [pathTo, pathTo, vpath_four h, h]
    rfl

theorem pathTo_two : pathTo M 2 v = pathTo M 3 v ++ [p3Index v] := by
  rcases hL with h | h
  · rw [pathTo, pathTo, vpath_three h, h]
    rfl
  · rw [pathTo, pathTo, vpath_four h, h]
    rfl

theorem pathTo_root : pathTo M (M.LEVELS - 1) v = [PageTable64.rootIndex M v] := by
  rcases hL with h | h
  · rw [pathTo, vpath_three h, PageTable64.rootIndex, if_pos h, h]
    rfl
  · rw [pathTo, vpath_four h, PageTable64.rootIndex, if_neg (by omega), h]
    rfl

end Paths

variable [GenericPTE 64 PTE] {root : PhysAddr} {inUse : σ → Set PhysAddr}
  {w : World PTE σ}

/-- What `next_table_mut_or_create` does: it hangs a fresh table under an unused entry, and
goes to the table under another one. -/
theorem nextTableMutOrCreate_apply (slot : Slot) (w : World PTE σ) :
    PageTable64.nextTableMutOrCreate H slot w =
      if isUnused (w.entry slot) then
        match H.allocFrame w.os with
        | (some p, os) => (.ok p, (w.touch [slot.table]).hang slot p os)
        | (none, os) => (.err .noMemory, { w.touch [slot.table] with os := os })
      else
        match PageTable64.nextTable (w.entry slot) with
        | .ok p => (.ok p, w.touch [slot.table])
        | .error e => (.err e, w.touch [slot.table]) := by
  rw [PageTable64.nextTableMutOrCreate, Op.bind_ok (readEntry_eq slot w)]
  by_cases hu : isUnused (w.entry slot) = true
  · rw [if_pos hu, if_pos hu]
    obtain ⟨frame, os, ha⟩ : ∃ frame os, H.allocFrame w.os = (frame, os) := ⟨_, _, rfl⟩
    have halloc : PageTable64.allocTable H (w.touch [slot.table]) = match frame with
        | some p => (.ok p, { w.touch [slot.table] with
            mem := Function.update w.mem p fun _ => (empty : PTE)
            os := os
            trace := .access p :: .alloc p :: (w.touch [slot.table]).trace })
        | none => (.err .noMemory, { w.touch [slot.table] with os := os }) := by
      rw [PageTable64.allocTable]
      simp only [World.touch_os, ha]
      cases frame <;> rfl
    cases frame with
    | none =>
      rw [Op.bind_err halloc, ha]
    | some p =>
      rw [Op.bind_ok halloc, ha]
      rfl
  · rw [if_neg hu, if_neg hu]
    cases PageTable64.nextTable (w.entry slot) <;> rfl

section Hang

variable [LawfulPTE M PTE] (T : Tree M inUse root w) {ρ : List (Fin ENTRY_COUNT)} {slot : Slot}
  (h : SlotAt w.mem root ρ slot) (hρ : ρ.length < M.LEVELS) (hold : w.entry slot = empty)
  {p : PhysAddr} {os : σ} (hp : ValidFrame M p) (hfresh : p ∉ inUse w.os)
include T h hρ hold hp hfresh

/-- A fresh table under an unused entry is reached by one new path. -/
theorem Tree.resolve_hang_iff {π : List (Fin ENTRY_COUNT)} (hπ : π.length ≤ M.LEVELS - 1)
    {u : PhysAddr} : resolve child (w.hang slot p os).mem root π = some u ↔
      resolve child w.mem root π = some u ∨ π = ρ ∧ u = p := by
  obtain ⟨π₀, rfl, hs⟩ := h
  rw [List.length_append, List.length_singleton] at hρ
  have hiff := T.forest.resolve_attach (u := u) rfl (by omega) hs (child_of_entry_eq_empty M hold)
    (fun hc => hfresh (T.inUse hc)) (child_newTable hp) (child_empty M) rfl hπ
  exact hiff.trans (or_congr_right ⟨fun h => h.2, fun h => ⟨rfl, h⟩⟩)

/-- The fresh table is where the path leads. -/
theorem Tree.resolve_hang : resolve child (w.hang slot p os).mem root ρ = some p :=
  (T.resolve_hang_iff h hρ hold hp hfresh (by omega)).mpr (Or.inr ⟨rfl, rfl⟩)

/-- The entries after a fresh table has been hung: that which points to it, the unused ones in
it, and the others as before. -/
theorem Tree.entryAt_hang {ρ' : List (Fin ENTRY_COUNT)} (hρ' : ρ'.length ≤ M.LEVELS) :
    entryAt child (w.hang slot p os).mem root ρ' =
      if ρ' = ρ then some (newTable p)
      else if ρ'.dropLast = ρ then some empty
      else entryAt child w.mem root ρ' := by
  obtain ⟨π₀, rfl, hs⟩ := h
  rw [List.length_append, List.length_singleton] at hρ
  have heq := T.forest.entryAt_attach rfl (by omega) hs (child_of_entry_eq_empty M hold)
    (fun hc => hfresh (T.inUse hc)) (child_newTable hp : child (newTable p : PTE) = some p)
    (child_empty M) rfl
    (show ρ'.length ≤ M.LEVELS - 1 + 1 by omega)
  simp only [true_and] at heq
  exact heq

end Hang

/-- Why a walk cannot go on at the end of a path: there is no frame for the table that is
missing, or the entry holds something else than a table. -/
def Blocked (root : PhysAddr) (w : World PTE σ) (ρ : List (Fin ENTRY_COUNT)) (e : PagingError) :
    Prop :=
  ∃ slot, SlotAt w.mem root ρ slot ∧
    (e = .noMemory ∧ w.entry slot = empty ∨
      w.entry slot ≠ empty ∧ PageTable64.nextTable (w.entry slot) = .error e)

/-- A table is created under the slot only if its entry is unused and the allocator
has a frame. -/
theorem nextTableMutOrCreate_spec [LawfulPTE M PTE] (hH : FreshFrames M H inUse)
    {ρ : List (Fin ENTRY_COUNT)} {slot : Slot} (h : SlotAt w.mem root ρ slot)
    (hρ : ρ.length < M.LEVELS) (T : Tree M inUse root w) :
    ∃ w', Grow M H root
        (fun ρ' => ρ' = ρ ∧ w.entry slot = empty ∧ (H.allocFrame w.os).1.isSome) w w' ∧
      ((∃ p, PageTable64.nextTableMutOrCreate H slot w = (.ok p, w') ∧
          resolve child w'.mem root ρ = some p) ∨
        ∃ e, PageTable64.nextTableMutOrCreate H slot w = (.err e, w') ∧
          Blocked root w' ρ e) := by
  have hmem := h.table_mem (n := M.LEVELS - 1) (by omega)
  have haccess : Grow M H root
      (fun ρ' => ρ' = ρ ∧ w.entry slot = empty ∧ (H.allocFrame w.os).1.isSome) w
      (w.touch [slot.table]) := .single (.access _ hmem)
  have happly := nextTableMutOrCreate_apply (H := H) slot w
  by_cases hu : isUnused (w.entry slot) = true
  · rw [if_pos hu] at happly
    have hold := (LawfulPTE.isUnused_iff M _).mp hu
    obtain ⟨frame, os, ha⟩ : ∃ frame os, H.allocFrame w.os = (frame, os) := ⟨_, _, rfl⟩
    simp only [ha] at happly
    cases frame with
    | none =>
      -- the allocator has no frame
      exact ⟨_, .tail haccess (.allocFail os ha),
        Or.inr ⟨.noMemory, happly, slot, h, Or.inl ⟨rfl, hold⟩⟩⟩
    | some p =>
      have T' : Tree M inUse root (w.touch [slot.table]) := ⟨T.forest, T.inUse⟩
      exact ⟨_, .tail haccess (.attach ρ slot p os h hρ hold ha ⟨rfl, hold, by rw [ha]; rfl⟩),
        Or.inl ⟨p, happly, T'.resolve_hang h hρ hold (hH.valid ha) (hH.fresh ha)⟩⟩
  · rw [if_neg hu] at happly
    refine ⟨_, haccess, ?_⟩
    cases hn : PageTable64.nextTable (w.entry slot) with
    | error e =>
      rw [hn] at happly
      have hne : w.entry slot ≠ empty := fun hc => hu ((LawfulPTE.isUnused_iff M _).mpr hc)
      exact Or.inr ⟨e, happly, slot, h, Or.inr ⟨hne, hn⟩⟩
    | ok p =>
      rw [hn] at happly
      obtain ⟨π, rfl, hs⟩ := h
      refine Or.inl ⟨p, happly, ?_⟩
      rw [World.touch_mem, resolve_append, hs, Option.bind_some, resolve_cons,
        show child (w.mem slot.table slot.index) = some p from child_of_nextTable hn]
      rfl

/-- The paths under which a walk to height `k` may create tables from a state; a table
is created under the root entry only if that entry is unused and the allocator has a
frame. -/
def CreatePath (M : PagingMetaData) (H : PagingHandler 64 σ) (root : PhysAddr)
    (w : World PTE σ) (v : VirtAddr) (k : ℕ) (ρ : List (Fin ENTRY_COUNT)) : Prop :=
  ∃ j, k < j ∧ j < M.LEVELS ∧ ρ = pathTo M j v ∧
    (j + 1 = M.LEVELS → w.mem root (PageTable64.rootIndex M v) = empty ∧
      (H.allocFrame w.os).1.isSome)

/-- The part of `get_entry_mut_or_create` below the table of the third level. -/
def createFrom (H : PagingHandler 64 σ) (p3 : PhysAddr) (vaddr : VirtAddr)
    (pageSize : PageSize) : Op (World PTE σ) Slot :=
  if pageSize = .size1G then
    return ⟨p3, p3Index vaddr⟩
  else do
    let p2 ← PageTable64.nextTableMutOrCreate H ⟨p3, p3Index vaddr⟩
    if pageSize = .size2M then
      return ⟨p2, p2Index vaddr⟩
    else do
      let p1 ← PageTable64.nextTableMutOrCreate H ⟨p2, p2Index vaddr⟩
      return ⟨p1, p1Index vaddr⟩

section Create

variable [LawfulPTE M PTE] (hH : FreshFrames M H inUse)
include hH

/-- One level of the walk: the slot of height `j`, then the table below it. -/
theorem create_level {v : VirtAddr} {j : ℕ} {t : PhysAddr} {i : Fin ENTRY_COUNT}
    (hj : 0 < j) (hpath : SlotAt w.mem root (pathTo M j v) ⟨t, i⟩) (T : Tree M inUse root w) :
    ∃ w', Grow M H root (fun ρ => ρ = pathTo M j v ∧ (j + 1 = M.LEVELS →
        w.mem root (PageTable64.rootIndex M v) = empty ∧ (H.allocFrame w.os).1.isSome)) w w' ∧
      ((∃ p, PageTable64.nextTableMutOrCreate H ⟨t, i⟩ w = (.ok p, w') ∧
          resolve child w'.mem root (pathTo M j v) = some p) ∨
        ∃ e, PageTable64.nextTableMutOrCreate H ⟨t, i⟩ w = (.err e, w') ∧
          Blocked root w' (pathTo M j v) e) := by
  have hL := LawfulPTE.levels (M := M) PTE
  have hlen := length_pathTo hL j v
  obtain ⟨w', hgrow, hres⟩ := nextTableMutOrCreate_spec hH hpath (by omega) T
  refine ⟨w', hgrow.mono ?_ fun _ _ h => h, hres⟩
  rintro _ ⟨rfl, hold, halloc⟩
  refine ⟨rfl, fun hroot => ⟨?_, halloc⟩⟩
  -- a slot of the root table is the root entry of the address
  obtain ⟨π, hπ, hs⟩ := hpath
  obtain rfl : j = M.LEVELS - 1 := by omega
  rw [pathTo_root hL, ← List.nil_append [PageTable64.rootIndex M v]] at hπ
  obtain ⟨rfl, hi⟩ := List.append_inj' hπ rfl
  obtain rfl : root = t := Option.some_inj.mp hs
  obtain rfl : PageTable64.rootIndex M v = i := by simpa using hi
  exact hold

theorem createFrom_spec {p3 : PhysAddr} {v : VirtAddr} {size : PageSize}
    (hp3 : resolve child w.mem root (pathTo M 3 v) = some p3) (T : Tree M inUse root w) :
    ∃ w', Grow M H root (fun ρ => ∃ j, size.height < j ∧ j ≤ 2 ∧ ρ = pathTo M j v ∧
        (j + 1 = M.LEVELS → w.mem root (PageTable64.rootIndex M v) = empty ∧
          (H.allocFrame w.os).1.isSome)) w w' ∧
      ((∃ slot, createFrom H p3 v size w = (.ok slot, w') ∧
          SlotAt w'.mem root (pathTo M size.height v) slot) ∨
        ∃ e, createFrom H p3 v size w = (.err e, w') ∧
          ∃ j, size.height < j ∧ j < M.LEVELS ∧ Blocked root w' (pathTo M j v) e) := by
  have hL := LawfulPTE.levels (M := M) PTE
  rw [createFrom]
  -- level 3 is there: at most two levels are created below it
  have hslot2 : SlotAt w.mem root (pathTo M 2 v) ⟨p3, p3Index v⟩ := ⟨_, pathTo_two hL v, hp3⟩
  by_cases h1G : size = .size1G
  · subst h1G
    exact ⟨w, .refl, Or.inl ⟨_, rfl, hslot2⟩⟩
  rw [if_neg h1G]
  have hheight : size.height < 2 := by cases size <;> first | decide | exact absurd rfl h1G
  obtain ⟨w₂, hgrow₂, hres₂⟩ := create_level hH (by omega) hslot2 T
  have hgrow₂ : Grow M H root (fun ρ => ∃ j, size.height < j ∧ j ≤ 2 ∧ ρ = pathTo M j v ∧
      (j + 1 = M.LEVELS → w.mem root (PageTable64.rootIndex M v) = empty ∧
        (H.allocFrame w.os).1.isSome)) w w₂ :=
    hgrow₂.mono (fun ρ h => ⟨2, hheight, le_rfl, h⟩) fun _ _ h => h
  rcases hres₂ with ⟨p2, heq₂, hp2⟩ | ⟨e, heq₂, hblocked⟩
  swap
  · exact ⟨w₂, hgrow₂, Or.inr ⟨e, Op.bind_err heq₂, 2, hheight, by omega, hblocked⟩⟩
  rw [Op.bind_ok heq₂]
  have hslot1 : SlotAt w₂.mem root (pathTo M 1 v) ⟨p2, p2Index v⟩ := ⟨_, pathTo_one hL v, hp2⟩
  by_cases h2M : size = .size2M
  · subst h2M
    exact ⟨w₂, hgrow₂, Or.inl ⟨_, rfl, hslot1⟩⟩
  rw [if_neg h2M]
  have hheight : size.height = 0 := by
    cases size <;> first | rfl | exact absurd rfl h1G | exact absurd rfl h2M
  obtain ⟨w₁, hgrow₁, hres₁⟩ := create_level hH (by omega) hslot1 (Grow.tree hH T hgrow₂)
  have hgrow := hgrow₂.trans (hgrow₁.mono
    (fun ρ h => ⟨1, by omega, by omega, h.1, fun hL' => absurd hL' (by omega)⟩) fun _ _ h => h)
  rcases hres₁ with ⟨p1, heq₁, hp1⟩ | ⟨e, heq₁, hblocked⟩
  · refine ⟨w₁, hgrow, Or.inl ⟨_, Op.bind_ok heq₁, ?_⟩⟩
    rw [hheight]
    exact ⟨_, pathTo_zero hL v, hp1⟩
  · exact ⟨w₁, hgrow, Or.inr ⟨e, Op.bind_err heq₁, 1, by omega, by omega, hblocked⟩⟩

/-- The walk grows the tree along the path of the address and ends at the slot of the
page, unless it fails. -/
theorem getEntryMutOrCreate_spec (self : PageTable64 B M PTE H) (v : VirtAddr)
    (size : PageSize) (T : Tree M inUse self.rootPaddr w) :
    ∃ w', Grow M H self.rootPaddr (CreatePath M H self.rootPaddr w v size.height) w w' ∧
      ((∃ slot, self.getEntryMutOrCreate v size w = (.ok slot, w') ∧
          SlotAt w'.mem self.rootPaddr (pathTo M size.height v) slot) ∨
        ∃ e, self.getEntryMutOrCreate v size w = (.err e, w') ∧
          ∃ j, size.height < j ∧ j < M.LEVELS ∧ Blocked self.rootPaddr w' (pathTo M j v) e) := by
  have hL := LawfulPTE.levels (M := M) PTE
  rcases hL with h | h
  · -- three levels: the root is the third one
    have hp3 : resolve child w.mem self.rootPaddr (pathTo M 3 v) = some self.rootPaddr := by
      rw [pathTo, h]
      rfl
    obtain ⟨w', hgrow, hres⟩ := createFrom_spec hH hp3 T
    have heq : self.getEntryMutOrCreate v size = createFrom H self.rootPaddr v size := by
      rw [PageTable64.getEntryMutOrCreate, if_pos h]
      rfl
    rw [heq]
    refine ⟨w', hgrow.mono ?_ fun _ _ h => h, hres⟩
    rintro ρ ⟨j, hkj, hj, hρ, hroot⟩
    exact ⟨j, hkj, by omega, hρ, hroot⟩
  · -- four levels: the root entry comes first, and only it can need the root
    have hheight := size.height_le
    have hslot3 : SlotAt w.mem self.rootPaddr (pathTo M 3 v) ⟨self.rootPaddr, p4Index v⟩ := by
      rw [pathTo, vpath_four h, h]
      exact ⟨[], rfl, rfl⟩
    obtain ⟨w₃, hgrow₃, hres₃⟩ := create_level hH (by omega) hslot3 T
    have hgrow₃ : Grow M H self.rootPaddr (CreatePath M H self.rootPaddr w v size.height) w w₃ :=
      hgrow₃.mono (fun ρ h' => ⟨3, by omega, by omega, h'⟩) fun _ _ h => h
    rw [PageTable64.getEntryMutOrCreate, if_neg (by omega), if_pos h]
    rcases hres₃ with ⟨p3, heq₃, hp3⟩ | ⟨e, heq₃, hblocked⟩
    · obtain ⟨w', hgrow, hres⟩ := createFrom_spec hH hp3 (Grow.tree hH T hgrow₃)
      rw [Op.bind_ok heq₃]
      refine ⟨w', hgrow₃.trans (hgrow.mono ?_ fun _ _ h => h), hres⟩
      rintro ρ ⟨j, hkj, hj, hρ, -⟩
      exact ⟨j, hkj, by omega, hρ, fun hL' => absurd hL' (by omega)⟩
    · exact ⟨w₃, hgrow₃, Or.inr ⟨e, Op.bind_err heq₃, 3, by omega, by omega, hblocked⟩⟩

/-- `map` grows the tree and then stores the page over an unused entry, or stores
nothing. -/
theorem map_apply (self : PageTable64 B M PTE H) (v : VirtAddr) (target : PhysAddr)
    (size : PageSize) (f : MappingFlags 64) (T : Tree M inUse self.rootPaddr w) :
    ∃ w', Grow M H self.rootPaddr (CreatePath M H self.rootPaddr w v size.height) w w' ∧
      ((∃ e, self.map v target size f w = (.err e, w') ∧
          ((∃ j, size.height < j ∧ j < M.LEVELS ∧ Blocked self.rootPaddr w' (pathTo M j v) e) ∨
            e = .alreadyMapped ∧ ∃ slot,
              SlotAt w'.mem self.rootPaddr (pathTo M size.height v) slot ∧
                w'.entry slot ≠ empty)) ∨
        ∃ slot, SlotAt w'.mem self.rootPaddr (pathTo M size.height v) slot ∧
          w'.entry slot = empty ∧
          self.map v target size f w = if flagsPass B PTE f then (.ok (), (w'.store slot
            (newPage (MemoryAddr.alignDown target (size.toUsize 64)) f size.isHuge)).queue v)
          else (.panic, w')) := by
  obtain ⟨w₁, hgrow, hres⟩ := getEntryMutOrCreate_spec hH self v size T
  rcases hres with ⟨slot, heq, hslot⟩ | ⟨e, heq, hblocked⟩
  swap
  · exact ⟨w₁, hgrow, Or.inl ⟨e, Op.bind_err heq, Or.inl hblocked⟩⟩
  have hlen := length_pathTo (M := M) (LawfulPTE.levels PTE) size.height v
  have hmem := hslot.table_mem (n := M.LEVELS - 1) (by omega)
  refine ⟨w₁.touch [slot.table], hgrow.tail (.access _ hmem), ?_⟩
  rw [PageTable64.map, Op.bind_ok heq, Op.bind_ok (readEntry_eq slot w₁)]
  by_cases hu : isUnused (w₁.entry slot) = true
  · refine Or.inr ⟨slot, hslot, (LawfulPTE.isUnused_iff M _).mp hu, ?_⟩
    rw [if_neg (by simp [hu])]
    by_cases hf : flagsPass B PTE f = true
    · rw [Op.bind_ok (assertFlags_of_pass hf _), if_pos hf]
      rfl
    · rw [Op.bind_panic (assertFlags_of_not_pass hf _), if_neg hf]
  · have hne : w₁.entry slot ≠ empty := fun hc => hu ((LawfulPTE.isUnused_iff M _).mpr hc)
    refine Or.inl ⟨.alreadyMapped, ?_, Or.inr ⟨rfl, slot, hslot, hne⟩⟩
    rw [if_pos (by simpa using hu)]
    rfl

theorem map_spec (self : PageTable64 B M PTE H) (v : VirtAddr) (target : PhysAddr)
    (size : PageSize) {f : MappingFlags 64} (hf : debugAssert PTE f = true)
    (T : Tree M inUse self.rootPaddr w) :
    ∃ w', Grow M H self.rootPaddr (CreatePath M H self.rootPaddr w v size.height) w w' ∧
      ((∃ e, self.map v target size f w = (.err e, w') ∧
          ((∃ j, size.height < j ∧ j < M.LEVELS ∧ Blocked self.rootPaddr w' (pathTo M j v) e) ∨
            e = .alreadyMapped ∧ ∃ slot,
              SlotAt w'.mem self.rootPaddr (pathTo M size.height v) slot ∧
                w'.entry slot ≠ empty)) ∨
        ∃ slot, SlotAt w'.mem self.rootPaddr (pathTo M size.height v) slot ∧
          w'.entry slot = empty ∧
          self.map v target size f w = (.ok (), (w'.store slot
            (newPage (MemoryAddr.alignDown target (size.toUsize 64)) f size.isHuge)).queue v)) := by
  obtain ⟨w', hgrow, hres⟩ := map_apply hH self v target size f T
  simp only [flagsPass_of_accepted hf, if_true] at hres
  exact ⟨w', hgrow, hres⟩

end Create

end PageTableMultiarch
