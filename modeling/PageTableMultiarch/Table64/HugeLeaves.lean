/-
Huge leaves and page tables.

`next_table` takes an entry for a table when its address is not zero and it is not huge.
On RISC-V an entry is huge by its permission bits alone, and only a `debug_assert!` keeps
`new_page` and `set_flags` from making a leaf without them.

* `Call.KeepsLeaves` — when a call stores no such leaf above the last level;
* `Guarded` — the invariant of runs of such calls: an entry that is no table is not taken
  for one;
* `Arch.hugeLeaf_not_table` — in such a run every entry taken for a table is a table that has
  been allocated, and so is every frame that is accessed or given back.
-/
import PageTableMultiarch.Table64.Accounting

namespace PageTableMultiarch

open GenericPTE Radix MemEvent

variable {B : Build} {M : PagingMetaData} {PTE σ : Type} {H : PagingHandler 64 σ}
  [GenericPTE 64 PTE] {inUse : σ → Set PhysAddr} {root : PhysAddr}
  {A : List (Fin ENTRY_COUNT) → Prop} {W : List (Fin ENTRY_COUNT) → PTE → Prop}
  {w w' : World PTE σ}

/-! ### Calls that keep huge leaves -/

/-- An entry that is stored with these flags is no table: with debug assertions other flags
are not stored, and an entry without an address is never followed. -/
def LeafFlags (B : Build) (f : MappingFlags 64) (e : PTE) : Prop :=
  B.debugAssertions = true ∨ debugAssert PTE f = true ∨ paddr e = 0

/-- The walk of `map` ends at an unused entry. -/
def EndsUnused (self : PageTable64 B M PTE H) (v : VirtAddr) (size : PageSize) (w : World PTE σ) :
    Prop :=
  ∃ slot, (self.getEntryMutOrCreate v size w).1 = .ok slot ∧
    isUnused ((self.getEntryMutOrCreate v size w).2.entry slot) = true

/-- The call of `map` stores no huge page that is taken for a table. -/
def MapKeepsLeaves (self : PageTable64 B M PTE H) (v : VirtAddr) (target : PhysAddr)
    (size : PageSize) (f : MappingFlags 64) (w : World PTE σ) : Prop :=
  size.height = 0 ∨ ¬ EndsUnused self v size w ∨
    LeafFlags B f (newPage (MemoryAddr.alignDown target (size.toUsize 64)) f size.isHuge : PTE)

/-- Nor does a call that gives new flags to the page of an address. -/
def ProtectKeepsLeaves (self : PageTable64 B M PTE H) (v : VirtAddr) (f : MappingFlags 64)
    (w : World PTE σ) : Prop :=
  ∀ slot size, (self.getEntry v w).1 = .ok (slot, size) → isPresent (w.entry slot) = true →
    size = .size4K ∨ LeafFlags B f (w.entry slot)

def RemapKeepsLeaves (self : PageTable64 B M PTE H) (v : VirtAddr) (target : PhysAddr)
    (f : MappingFlags 64) (w : World PTE σ) : Prop :=
  ∀ slot size, (self.getEntry v w).1 = .ok (slot, size) →
    size = .size4K ∨ LeafFlags B f (setPaddr (w.entry slot) target)

/-- No page that a call stores above the last level is taken for a table. -/
def Call.KeepsLeaves (self : PageTable64 B M PTE H) (w : World PTE σ) : Call → Prop
  | .map v target size f => MapKeepsLeaves self v target size f w
  | .remap v target f => RemapKeepsLeaves self v target f w
  | .protect v f => ProtectKeepsLeaves self v f w
  | .mapRegion v getPaddr size f allowHuge =>
    PageSize.size4K.isAligned v = true → PageSize.size4K.isAligned size = true →
      Rounds B (self.mapRegionStep getPaddr f allowHuge)
        (fun v size w => MapKeepsLeaves self v (getPaddr v)
          (PageTable64.regionPageSize v (getPaddr v) size allowHuge) f w)
        (regionFuel size) v size w
  | .protectRegion v size f =>
    Rounds B (self.protectRegionStep f) (fun v _ w => ProtectKeepsLeaves self v f w)
      (regionFuel size) v size w
  | .query _ | .unmap _ | .unmapRegion _ _ => True

/-- Flags that are accepted, or not let through, keep the leaves. -/
theorem Call.keepsLeaves_of_flagsIn (self : PageTable64 B M PTE H) (w : World PTE σ) {c : Call}
    (hc : c.FlagsIn fun f => B.debugAssertions = true ∨ debugAssert PTE f = true) :
    c.KeepsLeaves self w := by
  have hflags : ∀ {f : MappingFlags 64} (e : PTE),
      B.debugAssertions = true ∨ debugAssert PTE f = true → LeafFlags B f e :=
    fun _ hf => hf.imp_right Or.inl
  cases c with
  | map v target size f => exact Or.inr (Or.inr (hflags _ hc))
  | remap v target f => exact fun _ _ _ => Or.inr (hflags _ hc)
  | protect v f => exact fun _ _ _ _ => Or.inr (hflags _ hc)
  | mapRegion v getPaddr size f allowHuge =>
    exact fun _ _ => .of_forall (fun _ _ _ => Or.inr (Or.inr (hflags _ hc))) _ v size w
  | protectRegion v size f =>
    exact .of_forall (fun _ _ _ _ _ _ _ => Or.inr (hflags _ hc)) _ v size w
  | query v => trivial
  | unmap v => trivial
  | unmapRegion v size => trivial

/-! ### The invariant -/

/-- An entry that is no table: no walk takes it for one, and where it is not unused it is at
most two levels above the last. -/
def PlainEntry (M : PagingMetaData) (len : ℕ) (e : PTE) : Prop :=
  NoTable M len e ∧ (e = empty ∨ M.LEVELS ≤ len + 2)

/-- The entries that such calls store. -/
def PlainStore (M : PagingMetaData) (ρ : List (Fin ENTRY_COUNT)) (e : PTE) : Prop :=
  PlainEntry M ρ.length e

/-- The tables form a tree, and no other entry is taken for a table. -/
structure Guarded (M : PagingMetaData) (inUse : σ → Set PhysAddr) (root : PhysAddr)
    (w : World PTE σ) : Prop extends Tree M inUse root w where
  entries : Entries (PlainEntry M) M root w

section Lawful

variable [LawfulPTE M PTE]

theorem plainEntry_empty (n : ℕ) : PlainEntry M n (empty : PTE) :=
  ⟨Or.inr (child_empty M), Or.inl rfl⟩

theorem LeafEntry.plain {P : PTE → Prop} {len : ℕ} {e : PTE} (h : LeafEntry P M len e) :
    PlainEntry M len e := by
  refine ⟨h.noTable, ?_⟩
  obtain h | ⟨-, h | ⟨-, h⟩⟩ := h
  · exact Or.inl h
  · exact Or.inr (by omega)
  · exact Or.inr h

theorem Inv.guarded {P : PTE → Prop} (I : Inv P M inUse root w) : Guarded M inUse root w :=
  ⟨I.toTree, fun h hρ => (I.entries h hρ).imp_right LeafEntry.plain⟩

theorem Steps.guarded (hH : FreshFrames M H inUse) (G : Guarded M inUse root w)
    (h : Steps M H root A (PlainStore M) w w') : Guarded M inUse root w' := by
  have hW : ∀ ρ (e : PTE), PlainStore M ρ e → NoTable M ρ.length e := fun _ _ h => h.1
  exact ⟨h.tree hH hW G.toTree, h.entries hH plainEntry_empty (fun ρ e he => ⟨hW ρ e he, he⟩)
    G.toTree G.entries⟩

omit [LawfulPTE M PTE] in
theorem plainStore_pathTo (hL : M.LEVELS = 3 ∨ M.LEVELS = 4) (v : VirtAddr) {k : ℕ} (hk : k ≤ 2)
    {e : PTE} (he : k = 0 ∨ child e = none) : PlainStore M (pathTo M k v) e := by
  have hlen := length_pathTo hL k v
  refine ⟨?_, Or.inr (by omega)⟩
  obtain rfl | he := he
  · exact Or.inl (by omega)
  · exact Or.inr he

omit [LawfulPTE M PTE] in
theorem child_of_paddr_eq_zero {e : PTE} (h : paddr e = 0) : child e = none := by
  rcases hc : child e with _ | p
  · rfl
  · exact absurd h (child_eq_some.mp hc).1

omit [LawfulPTE M PTE] in
/-- Of flags that are let through, the entry is huge or has no address. -/
theorem LeafFlags.accepted_or {f : MappingFlags 64} {e : PTE} (h : LeafFlags B f e)
    (hf : flagsPass B PTE f = true) : debugAssert PTE f = true ∨ paddr e = 0 := by
  obtain hB | h := h
  · rw [flagsPass, hB] at hf
    exact Or.inl hf
  · exact h

/-- New flags keep a huge entry from being taken for a table. -/
theorem LeafFlags.child_setFlags (M : PagingMetaData) [LawfulPTE M PTE] {f : MappingFlags 64}
    {e : PTE} (h : LeafFlags B f e)
    (hf : flagsPass B PTE f = true) : child (setFlags e f true) = none := by
  obtain hf | he := h.accepted_or hf
  · exact child_of_isHuge (LawfulPTE.isHuge_setFlags M e hf)
  · exact child_of_paddr_eq_zero ((LawfulPTE.paddr_setFlags M e f true).trans he)

theorem LeafFlags.child_newPage (M : PagingMetaData) [LawfulPTE M PTE] {f : MappingFlags 64}
    {p : PhysAddr} (h : LeafFlags B f (newPage p f true : PTE)) (hf : flagsPass B PTE f = true) :
    child (newPage p f true : PTE) = none := by
  obtain hf | he := h.accepted_or hf
  · exact child_of_isHuge (LawfulPTE.isHuge_newPage M p hf)
  · exact child_of_paddr_eq_zero he

/-! ### Calls -/

variable (self : PageTable64 B M PTE H)

omit [LawfulPTE M PTE] in
/-- A call of `map` that succeeds has found an unused entry. -/
theorem endsUnused_of_map {v : VirtAddr} {target : PhysAddr} {size : PageSize}
    {f : MappingFlags 64} (h : (self.map v target size f w).1 = .ok ()) :
    EndsUnused self v size w := by
  rw [PageTable64.map, Op.bind_apply] at h
  rcases hwalk : self.getEntryMutOrCreate v size w with ⟨slot | e | _, w'⟩
  · rw [EndsUnused, hwalk]
    refine ⟨slot, rfl, ?_⟩
    by_contra hu
    have hused : (!isUnused (w'.entry slot)) = true := by
      rw [Bool.not_eq_true']
      exact Bool.eq_false_iff.mpr hu
    simp only [hwalk, Op.bind_ok (readEntry_eq slot w'), if_pos hused] at h
    exact absurd h (by simp)
  · rw [hwalk] at h
    exact absurd h (by simp)
  · rw [hwalk] at h
    exact absurd h (by simp)

theorem map_plainSteps (hH : FreshFrames M H inUse) (T : Tree M inUse self.rootPaddr w)
    {v : VirtAddr} {target : PhysAddr} {size : PageSize} {f : MappingFlags 64}
    (hkeep : MapKeepsLeaves self v target size f w) :
    Steps M H self.rootPaddr (fun _ => True) (PlainStore M) w (self.map v target size f w).2 := by
  refine (Steps.map self hH T v target size f fun hok hf => ?_).mono (fun _ _ => trivial)
    fun _ _ h => h
  refine plainStore_pathTo (LawfulPTE.levels PTE) v size.height_le ?_
  obtain h0 | hno | hflags := hkeep
  · exact Or.inl h0
  · exact absurd (endsUnused_of_map self hok) hno
  · by_cases hhuge : size.isHuge = true
    · rw [hhuge] at hflags ⊢
      exact Or.inr (hflags.child_newPage M hf)
    · refine Or.inl ?_
      cases size <;> first | rfl | exact absurd rfl hhuge

omit [LawfulPTE M PTE] in
/-- What `get_entry` returns for the entry that the walk finds. -/
theorem getEntry_of_seek (hL : M.LEVELS = 3 ∨ M.LEVELS = 4) {v : VirtAddr} {slot : Slot} {k : ℕ}
    (hs : seek w.mem self.rootPaddr (vpath M v) = .ok (slot, k)) :
    (self.getEntry v w).1 = .ok (slot, heightSize k) := by
  obtain ⟨acc, -, heq⟩ := getEntry_apply hL self v w
  rw [heq, hs]
  rfl

/-- New flags for the entry that the walk finds make no table. -/
theorem plainStore_setFlags {v : VirtAddr} {f : MappingFlags 64} {slot : Slot} {k : ℕ} {e : PTE}
    (hs : seek w.mem self.rootPaddr (vpath M v) = .ok (slot, k))
    (hkeep : heightSize k = .size4K ∨ LeafFlags B f e) (hf : flagsPass B PTE f = true) :
    PlainStore M (pathTo M k v) (setFlags e f (heightSize k).isHuge) := by
  have hL := LawfulPTE.levels (M := M) PTE
  refine plainStore_pathTo hL v (slotAt_of_seek hL hs).2.1 ?_
  rcases Nat.eq_zero_or_pos k with h0 | h0
  · exact Or.inl h0
  · rw [isHuge_heightSize, decide_eq_true h0]
    obtain h4K | hflags := hkeep
    · have := isHuge_heightSize k
      rw [h4K, decide_eq_true h0] at this
      exact absurd this (by decide)
    · exact Or.inr (hflags.child_setFlags M hf)

theorem protect_plainSteps {v : VirtAddr} {f : MappingFlags 64}
    (hkeep : ProtectKeepsLeaves self v f w) :
    Steps M H self.rootPaddr A (PlainStore M) w (self.protect v f w).2 :=
  Steps.protect self v f fun slot _ hs hp hf => plainStore_setFlags self hs
    (hkeep slot _ (getEntry_of_seek self (LawfulPTE.levels PTE) hs) hp) hf

theorem protectRegionStep_plainSteps {v : VirtAddr} {size : Usize} {f : MappingFlags 64}
    (hkeep : ProtectKeepsLeaves self v f w) :
    Steps M H self.rootPaddr A (PlainStore M) w (self.protectRegionStep f v size w).2 :=
  Steps.protectRegionStep self v size f fun slot _ hs hp hf => plainStore_setFlags self hs
    (hkeep slot _ (getEntry_of_seek self (LawfulPTE.levels PTE) hs) hp) hf

theorem remap_plainSteps {v : VirtAddr} {target : PhysAddr} {f : MappingFlags 64}
    (hkeep : RemapKeepsLeaves self v target f w) :
    Steps M H self.rootPaddr A (PlainStore M) w (self.remap v target f w).2 := by
  have hL := LawfulPTE.levels (M := M) PTE
  refine Steps.remap self v target f (fun slot k hs hf => ?_) fun slot k hs _ => ?_
  · exact plainStore_setFlags self hs (hkeep slot _ (getEntry_of_seek self hL hs)) hf
  · -- the new address leaves a huge entry huge
    obtain ⟨-, hk, hhuge⟩ := slotAt_of_seek hL hs
    refine plainStore_pathTo hL v hk ?_
    rcases Nat.eq_zero_or_pos k with h0 | h0
    · exact Or.inl h0
    · refine Or.inr (child_of_isHuge ?_)
      rw [LawfulPTE.isHuge_setPaddr M]
      exact hhuge h0

/-- A call that keeps the leaves stores no entry that is taken for a table. -/
theorem Call.plainSteps (hH : FreshFrames M H inUse) (T : Tree M inUse self.rootPaddr w) (c : Call)
    (hc : c.KeepsLeaves self w) :
    Steps M H self.rootPaddr (fun _ => True) (PlainStore M) w (c.next self w) := by
  have hW : ∀ ρ (e : PTE), PlainStore M ρ e → NoTable M ρ.length e := fun _ _ h => h.1
  -- `unmap` stores an unused entry only
  have hunmap : ∀ (v : VirtAddr) (w : World PTE σ),
      Steps M H self.rootPaddr (fun _ => True) (PlainStore M) w (self.unmap v w).2 :=
    fun v w => Steps.unmap self v fun k => plainEntry_empty _
  cases c with
  | query v => exact query_steps self v
  | map v target size f => exact map_plainSteps self hH T hc
  | remap v target f => exact remap_plainSteps self hc
  | protect v f => exact protect_plainSteps self hc
  | unmap v => exact hunmap v w
  | mapRegion v getPaddr size f allowHuge =>
    rw [Call.KeepsLeaves] at hc
    rw [Call.next]
    obtain h | ⟨hv, hsize, h⟩ := mapRegion_cases self v getPaddr size f allowHuge w
    · rw [h]
      exact .refl
    · rw [h]
      refine regionLoop_steps hH self hW T (fun v size w' T' hnow => ?_) (hc hv hsize)
      rw [mapRegionStep_snd]
      exact map_plainSteps self hH T' hnow
  | unmapRegion v size =>
    refine regionLoop_steps hH self hW T (fun v size w' _ _ => ?_)
      (.of_forall (fun _ _ _ => trivial) _ v size w)
    rw [unmapRegionStep_snd]
    exact hunmap v w'
  | protectRegion v size f =>
    exact regionLoop_steps hH self hW T
      (fun v size w' _ hnow => protectRegionStep_plainSteps self hnow) hc

/-! ### Runs -/

/-- A condition on a state and a call holds at each call of a list. -/
def Call.Along (ok : World PTE σ → Call → Prop) (self : PageTable64 B M PTE H) :
    List Call → World PTE σ → Prop
  | [], _ => True
  | c :: cs, w => ok w c ∧ Call.Along ok self cs (c.next self w)

/-- A run of calls that keep the leaves keeps the invariant. -/
theorem nextAll_guarded (hH : FreshFrames M H inUse) (cs : List Call)
    (hcs : Call.Along (fun w c => c.KeepsLeaves self w) self cs w)
    (G : Guarded M inUse self.rootPaddr w) :
    Guarded M inUse self.rootPaddr (Call.nextAll self cs w) := by
  induction cs generalizing w with
  | nil => exact G
  | cons c cs ih =>
    obtain ⟨hc, hcs⟩ := hcs
    exact ih hcs ((Call.plainSteps self hH G.toTree c hc).guarded hH G)

/-- It keeps the account of the frames too. -/
theorem Guarded.nextAll_account (hH : FreshFrames M H inUse) (cs : List Call)
    (hcs : Call.Along (fun w c => c.KeepsLeaves self w) self cs w)
    (G : Guarded M inUse self.rootPaddr w) (a : Account M self.rootPaddr w) :
    Account M self.rootPaddr (Call.nextAll self cs w) := by
  induction cs generalizing w with
  | nil => exact a
  | cons c cs ih =>
    obtain ⟨hc, hcs⟩ := hcs
    have hsteps := Call.plainSteps self hH G.toTree c hc
    exact ih hcs (hsteps.guarded hH G) (hsteps.account hH (fun _ _ h => h.1) G.toTree a)

/-- A new table is guarded, and stays so in a run of calls that keep the leaves. -/
theorem guarded_run (hH : FreshFrames M H inUse) {w₀ : World PTE σ}
    (hnew : PageTable64.tryNew B M PTE H w₀ = (.ok self, w)) (cs : List Call)
    (hcs : Call.Along (fun w c => c.KeepsLeaves self w) self cs w) :
    Guarded M inUse self.rootPaddr (Call.nextAll self cs w) := by
  have I : Inv (fun _ => True) M inUse self.rootPaddr w := tryNew_inv hH self hnew
  exact nextAll_guarded self hH cs hcs I.guarded

/-- An entry above the last level that is taken for a table is one, and its frame has been
allocated. -/
theorem Guarded.table_of_nextTable (G : Guarded M inUse root w) (a : Account M root w)
    {ρ : List (Fin ENTRY_COUNT)} {slot : Slot} {p : PhysAddr} (h : SlotAt w.mem root ρ slot)
    (hρ : ρ.length < M.LEVELS) (hp : PageTable64.nextTable (w.entry slot) = .ok p) :
    w.entry slot = newTable p ∧ .alloc p ∈ w.trace := by
  have hchild : child (w.entry slot) = some p := child_of_nextTable hp
  constructor
  · obtain ⟨-, q, hq, he⟩ | ⟨hno, -⟩ := G.entries h (by omega)
    · rw [he, child_newTable hq, Option.some_inj] at hchild
      rw [he, hchild]
    · obtain hlen | hno := hno
      · omega
      · rw [hno] at hchild
        exact absurd hchild (by simp)
  · have hmem : p ∈ nodes child w.mem {root} (M.LEVELS - 1) :=
      ⟨root, rfl, ρ, by omega, h.resolve_eq.trans hchild⟩
    rw [← a.live] at hmem
    have := (a.safe.count_alloc p).1 hmem
    exact List.count_pos_iff.mp (by omega)

end Lawful

/-- Only tables are taken for tables: by the walks, in the accesses made so far and by the
drop, and by what the drop frees. -/
structure OnlyTables (table : PageTable64 B M PTE H) (w : World PTE σ) : Prop where
  entry {ρ : List (Fin ENTRY_COUNT)} {slot : Slot} {p : PhysAddr} :
    SlotAt w.mem table.rootPaddr ρ slot → ρ.length < M.LEVELS →
    PageTable64.nextTable (w.entry slot) = .ok p → w.entry slot = newTable p ∧ .alloc p ∈ w.trace
  drop_ok : (table.drop w).1 = .ok ()
  free (p : PhysAddr) : (table.drop w).2.trace.count (.free p) =
    if .alloc p ∈ (table.drop w).2.trace then 1 else 0
  access (p : PhysAddr) (before : List (MemEvent PhysAddr)) :
    .access p :: before <:+ (table.drop w).2.trace → .alloc p ∈ before ∧ .free p ∉ before

/-- In a run of calls that keep the leaves no huge leaf is ever taken for a table. -/
theorem Arch.hugeLeaf_not_table (arch : Arch) {H : PagingHandler 64 σ} {inUse : σ → Set PhysAddr}
    (hH : FreshFrames arch.metaData H inUse) {self : PageTable64 B arch.metaData arch.PTE H}
    {w₀ w : World arch.PTE σ} (h₀ : w₀.trace = [])
    (hnew : PageTable64.tryNew B arch.metaData arch.PTE H w₀ = (.ok self, w)) (cs : List Call)
    (hcs : Call.Along (fun w c => c.KeepsLeaves self w) self cs w) :
    OnlyTables self (Call.nextAll self cs w) := by
  have I : Inv (fun _ => True) arch.metaData inUse self.rootPaddr w := tryNew_inv hH self hnew
  have G := nextAll_guarded self hH cs hcs I.guarded
  have a := I.guarded.nextAll_account self hH cs hcs (tryNew_account h₀ hnew)
  obtain ⟨hok, hfree, haccess⟩ := drop_account (tryNew_borrowedEntries hnew) G.forest a
  exact ⟨G.table_of_nextTable a, hok, hfree, haccess⟩

/-- A run on Sv39 without debug assertions, in which the flags of a 4K page are such that it
is not readable. -/
theorem Arch.hugeLeaf_not_table_run :
    OnlyTables (firstTable ⟨false, true⟩ Sv39MetaData (Rv64PTE false) 8)
      (Call.nextAll (firstTable ⟨false, true⟩ Sv39MetaData (Rv64PTE false) 8)
        [.map 0x40000000 0x80000000 .size2M .READ, .map 0x1000 0x5000 .size4K .WRITE,
          .protect 0x40000000 (.READ ||| .WRITE), .unmapRegion 0x1000 0x1000]
        (firstWorld (Rv64PTE false))) :=
  Arch.hugeLeaf_not_table (.sv39 false)
    (freshFrames_bumpHandler (by decide) (by decide) : FreshFrames _ (bumpHandler 8) bumped)
    (rfl : (blankWorld (Rv64PTE false)).trace = []) (tryNew_blankWorld 7) _
    ⟨Call.keepsLeaves_of_flagsIn _ _ (Or.inr (by decide)), Or.inl rfl,
      Call.keepsLeaves_of_flagsIn _ _ (Or.inr (by decide)), trivial, trivial⟩

/-- Without debug assertions a huge page that is made writable only is taken for a table: the
next `query` reads the page as one, and the drop frees it. -/
theorem hugeLeaf_taken_for_table :
    let table := firstTable ⟨false, true⟩ Sv39MetaData (Rv64PTE false) 8
    let w := Call.nextAll table [.map 0x40000000 0x80000000 .size2M .READ,
      .protect 0x40000000 .WRITE] (firstWorld (Rv64PTE false))
    .access 0x80000000 ∈ (table.query 0x40000000 w).2.trace ∧
      .free 0x80000000 ∈ (table.drop w).2.trace ∧
      .alloc 0x80000000 ∉ (table.drop w).2.trace := by
  decide +kernel

end PageTableMultiarch
