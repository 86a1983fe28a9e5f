/-
What `walk` of a `PageTable32` reports of the second level.

* `walk_real_iff` — the walk returns, reports each page of the table once and nothing else of the
  second level, exactly if the words after its tables are zero (`Quiet`);
* `Reachable.link_cases` — what the first level leads to in the states of a run: tables that have
  been allocated, and address zero for sections without access;
* `walk_reports_neighbour` — the entries of a table in the next frame are reported twice.
-/
import PageTableMultiarch.Table32.Walk
import PageTableMultiarch.Table32.Accounting
import PageTableMultiarch.Table32.PageFrame

namespace PageTableMultiarch.Bits32

open GenericPTE A32PTE MemEvent

variable {B : Build} {M : PagingMetaData} {σ : Type} {H : PagingHandler 32 σ} {inUse : σ → Set ℕ}
  {root : PhysAddr} {w : World A32PTE σ} {i j : Fin ENTRY_COUNT}

/-! ### Real entries -/

/-- An entry of the first level points to a second level table that has been allocated and not
freed since. -/
def PointsToTable (root : PhysAddr) (w : World A32PTE σ) (i : Fin ENTRY_COUNT) : Prop :=
  (w.entry (l1At root i)).descriptorType = 0b01 ∧
    (⟨paddr (w.entry (l1At root i)), 1⟩ : Table) ∈ live w.trace

/-- The report of one of the 256 entries of an allocated second level table, with its address in
the megabyte of the first level entry that points to the table. -/
def RealEntry (root : PhysAddr) (w : World A32PTE σ) (x : Visited A32PTE) : Prop :=
  ∃ i j : Fin ENTRY_COUNT, PointsToTable root w i ∧ j.val < 256 ∧ x.index = j.val ∧
    x.vaddr.toNat = i.val * 0x100000 + j.val * 0x1000 ∧
    x.entry = w.entry ⟨⟨paddr (w.entry (l1At root i)), 1⟩, j⟩

/-- A call of `pre_func` for the page at an address. -/
def WalkCall.isPage (v : VirtAddr) : WalkCall A32PTE → Bool
  | pre x => decide (x.level = 1) && decide (x.vaddr = v)
  | post _ => false

/-- The calls of `pre_func` for the second level are for real entries, and there is one for each
small page. -/
structure RealCalls (table : PageTable32 B M A32PTE H) (w : World A32PTE σ)
    (calls : List (WalkCall A32PTE)) : Prop where
  real {x : Visited A32PTE} (hx : .pre x ∈ calls) (hlevel : x.level = 1) :
    RealEntry table.rootPaddr w x
  once {v : VirtAddr} (hv : v.toNat % 0x1000 = 0) {p : PhysAddr} {f : MappingFlags 32}
    (hquery : (table.query v w).1 = .ok (p, f, .size4K)) : calls.countP (WalkCall.isPage v) = 1

/-- The walk with the limit `usize::MAX` returns and its calls are real. -/
def RealWalk (self : PageTable32 B M A32PTE H) (w : World A32PTE σ) : Prop :=
  ∃ w' calls, self.walk (BitVec.allOnes 32) (some recordPre) (some recordPost) (w, []) =
    (.ok (), w', calls) ∧ RealCalls self w calls

/-- The words after the second level tables are zero, and so are all words where an entry of the
first level that points to no such table is taken to point.  Where overflow is checked there are
no such entries above the last 15 MiB. -/
structure Quiet (B : Build) (root : PhysAddr) (w : World A32PTE σ) : Prop where
  after {i j : Fin ENTRY_COUNT} (hi : Link w.mem root i) (hj : 256 ≤ j.val) :
    isUnused (wordAt w.mem root i j) = true
  noTable {i j : Fin ENTRY_COUNT} (hi : Link w.mem root i) (hno : ¬PointsToTable root w i) :
    isUnused (wordAt w.mem root i j) = true
  low (hchecks : B.overflowChecks = true) {i : Fin ENTRY_COUNT} (hi : Link w.mem root i) :
    i.val < 4081

/-! ### Addresses -/

theorem toNat_secondAt {mem : PhysAddr → A32PTE} (hj : j.val < 256) :
    (secondAt mem root i j).vaddr.toNat = i.val * 0x100000 + j.val * 0x1000 := by
  have hi : i.val < 4096 := i.isLt
  rw [secondAt, BitVec.toNat_ofNat, Nat.mod_eq_of_lt (by omega)]

/-- The address of a page has the indices of its entries. -/
theorem secondAt_vaddr_eq_iff {mem : PhysAddr → A32PTE} (hj : j.val < 256) {v : VirtAddr}
    (hv : v.toNat % 0x1000 = 0) :
    (secondAt mem root i j).vaddr = v ↔ i = p1Index v ∧ j = p2Index v := by
  have h1 := p1Index_val v
  have h2 := p2Index_val v
  rw [← BitVec.toNat_inj, toNat_secondAt hj, Fin.ext_iff, Fin.ext_iff, h1, h2]
  omega

/-! ### Counting -/

section Count

/-- In a list without duplicates of which one element matters, only the list of that element
counts. -/
theorem countP_flatMap_of_mem {α β : Type} {l : List α} (hl : l.Nodup) {a : α} (ha : a ∈ l)
    {f : α → List β} {q : β → Bool} (hf : ∀ b, b ≠ a → (f b).countP q = 0) :
    (l.flatMap f).countP q = (f a).countP q := by
  induction l with
  | nil => exact absurd ha List.not_mem_nil
  | cons b l ih =>
    obtain ⟨hb, hl⟩ := List.nodup_cons.mp hl
    rw [List.flatMap_cons, List.countP_append]
    obtain rfl | ha := List.mem_cons.mp ha
    · -- nothing counts in the rest
      have hrest : (l.flatMap f).countP q = 0 := by
        rw [List.countP_eq_zero]
        intro x hx
        obtain ⟨c, hc, hx⟩ := List.mem_flatMap.mp hx
        exact List.countP_eq_zero.mp (hf c fun hca => hb (hca ▸ hc)) x hx
      rw [hrest, Nat.add_zero]
    · rw [ih hl ha, hf b fun hba => hb (hba ▸ ha), Nat.zero_add]

variable {mem : PhysAddr → A32PTE} {v : VirtAddr}

/-- The calls for the page in a table of the second level: none, if its entry is unused or the
address is another one. -/
theorem countP_second (mem : PhysAddr → A32PTE) (root : PhysAddr) (i j : Fin ENTRY_COUNT)
    (v : VirtAddr) :
    (entryCalls mem ⟨paddr (mem (l1At root i).addr), 1⟩ 1 (0 + BitVec.ofNat 32 (i.val * spanAt 0))
      (fun _ _ => []) j).countP (WalkCall.isPage v) =
    if isUnused (wordAt mem root i j) = false ∧ (secondAt mem root i j).vaddr = v then 1
      else 0 := by
  rw [entryCalls, reportAt_second]
  have hentry : (secondAt mem root i j).entry = wordAt mem root i j := rfl
  rw [hentry]
  by_cases hu : isUnused (wordAt mem root i j) = true
  · rw [if_pos hu, if_neg (by simp [hu]), List.countP_nil]
  · rw [if_neg hu, if_neg (by simp), List.nil_append, List.countP_cons, List.countP_cons,
      List.countP_nil]
    have hpre : WalkCall.isPage v (.pre (secondAt mem root i j)) =
        decide ((secondAt mem root i j).vaddr = v) := by
      have hlevel : (secondAt mem root i j).level = 1 := rfl
      rw [WalkCall.isPage, hlevel, decide_eq_true rfl, Bool.true_and]
    have hpost : WalkCall.isPage v (.post (secondAt mem root i j)) = false := rfl
    rw [hpre, hpost]
    simp [hu]

/-- Of the calls for an entry of the first level, those below count. -/
theorem countP_first (mem : PhysAddr → A32PTE) (root : PhysAddr) (i : Fin ENTRY_COUNT)
    (v : VirtAddr) (below : PhysAddr → VirtAddr → List (WalkCall A32PTE)) :
    (entryCalls mem ⟨root, L1_SIZE_PAGES⟩ 0 0 below i).countP (WalkCall.isPage v) =
    if Link mem root i then
      (below (paddr (mem (l1At root i).addr)) (0 + BitVec.ofNat 32 (i.val * spanAt 0))).countP
        (WalkCall.isPage v)
    else 0 := by
  have hlink : Link mem root i ↔ isUnused (mem (l1At root i).addr) = false ∧
      isHuge (mem (l1At root i).addr) = false := Iff.rfl
  rw [if_congr hlink rfl rfl, entryCalls, reportAt]
  dsimp only
  have haddr : (Slot.addr ⟨⟨root, L1_SIZE_PAGES⟩, i⟩) = (l1At root i).addr := rfl
  rw [haddr]
  generalize (0 : VirtAddr) + BitVec.ofNat 32 (i.val * spanAt 0) = vaddr
  generalize mem (l1At root i).addr = e
  by_cases hu : isUnused e = true
  · rw [if_pos hu, if_neg (by simp [hu]), List.countP_nil]
  · have hpre : WalkCall.isPage v (.pre ⟨0, i.val, vaddr, e⟩) = false := rfl
    have hpost : WalkCall.isPage v (.post ⟨0, i.val, vaddr, e⟩) = false := rfl
    rw [if_neg hu, List.countP_cons, List.countP_append, List.countP_cons, List.countP_nil, hpre,
      hpost]
    cases hh : isHuge e with
    | true => simp
    | false => simp [hu]

/-- The page at an address is reported once, if nothing is reported beyond the tables. -/
theorem countP_walkCalls (hv : v.toNat % 0x1000 = 0)
    (hafter : ∀ {i j}, Link mem root i → 256 ≤ j.val → isUnused (wordAt mem root i j) = true)
    (hlink : Link mem root (p1Index v))
    (hused : isUnused (wordAt mem root (p1Index v) (p2Index v)) = false) :
    (walkCalls mem root).countP (WalkCall.isPage v) = 1 := by
  have hsecond : ∀ i, Link mem root i → ∀ j, (i, j) ≠ (p1Index v, p2Index v) →
      ¬(isUnused (wordAt mem root i j) = false ∧ (secondAt mem root i j).vaddr = v) := by
    rintro i hi j hne ⟨hu, heq⟩
    have hj : j.val < 256 := by
      by_contra hc
      rw [hafter hi (by omega)] at hu
      exact absurd hu (by simp)
    obtain ⟨rfl, rfl⟩ := (secondAt_vaddr_eq_iff hj hv).mp heq
    exact hne rfl
  have hother : ∀ i, i ≠ p1Index v → (entryCalls mem ⟨root, L1_SIZE_PAGES⟩ 0 0 (fun p vaddr =>
      callsBelow mem 0 ⟨p, 1⟩ 1 vaddr) i).countP (WalkCall.isPage v) = 0 := by
    intro i hi
    rw [countP_first]
    split
    · next hlink =>
      rw [List.countP_eq_zero, callsBelow]
      intro x hx
      obtain ⟨j, -, hx⟩ := List.mem_flatMap.mp hx
      refine List.countP_eq_zero.mp ?_ x hx
      rw [countP_second, if_neg (hsecond i hlink j fun h => hi (Prod.mk.inj h).1)]
    · rfl
  rw [walkCalls, callsBelow, countP_flatMap_of_mem nodup_entryIndices (mem_entryIndices _) hother,
    countP_first, if_pos hlink, callsBelow,
    countP_flatMap_of_mem nodup_entryIndices (mem_entryIndices (p2Index v)) ?_, countP_second,
    if_pos ⟨hused, (secondAt_vaddr_eq_iff (p2Index_lt v) hv).mpr ⟨rfl, rfl⟩⟩]
  intro j hj
  rw [countP_second, if_neg (hsecond _ hlink j fun h => hj (Prod.mk.inj h).2)]

end Count

/-! ### The walk -/

/-- The entry that a walk to an address finds is the word with its indices. -/
theorem query_size4K (self : PageTable32 B M A32PTE H) {v : VirtAddr} {p : PhysAddr}
    {f : MappingFlags 32} (h : (self.query v w).1 = .ok (p, f, .size4K)) :
    Link w.mem self.rootPaddr (p1Index v) ∧
      isUnused (wordAt w.mem self.rootPaddr (p1Index v) (p2Index v)) = false := by
  rw [PageTable32.query_apply] at h
  rcases hfind : find self.rootPaddr v w.mem with _ | ⟨slot, size⟩
  · rw [hfind] at h
    exact absurd h (by simp)
  · rw [hfind] at h
    dsimp only at h
    obtain ⟨hu, ⟨-, rfl, rfl⟩ | ⟨hh, rfl, rfl⟩⟩ := find_cases hfind
    · -- a section has another size
      split at h
      · exact absurd h (by simp)
      · exact absurd (Prod.mk.inj (Prod.mk.inj (Res.ok.inj h)).2).2 (by decide)
    · refine ⟨⟨hu, hh⟩, Bool.eq_false_iff.mpr fun hunused => ?_⟩
      rw [if_pos (show isUnused (w.entry (l2Slot (w.entry (l1Slot self.rootPaddr v)) v)) = true
        from hunused)] at h
      exact absurd h (by simp)

/-- What the walk with the limit `usize::MAX` records. -/
theorem walk_recorded (self : PageTable32 B M A32PTE H) (w : World A32PTE σ)
    (hlow : B.overflowChecks = true → ∀ i, Link w.mem self.rootPaddr i → i.val < 4081) :
    ∃ w' calls, self.walk (BitVec.allOnes 32) (some recordPre) (some recordPost) (w, []) =
      (.ok (), w', calls) ∧ calls = walkCalls w.mem self.rootPaddr := by
  have hlimit : ENTRY_COUNT ≤ (BitVec.allOnes 32 : Usize).toNat := by decide
  obtain ⟨⟨w', calls⟩, hrun, -, hcalls⟩ := walk_spec (s := (w, [])) hlimit self hlow rfl
  rw [foldl_record, List.nil_append] at hcalls
  exact ⟨w', calls, hrun, hcalls⟩

/-- The walk reports each page once and nothing else of the second level, exactly if there is
nothing but zeros beyond the tables. -/
theorem walk_real_iff (self : PageTable32 B M A32PTE H) (w : World A32PTE σ) :
    RealWalk self w ↔ Quiet B self.rootPaddr w := by
  constructor
  · rintro ⟨w', calls, hrun, hreal⟩
    have hlow : B.overflowChecks = true → ∀ i, Link w.mem self.rootPaddr i → i.val < 4081 :=
      fun hchecks i hi => link_lt_of_walk (by decide) self rfl (congrArg Prod.fst hrun) hchecks hi
    -- the calls are all those for words that are not zero
    obtain ⟨_, _, hrun', hcalls⟩ := walk_recorded self w hlow
    obtain ⟨rfl, rfl⟩ := Prod.mk.inj (Prod.mk.inj (hrun.symm.trans hrun')).2
    have hword : ∀ {i j}, Link w.mem self.rootPaddr i →
        isUnused (wordAt w.mem self.rootPaddr i j) = false →
        RealEntry self.rootPaddr w (secondAt w.mem self.rootPaddr i j) := by
      intro i j hi hu
      obtain ⟨hmem, hlevel⟩ := mem_walkCalls.mpr ⟨i, j, hi, hu, rfl⟩
      rw [← hcalls] at hmem
      exact hreal.real hmem hlevel
    refine ⟨fun {i j} hi hj => ?_, fun {i j} hi hno => ?_, fun hchecks i hi => hlow hchecks i hi⟩
    · by_contra hu
      obtain ⟨i', j', -, hj', hindex, -⟩ := hword hi (by simpa using hu)
      have hsame : j.val = j'.val := hindex
      omega
    · by_contra hu
      obtain ⟨i', j', hpoints, hj', hindex, hvaddr, -⟩ := hword hi (by simpa using hu)
      have hsame : j.val = j'.val := hindex
      rw [toNat_secondAt (by omega)] at hvaddr
      obtain rfl : i = i' := Fin.ext (by omega)
      exact hno hpoints
  · intro hquiet
    obtain ⟨w', calls, hrun, hcalls⟩ := walk_recorded self w fun hchecks i hi =>
      hquiet.low hchecks hi
    refine ⟨w', calls, hrun, fun {x} hx hlevel => ?_, fun {v} hv {p f} hquery => ?_⟩
    · rw [hcalls] at hx
      obtain ⟨i, j, hi, hu, rfl⟩ := mem_walkCalls.mp ⟨hx, hlevel⟩
      have hpoints : PointsToTable self.rootPaddr w i := by
        by_contra hno
        rw [hquiet.noTable hi hno] at hu
        exact absurd hu (by simp)
      have hj : j.val < 256 := by
        by_contra hc
        rw [hquiet.after hi (by omega)] at hu
        exact absurd hu (by simp)
      exact ⟨i, j, hpoints, hj, rfl, toNat_secondAt hj, rfl⟩
    · obtain ⟨hlink, hused⟩ := query_size4K self hquery
      rw [hcalls]
      exact countP_walkCalls hv hquiet.after hlink hused

/-- In the states of a run an entry of the first level that is followed points to an allocated
table, or is a section without access, which is followed to address zero. -/
theorem Reachable.link_cases (hH : FreshFrames H inUse) {self : PageTable32 B M A32PTE H}
    (hw : Reachable self w) (hi : Link w.mem self.rootPaddr i) :
    PointsToTable self.rootPaddr w i ∨ paddr (w.entry (l1At self.rootPaddr i)) = 0 := by
  obtain hna | ⟨p, hp, hpa, -⟩ := (hw.layout hH).link_or_noAccess hi.1 hi.2
  · exact Or.inr hna.paddr_eq
  · refine Or.inl ⟨?_, hw.tables_live hH (Or.inr ⟨i, p, hp, hpa, ?_⟩)⟩
    · rw [hp]
      exact descriptorType_newTable p
    · rw [hp]
      exact congrArg (fun q => (⟨q, 1⟩ : Table)) (physAddr_newTable hpa)

/-! ### A table in the next frame -/

/-- Two pages whose second level tables lie in consecutive frames. -/
def neighbourWorld : World A32PTE ℕ :=
  Call.nextAll (firstTable ⟨true, true⟩ 16) [.map 0 0x40000000 .size4K .READ,
    .map 0x100000 0x40001000 .size4K .READ] firstWorld

theorem reachable_neighbourWorld : Reachable (firstTable ⟨true, true⟩ 16) neighbourWorld :=
  ((reachable_firstWorld 9).call (.map 0 0x40000000 .size4K .READ)).call
    (.map 0x100000 0x40001000 .size4K .READ)

/-- The page of the second table is reported as entry 1024 of the first one, at an address where
nothing is mapped. -/
theorem walk_reports_neighbour :
    FreshFrames (bumpHandler 16) (fun n => {k | k ≤ n}) ∧
      Reachable (firstTable ⟨true, true⟩ 16) neighbourWorld ∧
      (∃ w' calls e, (firstTable ⟨true, true⟩ 16).walk (BitVec.allOnes 32) (some recordPre)
          (some recordPost) (neighbourWorld, []) = (.ok (), w', calls) ∧
        .pre ⟨1, 1024, 0x400000, e⟩ ∈ calls) ∧
      ((firstTable ⟨true, true⟩ 16).query 0x400000 neighbourWorld).1 = .err .notMapped ∧
      ¬RealWalk (firstTable ⟨true, true⟩ 16) neighbourWorld := by
  obtain ⟨htop, hlink, hused, hquery⟩ :
      (∀ k : Fin 15, isUnused (neighbourWorld.mem
        (l1At 0x4000 ⟨4081 + k.val, Nat.add_lt_add_left k.isLt 4081⟩).addr) = true) ∧
      Link neighbourWorld.mem 0x4000 ⟨0, by decide⟩ ∧
      isUnused (wordAt neighbourWorld.mem 0x4000 ⟨0, by decide⟩ ⟨1024, by decide⟩) = false ∧
      ((firstTable ⟨true, true⟩ 16).query 0x400000 neighbourWorld).1 = .err .notMapped := by
    decide +kernel
  have hlow : ∀ i, Link neighbourWorld.mem 0x4000 i → i.val < 4081 := by
    intro i hi
    by_contra hc
    have hunused := htop ⟨i.val - 4081, by have : i.val < 4096 := i.isLt; omega⟩
    have hsame : (⟨4081 + (i.val - 4081), by have : i.val < 4096 := i.isLt; omega⟩ :
        Fin ENTRY_COUNT) = i := Fin.ext (by dsimp only; omega)
    rw [hsame, hi.1] at hunused
    exact absurd hunused (by simp)
  obtain ⟨w', calls, hrun, hcalls⟩ := walk_recorded (firstTable ⟨true, true⟩ 16) neighbourWorld
    fun _ i hi => hlow i hi
  have hmem : .pre (secondAt neighbourWorld.mem 0x4000 ⟨0, by decide⟩ ⟨1024, by decide⟩) ∈
      calls := by
    rw [hcalls]
    exact (mem_walkCalls.mpr ⟨_, _, hlink, hused, rfl⟩).1
  refine ⟨freshFrames_bumpHandler (by decide), reachable_neighbourWorld,
    ⟨w', calls, _, hrun, hmem⟩, hquery, ?_⟩
  rintro ⟨w'', calls', hrun', hreal⟩
  obtain ⟨-, rfl⟩ := Prod.mk.inj (Prod.mk.inj (hrun.symm.trans hrun')).2
  obtain ⟨-, j, -, hj, hindex, -⟩ := hreal.real hmem rfl
  have hindex : 1024 = j.val := hindex
  omega

end PageTableMultiarch.Bits32
