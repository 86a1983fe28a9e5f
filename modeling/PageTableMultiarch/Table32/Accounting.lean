/-
Frame accounting of one `PageTable32`.

While no section loses all access, the tables in use are the first level and the second level
tables that its entries point to, and these are exactly the frames allocated so far (`Account`);
dropping the table gives each of them back once.

* `Steps.account` — the elementary steps keep the account;
* `frames_returned` — after any run that takes all access from no section above the first
  megabyte, and the drop, each frame obtained has been freed exactly once, and no table was accessed
  after its frame had been freed.
-/
import PageTableMultiarch.Table32.Run

namespace PageTableMultiarch.Bits32

open GenericPTE A32PTE MemEvent

variable {B : Build} {M : PagingMetaData} {σ : Type} {H : PagingHandler 32 σ}
  {S : A32PTE → Prop} {V : VirtAddr → Prop} {inUse : σ → Set ℕ} {root : PhysAddr}
  {w w' : World A32PTE σ}

/-- An unused entry or a section with access. -/
def PlainEntry (e : A32PTE) : Prop := isUnused e = true ∨ isHuge e = true

theorem PlainEntry.sectionEntry {e : A32PTE} (h : PlainEntry e) : SectionEntry e :=
  h.imp descriptorType_of_isUnused isHuge_iff.mp

/-- The first level, and the tables that its entries point to. -/
def tables (root : PhysAddr) (w : World A32PTE σ) : Set Table :=
  {t | t = ⟨root, L1_SIZE_PAGES⟩ ∨
    ∃ i p, w.entry (l1At root i) = newTable p ∧ p.toNat % 0x1000 = 0 ∧ t = ⟨p, 1⟩}

theorem root_mem_tables : ⟨root, L1_SIZE_PAGES⟩ ∈ tables root w := Or.inl rfl

theorem page_mem_tables {i : Fin ENTRY_COUNT} {p : PhysAddr}
    (he : w.entry (l1At root i) = newTable p) (hp : p.toNat % 0x1000 = 0) :
    ⟨p, 1⟩ ∈ tables root w := Or.inr ⟨i, p, he, hp, rfl⟩

/-- The tables depend on the entries of the first level that point to one. -/
theorem tables_congr (h : ∀ i p, w'.entry (l1At root i) = newTable p ↔
    w.entry (l1At root i) = newTable p) : tables root w' = tables root w := by
  ext t
  refine or_congr_right (exists_congr fun i => exists_congr fun p => and_congr_left fun _ => ?_)
  exact h i p

/-- An entry of the first level that is neither unused nor a section points to a table. -/
theorem Layout.link (L : Layout PlainEntry inUse root w) {i : Fin ENTRY_COUNT}
    (hu : isUnused (w.entry (l1At root i)) = false)
    (hh : isHuge (w.entry (l1At root i)) = false) : ∃ p : PhysAddr,
      w.entry (l1At root i) = newTable p ∧ p.toNat % 0x1000 = 0 ∧ frameOf p ∈ inUse w.os := by
  obtain (hs | hs) | ⟨p, he, hp, -, hin, -⟩ := L.entries i
  · rw [hu] at hs
    nomatch hs
  · rw [hh] at hs
    nomatch hs
  · exact ⟨p, he, hp, hin⟩

theorem Layout.paddr_mem_tables (L : Layout PlainEntry inUse root w) {i : Fin ENTRY_COUNT}
    (hu : isUnused (w.entry (l1At root i)) = false)
    (hh : isHuge (w.entry (l1At root i)) = false) :
    ⟨paddr (w.entry (l1At root i)), 1⟩ ∈ tables root w := by
  obtain ⟨p, he, hp, -⟩ := L.link hu hh
  have hpaddr : paddr (newTable p : A32PTE) = p := physAddr_newTable hp
  rw [he, hpaddr]
  exact page_mem_tables he hp

/-- A walk stays in the tables. -/
theorem Layout.find_mem_tables (L : Layout PlainEntry inUse root w) {v : VirtAddr} {slot : Slot}
    {size : PageSize} (h : find root v w.mem = some (slot, size)) :
    slot.table ∈ tables root w := by
  obtain ⟨hu, ⟨-, rfl, -⟩ | ⟨hh, rfl, -⟩⟩ := find_cases h
  · exact root_mem_tables
  · exact L.paddr_mem_tables (i := p1Index v) hu hh

/-! ### The account -/

/-- The trace is safe, frees nothing, and what is live are the tables. -/
structure Account (root : PhysAddr) (w : World A32PTE σ) : Prop where
  safe : Safe w.trace
  live : live w.trace = tables root w
  no_free (t : Table) : .free t ∉ w.trace

theorem Account.access (a : Account root w) {t : Table} (ht : t ∈ tables root w)
    (hmem : tables root w' = tables root w) (htrace : w'.trace = .access t :: w.trace) :
    Account root w' where
  safe := by
    rw [htrace]
    exact ⟨a.live ▸ ht, a.safe⟩
  live := by
    rw [htrace, hmem]
    exact a.live
  no_free u hu := by
    rw [htrace] at hu
    exact a.no_free u (by simpa using hu)

/-- A store over an entry of the first level that points to no table. -/
theorem tables_store {i : Fin ENTRY_COUNT} {e : A32PTE} (hroot : root.toNat % L1_ALIGN = 0)
    (hold : SectionEntry (w.entry (l1At root i))) (he : SectionEntry e) :
    tables root (w.store (l1At root i) e) = tables root w := by
  refine tables_congr fun j p => ?_
  rw [World.store_entry]
  split
  · next heq =>
    obtain rfl := l1At_inj hroot heq
    exact iff_of_false (he.ne_newTable p) (hold.ne_newTable p)
  · rfl

/-- A new table is one more. -/
theorem Layout.tables_attach (L : Layout S inUse root w) (hH : FreshFrames H inUse)
    {i : Fin ENTRY_COUNT} {p : PhysAddr} {os : σ} (ha : H.allocFrame w.os = (some p, os))
    (hold : SectionEntry (w.entry (l1At root i))) :
    tables root ((w.grant p os).store (l1At root i) (newTable p)) =
      insert ⟨p, 1⟩ (tables root w) := by
  have hp := hH.aligned ha
  have hentry : ∀ j, ((w.grant p os).store (l1At root i) (newTable p)).entry (l1At root j) =
      if j = i then newTable p else w.entry (l1At root j) := by
    intro j
    rw [attach_entry hH root ha, if_neg (L.l1_ne_fresh hH ha j)]
    exact if_congr ⟨l1At_inj L.root_aligned, fun h => by rw [h]⟩ rfl rfl
  -- the first level has one more pointer, at an index that held none
  ext t
  constructor
  · rintro (rfl | ⟨j, q, he, hq, rfl⟩)
    · exact Or.inr root_mem_tables
    · rw [hentry] at he
      split at he
      · obtain rfl := newTable_inj hp hq he
        exact Or.inl rfl
      · exact Or.inr (page_mem_tables he hq)
  · rintro (rfl | rfl | ⟨j, q, he, hq, rfl⟩)
    · refine page_mem_tables (i := i) ?_ hp
      rw [hentry, if_pos rfl]
    · exact root_mem_tables
    · refine page_mem_tables (i := j) ?_ hq
      rw [hentry, if_neg]
      · exact he
      · rintro rfl
        exact hold.ne_newTable q he

/-- Each step keeps the account. -/
theorem Step.account (hH : FreshFrames H inUse) (L : Layout PlainEntry inUse root w)
    (a : Account root w) (h : Step H root V PlainEntry w w') : Account root w' := by
  have hplain : ∀ e, PlainEntry e → SectionEntry e := fun _ he => he.sectionEntry
  cases h with
  | accessRoot => exact a.access root_mem_tables rfl rfl
  | access v slot size h => exact a.access (L.find_mem_tables h) rfl rfl
  | flush fl => exact ⟨a.safe, a.live, a.no_free⟩
  | allocFail os h => exact ⟨a.safe, a.live, a.no_free⟩
  | store v slot size e h hV he =>
    refine a.access (L.find_mem_tables h) ?_ rfl
    obtain ⟨-, ⟨hh, rfl, hsize⟩ | ⟨hh, rfl, -⟩⟩ := find_cases h
    · exact tables_store L.root_aligned (Or.inr (isHuge_iff.mp hh)) (he hsize).sectionEntry
    · refine tables_congr fun j p => ?_
      rw [World.store_entry, if_neg (L.l2_ne_l1 hplain (i := p1Index v) hh v j)]
  | mapSection v e h hV he =>
    exact a.access root_mem_tables
      (tables_store L.root_aligned (Or.inl (descriptorType_of_isUnused h)) he.sectionEntry) rfl
  | attach v p os h ha hV =>
    have hp := hH.aligned ha
    -- the new frame is none of the tables
    have hnew : (⟨p, 1⟩ : Table) ∉ tables root w := by
      rintro (heq | ⟨i, q, he, hq, heq⟩)
      · exact absurd (congrArg Table.frames heq) (by decide : 1 ≠ L1_SIZE_PAGES)
      · obtain rfl : p = q := congrArg Table.paddr heq
        obtain hs | ⟨r, hr, hra, -, hin, -⟩ := L.entries i
        · exact hs.sectionEntry.ne_newTable p he
        · obtain rfl := newTable_inj hra hp (hr.symm.trans he)
          exact hH.fresh ha hin
    have htables := L.tables_attach hH (i := p1Index v) ha
      (Or.inl (descriptorType_of_isUnused h))
    refine ⟨⟨Or.inr (a.live ▸ root_mem_tables), Or.inl rfl, a.live ▸ hnew, a.safe⟩, ?_,
      fun t ht => ?_⟩
    · rw [htables, ← a.live]
      rfl
    · refine a.no_free t ?_
      simpa [World.grant] using ht

theorem Steps.account (hH : FreshFrames H inUse) (L : Layout PlainEntry inUse root w)
    (a : Account root w) (h : Steps H root V PlainEntry w w') : Account root w' := by
  induction h with
  | refl => exact a
  | tail hsteps hstep ih =>
    exact hstep.account hH (Steps.layout hH (fun _ he => he.sectionEntry) L hsteps) ih

/-- A new table, made before anything else, has its account. -/
theorem tryNew_account (hH : FreshFrames H inUse) {self : PageTable32 B M A32PTE H}
    {w₀ : World A32PTE σ} (h₀ : w₀.trace = [])
    (h : PageTable32.tryNew B M A32PTE H w₀ = (.ok self, w)) : Account self.rootPaddr w := by
  have htables : tables self.rootPaddr w = {self.root} := by
    ext t
    constructor
    · rintro (rfl | ⟨i, p, he, -⟩)
      · rfl
      · rw [tryNew_entry hH h] at he
        exact absurd he ((PlainEntry.sectionEntry (Or.inl rfl)).ne_newTable p)
    · rintro rfl
      exact root_mem_tables
  obtain ⟨os, ha, -, rfl⟩ := tryNew_eq h
  refine ⟨?_, ?_, fun t ht => ?_⟩
  · rw [h₀]
    exact ⟨Or.inl rfl, Set.notMem_empty _, trivial⟩
  · rw [htables, h₀]
    simp
  · rw [h₀] at ht
    simp at ht

/-- Each step keeps the tables allocated. -/
theorem Step.tables_live (hH : FreshFrames H inUse) (L : Layout SectionEntry inUse root w)
    (hlive : tables root w ⊆ live w.trace) (h : Step H root V SectionEntry w w') :
    tables root w' ⊆ live w'.trace := by
  cases h with
  | accessRoot => exact hlive
  | access v slot size h => exact hlive
  | flush fl => exact hlive
  | allocFail os h => exact hlive
  | store v slot size e h hV he =>
    obtain ⟨-, ⟨hh, rfl, hsize⟩ | ⟨hh, rfl, -⟩⟩ := find_cases h
    · have hsame := tables_store L.root_aligned (Or.inr (isHuge_iff.mp hh)) (he hsize)
      rw [hsame]
      exact hlive
    · have hsame : tables root (w.store (l2Slot (w.entry (l1Slot root v)) v) e) =
          tables root w := by
        refine tables_congr fun j p => ?_
        rw [World.store_entry, if_neg (L.l2_ne_l1 (fun _ he => he) (i := p1Index v) hh v j)]
      rw [hsame]
      exact hlive
  | mapSection v e h hV he =>
    have hsame := tables_store L.root_aligned (Or.inl (descriptorType_of_isUnused h)) he
    rw [hsame]
    exact hlive
  | attach v p os h ha hV =>
    rw [L.tables_attach hH ha (Or.inl (descriptorType_of_isUnused h))]
    exact Set.insert_subset_insert hlive

theorem Steps.tables_live (hH : FreshFrames H inUse) (L : Layout SectionEntry inUse root w)
    (hlive : tables root w ⊆ live w.trace) (h : Steps H root V SectionEntry w w') :
    tables root w' ⊆ live w'.trace := by
  induction h with
  | refl => exact hlive
  | tail hsteps hstep ih =>
    exact hstep.tables_live hH (Steps.layout hH (fun _ he => he) L hsteps) ih

/-- In every state of a run the tables are allocated. -/
theorem Reachable.tables_live (hH : FreshFrames H inUse) {self : PageTable32 B M A32PTE H}
    (h : Reachable self w) : tables self.rootPaddr w ⊆ live w.trace := by
  induction h with
  | @new w₀ w h =>
    have hentry := tryNew_entry hH h
    obtain ⟨os, -, -, rfl⟩ := tryNew_eq h
    rintro t (rfl | ⟨i, p, he, -⟩)
    · exact Or.inl rfl
    · rw [hentry] at he
      exact absurd he (SectionEntry.ne_newTable (Or.inl rfl) p)
  | @call w h c ih =>
    have hsteps : Steps H self.rootPaddr (fun _ => True) SectionEntry w (c.next self w) :=
      c.steps_sectionEntry self (c.eachPage_of_forall self fun _ _ => trivial)
    exact hsteps.tables_live hH (h.layout hH) ih

/-! ### Runs -/

/-- An operation does not take all access from a section above the first megabyte, nor creates one
without access. -/
def PageOp.KeepsAccess (root : PhysAddr) (w : World A32PTE σ) : PageOp → Prop
  | .map v target size f => f.isEmpty = true → size = .size1M →
    isUnused (w.entry (l1Slot root v)) = true → target.toNat < 0x100000
  | .remap v target f => f.isEmpty = true → isHuge (w.entry (l1Slot root v)) = true →
    target.toNat < 0x100000
  | .protect v f | .setFlags v f => f.isEmpty = true → isHuge (w.entry (l1Slot root v)) = true →
    (w.entry (l1Slot root v)).physAddr.toNat < 0x100000
  | .unmap _ => True

/-- A section without access in the first megabyte is an unused entry. -/
theorem plainEntry_newSection {p : PhysAddr} {f : MappingFlags 32}
    (h : f.isEmpty = true → p.toNat < 0x100000) : PlainEntry (newSection p f) := by
  cases hf : f.isEmpty with
  | false =>
    refine Or.inr (isHuge_iff.mpr ?_)
    rw [descriptorType_newSection, hf]
    rfl
  | true =>
    have hp : p &&& SECTION_ADDR_MASK = 0 := by
      apply BitVec.eq_of_toNat_eq
      rw [toNat_and_section, Nat.mod_eq_of_lt (h hf)]
      exact Nat.sub_self _
    refine Or.inl (beq_iff_eq.mpr ?_)
    rw [newSection, hp, DescriptorAttr.fromMappingFlagsSection, if_pos hf]
    rfl

theorem PageOp.stores_plainEntry {op : PageOp} (h : op.KeepsAccess root w) :
    op.Stores PlainEntry root w := by
  cases op with
  | map v target size f =>
    intro hsize hu
    refine plainEntry_newSection fun hf => ?_
    have := h hf hsize hu
    rw [PageSize.toNat_alignDown (by decide)]
    omega
  | remap v target f => exact fun hh => plainEntry_newSection fun hf => h hf hh
  | protect v f => exact fun hh => plainEntry_newSection fun hf => h hf hh
  | setFlags v f => exact fun hh => plainEntry_newSection fun hf => h hf hh
  | unmap v => exact Or.inl rfl

/-- Along a run that takes all access from no section the account stays right. -/
theorem nextAll_account {self : PageTable32 B M A32PTE H} (hH : FreshFrames H inUse)
    (cs : List Call)
    (hcs : Call.EachPageAll (fun op w => op.KeepsAccess self.rootPaddr w) self cs w)
    (L : Layout PlainEntry inUse self.rootPaddr w) (a : Account self.rootPaddr w) :
    Layout PlainEntry inUse self.rootPaddr (Call.nextAll self cs w) ∧
      Account self.rootPaddr (Call.nextAll self cs w) := by
  induction cs generalizing w with
  | nil => exact ⟨L, a⟩
  | cons c cs ih =>
    have hsteps : Steps H self.rootPaddr (fun _ => True) PlainEntry w (c.next self w) :=
      c.steps self (hcs.1.mono fun op w h => ⟨trivial, PageOp.stores_plainEntry h⟩)
    exact ih hcs.2 (hsteps.layout hH (fun _ he => he.sectionEntry) L) (hsteps.account hH L a)

/-! ### The drop -/

/-- The state after frames have been given back. -/
def World.release (w : World A32PTE σ) (t : Table) (os : σ) : World A32PTE σ :=
  { w with
    os := os
    trace := .free t :: w.trace }

theorem deallocFrame_eq (p : PhysAddr) (w : World A32PTE σ) :
    deallocFrame H p w = (.ok (), w.release ⟨p, 1⟩ (H.deallocFrame w.os p)) := rfl

theorem deallocFrames_eq (p : PhysAddr) (num : ℕ) (w : World A32PTE σ) :
    deallocFrames H p num w = (.ok (), w.release ⟨p, num⟩ (H.deallocFrames w.os p num)) := rfl

/-- What the drop does with one entry of the first level. -/
theorem drop_round (self : PageTable32 B M A32PTE H) (hb : self.borrowedEntries = fun _ => false)
    (i : Fin ENTRY_COUNT) (w : World A32PTE σ) :
    ((if self.borrowedEntries i then pure ()
      else do
        let entry : A32PTE ← readEntry ⟨self.root, i⟩
        if !isUnused entry && !isHuge entry then deallocFrame H (paddr entry) else pure () :
          Op (World A32PTE σ) Unit) w) =
      (.ok (), if isUnused (w.entry (l1At self.rootPaddr i)) = false ∧
          isHuge (w.entry (l1At self.rootPaddr i)) = false then
        (w.touch self.root).release ⟨paddr (w.entry (l1At self.rootPaddr i)), 1⟩
          (H.deallocFrame w.os (paddr (w.entry (l1At self.rootPaddr i))))
      else w.touch self.root) := by
  rw [hb, if_neg Bool.false_ne_true, Op.bind_ok (readEntry_eq _ _)]
  have hentry : w.entry ⟨self.root, i⟩ = w.entry (l1At self.rootPaddr i) := rfl
  rw [hentry]
  cases isUnused (w.entry (l1At self.rootPaddr i)) with
  | true => rfl
  | false =>
    cases isHuge (w.entry (l1At self.rootPaddr i)) with
    | true => rfl
    | false => rfl

/-- The tables that a list of indices of the first level leads to. -/
def tablesAt (root : PhysAddr) (w : World A32PTE σ) (is : List (Fin ENTRY_COUNT)) : Set Table :=
  {t | ∃ i ∈ is, isUnused (w.entry (l1At root i)) = false ∧
    isHuge (w.entry (l1At root i)) = false ∧ t = ⟨paddr (w.entry (l1At root i)), 1⟩}

/-- The loop of the drop over some indices frees the tables there, which are live before. -/
theorem drop_loop (self : PageTable32 B M A32PTE H) (hb : self.borrowedEntries = fun _ => false)
    (is : List (Fin ENTRY_COUNT)) (hnodup : is.Nodup) (L : Layout PlainEntry inUse self.rootPaddr w)
    {wk : World A32PTE σ} (hmem : wk.mem = w.mem) (hsafe : Safe wk.trace)
    (hroot : self.root ∈ live wk.trace) (hlive : tablesAt self.rootPaddr w is ⊆ live wk.trace) :
    ∃ wn tr, forEach is (fun i =>
        if self.borrowedEntries i then pure ()
        else do
          let entry : A32PTE ← readEntry ⟨self.root, i⟩
          if !isUnused entry && !isHuge entry then deallocFrame H (paddr entry) else pure ()) wk =
        (.ok (), wn) ∧ Safe wn.trace ∧
      live wn.trace = live wk.trace \ tablesAt self.rootPaddr w is ∧
      wn.trace = tr ++ wk.trace ∧ ∀ t, .alloc t ∉ tr := by
  induction is generalizing wk with
  | nil =>
    refine ⟨wk, [], rfl, hsafe, ?_, rfl, fun t => List.not_mem_nil⟩
    rw [show tablesAt self.rootPaddr w [] = ∅ by ext t; simp [tablesAt], Set.sdiff_empty]
  | cons i is ih =>
    obtain ⟨hi, hnodup⟩ := List.nodup_cons.mp hnodup
    have hentry : wk.entry (l1At self.rootPaddr i) = w.entry (l1At self.rootPaddr i) := by
      rw [World.entry, hmem]
      rfl
    rw [forEach, Op.bind_ok (drop_round self hb i wk), hentry]
    by_cases hlink : isUnused (w.entry (l1At self.rootPaddr i)) = false ∧
        isHuge (w.entry (l1At self.rootPaddr i)) = false
    · rw [if_pos hlink]
      obtain ⟨p, hp, hpa, -⟩ := L.link hlink.1 hlink.2
      have hpaddr : paddr (w.entry (l1At self.rootPaddr i)) = p := by
        rw [hp]
        exact physAddr_newTable hpa
      rw [hpaddr]
      have hhere : (⟨p, 1⟩ : Table) ∈ live wk.trace :=
        hlive ⟨i, List.mem_cons_self, hlink.1, hlink.2, by rw [hpaddr]⟩
      -- the table of another index is another one
      have hother : (⟨p, 1⟩ : Table) ∉ tablesAt self.rootPaddr w is := by
        rintro ⟨j, hj, hju, hjh, heq⟩
        obtain ⟨q, hq, hqa, -⟩ := L.link hju hjh
        have hqaddr : paddr (w.entry (l1At self.rootPaddr j)) = q := by
          rw [hq]
          exact physAddr_newTable hqa
        rw [hqaddr] at heq
        obtain rfl : p = q := congrArg Table.paddr heq
        exact hi (L.inj hp hq ▸ hj)
      have hmem' : ((wk.touch self.root).release ⟨p, 1⟩ (H.deallocFrame wk.os p)).mem = w.mem :=
        hmem
      have hrest : ∀ t ∈ tablesAt self.rootPaddr w is, t ∈ live wk.trace := by
        rintro t ⟨j, hj, htable⟩
        exact hlive ⟨j, List.mem_cons_of_mem _ hj, htable⟩
      obtain ⟨wn, tr, hrun, hsafe', hlive', htr, halloc⟩ := ih hnodup hmem' ⟨hhere, hroot, hsafe⟩
        ⟨hroot, fun h => absurd (congrArg Table.frames h) (by decide : L1_SIZE_PAGES ≠ 1)⟩
        (fun t ht => ⟨hrest t ht, fun h => hother (h ▸ ht)⟩)
      refine ⟨wn, tr ++ [.free ⟨p, 1⟩, .access self.root], hrun, hsafe', ?_, ?_, fun t ht => ?_⟩
      · rw [hlive']
        ext t
        constructor
        · rintro ⟨⟨ht, hne⟩, hnot⟩
          refine ⟨ht, ?_⟩
          rintro ⟨j, hj, hju, hjh, rfl⟩
          obtain rfl | hj := List.mem_cons.mp hj
          · exact hne (by rw [hpaddr]; rfl)
          · exact hnot ⟨j, hj, hju, hjh, rfl⟩
        · rintro ⟨ht, hnot⟩
          constructor
          · refine ⟨ht, fun h => hnot ?_⟩
            exact ⟨i, List.mem_cons_self, hlink.1, hlink.2, by rw [hpaddr]; exact h⟩
          · rintro ⟨j, hj, hrest⟩
            exact hnot ⟨j, List.mem_cons_of_mem _ hj, hrest⟩
      · rw [htr, List.append_assoc]
        rfl
      · obtain ht | ht := List.mem_append.mp ht
        · exact halloc t ht
        · simp at ht
    · rw [if_neg hlink]
      have hsame : tablesAt self.rootPaddr w (i :: is) = tablesAt self.rootPaddr w is := by
        ext t
        constructor
        · rintro ⟨j, hj, hju, hjh, ht⟩
          obtain rfl | hj := List.mem_cons.mp hj
          · exact absurd ⟨hju, hjh⟩ hlink
          · exact ⟨j, hj, hju, hjh, ht⟩
        · rintro ⟨j, hj, hrest⟩
          exact ⟨j, List.mem_cons_of_mem _ hj, hrest⟩
      rw [hsame] at hlive ⊢
      have hmem' : (wk.touch self.root).mem = w.mem := hmem
      obtain ⟨wn, tr, hrun, hsafe', hlive', htr, halloc⟩ :=
        ih hnodup hmem' ⟨hroot, hsafe⟩ hroot hlive
      refine ⟨wn, tr ++ [.access self.root], hrun, hsafe', hlive', ?_, fun t ht => ?_⟩
      · rw [htr, List.append_assoc]
        rfl
      · obtain ht | ht := List.mem_append.mp ht
        · exact halloc t ht
        · simp at ht

/-- Dropping a table whose account is right gives every frame back once, and no table is accessed
after its frame has been given back. -/
theorem drop_account {self : PageTable32 B M A32PTE H}
    (hb : self.borrowedEntries = fun _ => false) (L : Layout PlainEntry inUse self.rootPaddr w)
    (a : Account self.rootPaddr w) :
    (self.drop w).1 = .ok () ∧
      (∀ t, (self.drop w).2.trace.count (.free t) =
        if .alloc t ∈ (self.drop w).2.trace then 1 else 0) ∧
      ∀ t before, .access t :: before <:+ (self.drop w).2.trace →
        .alloc t ∈ before ∧ .free t ∉ before := by
  have htables : tables self.rootPaddr w =
      insert self.root (tablesAt self.rootPaddr w entryIndices) := by
    ext t
    constructor
    · rintro (rfl | ⟨i, p, he, hp, rfl⟩)
      · exact Or.inl rfl
      · have hpaddr : paddr (newTable p : A32PTE) = p := physAddr_newTable hp
        refine Or.inr ⟨i, mem_entryIndices i, ?_, ?_, ?_⟩
        · rw [he]
          exact isUnused_newTable p
        · rw [he]
          exact isHuge_newTable p
        · rw [he, hpaddr]
    · rintro (rfl | ⟨i, -, hu, hh, rfl⟩)
      · exact root_mem_tables
      · exact L.paddr_mem_tables hu hh
  -- the loop frees the second level, and the root comes last
  obtain ⟨wn, tr, hrun, hsafe, hlive, htr, halloc⟩ :=
    drop_loop self hb entryIndices nodup_entryIndices L
    rfl a.safe (a.live ▸ root_mem_tables)
    (by rw [a.live, htables]; exact Set.subset_insert _ _)
  have hrootLive : self.root ∈ live wn.trace := by
    rw [hlive, a.live]
    refine ⟨root_mem_tables, ?_⟩
    rintro ⟨i, -, -, -, heq⟩
    exact absurd (congrArg Table.frames heq) (by decide : L1_SIZE_PAGES ≠ 1)
  have hdrop : self.drop w =
      (.ok (), wn.release ⟨self.rootPaddr, 4⟩ (H.deallocFrames wn.os self.rootPaddr 4)) := by
    rw [PageTable32.drop, Op.bind_ok hrun, deallocFrames_eq]
  rw [hdrop]
  have hsafe' : Safe (.free (⟨self.rootPaddr, 4⟩ : Table) :: wn.trace) := ⟨hrootLive, hsafe⟩
  refine ⟨rfl, hsafe'.returned ?_ fun t => ?_⟩
  · -- nothing is left
    rw [live_free, hlive, a.live, htables]
    ext t
    simp only [Set.mem_sdiff, Set.mem_insert_iff, Set.mem_singleton_iff, Set.mem_empty_iff_false,
      iff_false]
    rintro ⟨⟨rfl | ht, hnot⟩, hne⟩
    · exact hne rfl
    · exact hnot ht
  · rw [htr, List.count_cons_of_ne (by simp), List.count_append,
      List.count_eq_zero.mpr (halloc t), Nat.zero_add]
    exact a.safe.count_alloc_le a.no_free t

/-- After any run of calls that takes all access from no section above the first megabyte, dropping
the table frees each block of frames obtained exactly once, with the number of frames it was
obtained with, and nothing else, and at no time was a table accessed that had not been obtained or
had been freed. -/
theorem frames_returned (hH : FreshFrames H inUse) {self : PageTable32 B M A32PTE H}
    {w₀ : World A32PTE σ} (h₀ : w₀.trace = [])
    (hnew : PageTable32.tryNew B M A32PTE H w₀ = (.ok self, w)) (cs : List Call)
    (hcs : Call.EachPageAll (fun op w => op.KeepsAccess self.rootPaddr w) self cs w) :
    (self.drop (Call.nextAll self cs w)).1 = .ok () ∧
      (∀ t, (self.drop (Call.nextAll self cs w)).2.trace.count (.free t) =
        if .alloc t ∈ (self.drop (Call.nextAll self cs w)).2.trace then 1 else 0) ∧
      ∀ t before, .access t :: before <:+ (self.drop (Call.nextAll self cs w)).2.trace →
        .alloc t ∈ before ∧ .free t ∉ before := by
  obtain ⟨L, a⟩ := nextAll_account hH cs hcs (tryNew_layout hH (Or.inl rfl) hnew)
    (tryNew_account hH h₀ hnew)
  obtain ⟨os, -, hb, -⟩ := tryNew_eq hnew
  exact drop_account hb L a

/-- A run with a section, a small page and a second table that cannot be allocated, followed by the
drop. -/
theorem frames_returned_run :
    ((firstTable ⟨true, true⟩ 8).drop (Call.nextAll (firstTable ⟨true, true⟩ 8)
        [.map 0 0x40000000 .size1M .READ, .map 0x100000 0x5000 .size4K .empty,
          .map 0x200000 0x6000 .size4K .READ] firstWorld)).1 = .ok () ∧
      (∀ t, ((firstTable ⟨true, true⟩ 8).drop (Call.nextAll (firstTable ⟨true, true⟩ 8)
          [.map 0 0x40000000 .size1M .READ, .map 0x100000 0x5000 .size4K .empty,
            .map 0x200000 0x6000 .size4K .READ] firstWorld)).2.trace.count (.free t) =
        if .alloc t ∈ ((firstTable ⟨true, true⟩ 8).drop (Call.nextAll (firstTable ⟨true, true⟩ 8)
          [.map 0 0x40000000 .size1M .READ, .map 0x100000 0x5000 .size4K .empty,
            .map 0x200000 0x6000 .size4K .READ] firstWorld)).2.trace then 1 else 0) ∧
      ∀ t before, .access t :: before <:+ ((firstTable ⟨true, true⟩ 8).drop (Call.nextAll
          (firstTable ⟨true, true⟩ 8) [.map 0 0x40000000 .size1M .READ,
            .map 0x100000 0x5000 .size4K .empty, .map 0x200000 0x6000 .size4K .READ]
          firstWorld)).2.trace →
        .alloc t ∈ before ∧ .free t ∉ before :=
  frames_returned (freshFrames_bumpHandler (by decide)) (rfl : blankWorld.trace = [])
    (tryNew_blankWorld 1) _ (by simp [Call.EachPageAll, Call.EachPage, PageOp.KeepsAccess]; decide)

/-- A section above the first megabyte without access is taken for a table at address zero, which
`query` reads although it was never allocated. -/
theorem section_taken_for_table :
    PageTable32.tryNew ⟨true, true⟩ A32PagingMetaData A32PTE (bumpHandler 16) blankWorld =
        (.ok (firstTable ⟨true, true⟩ 16), firstWorld) ∧
      .access ⟨0, 1⟩ ∈ (Call.nextAll (firstTable ⟨true, true⟩ 16)
        [.map 0 0x100000 .size1M .empty, .query 0] firstWorld).trace ∧
      .alloc ⟨0, 1⟩ ∉ (Call.nextAll (firstTable ⟨true, true⟩ 16)
        [.map 0 0x100000 .size1M .empty, .query 0] firstWorld).trace :=
  ⟨tryNew_blankWorld 9, by decide +kernel, by decide +kernel⟩

end PageTableMultiarch.Bits32
