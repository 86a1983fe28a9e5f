/-
`copy_from` in a system of page tables.

The loop handles each index of a range once: it frees the table under the entry of the destination,
unless that entry is borrowed, and overwrites the entry with the one of the source.

* `copyFrom_apply` — the call as that loop;
* `LedgerInv.copy_eq` — what it frees and stores;
* `LedgerInv.copy` — the ledger afterwards, if no other table points to what is freed.
-/
import PageTableMultiarch.Table32.SystemOps

namespace PageTableMultiarch.Bits32

open GenericPTE A32PTE MemEvent

variable {B : Build} {M : PagingMetaData} {σ : Type} {H : PagingHandler 32 σ}
  {inUse : σ → Set ℕ} {s : System B M H} {L : Ledger} {dst src : ℕ}
  {d r : PageTable32 B M A32PTE H}

/-- One round of `copy_from`. -/
def copyEntry (self other : PageTable32 B M A32PTE H) (i : Fin ENTRY_COUNT) :
    Op (World A32PTE σ) Unit := do
  if self.borrowedEntries i then pure ()
  else do
    let entry : A32PTE ← readEntry ⟨self.root, i⟩
    if !isUnused entry && !isHuge entry then deallocFrame H (paddr entry) else pure ()
  let value : A32PTE ← readEntry ⟨other.root, i⟩
  writeEntry ⟨self.root, i⟩ value

/-- It frees the table under the entry first. -/
theorem copyEntry_eq (self other : PageTable32 B M A32PTE H) (i : Fin ENTRY_COUNT)
    (w : World A32PTE σ) : copyEntry self other i w = (self.freeEntry i >>= fun _ =>
      readEntry ⟨other.root, i⟩ >>= fun value : A32PTE => writeEntry ⟨self.root, i⟩ value) w := by
  rw [copyEntry, PageTable32.freeEntry]
  cases self.borrowedEntries i with
  | true => rfl
  | false =>
    rw [if_neg Bool.false_ne_true, if_neg Bool.false_ne_true, Op.bind_ok (readEntry_eq _ _)]
    cases hl : !isUnused (w.entry ⟨self.root, i⟩) && !isHuge (w.entry ⟨self.root, i⟩) with
    | true =>
      have hfree : (readEntry ⟨self.root, i⟩ >>= fun entry : A32PTE =>
          if (!isUnused entry && !isHuge entry) = true then deallocFrame H (paddr entry)
          else pure ()) w =
          deallocFrame H (paddr (w.entry ⟨self.root, i⟩)) (w.touch self.root) := by
        rw [Op.bind_ok (readEntry_eq _ _), if_pos hl]
      rw [if_pos rfl, Op.bind_ok (hfree.trans (deallocFrame_eq _ _))]
      rfl
    | false =>
      have hskip : (readEntry ⟨self.root, i⟩ >>= fun entry : A32PTE =>
          if (!isUnused entry && !isHuge entry) = true then deallocFrame H (paddr entry)
          else pure ()) w = (.ok (), w.touch self.root) := by
        rw [Op.bind_ok (readEntry_eq _ _), if_neg (by rw [hl]; exact Bool.false_ne_true)]
        rfl
      rw [if_neg Bool.false_ne_true, Op.bind_ok hskip]

/-- The table with more borrowed entries. -/
def PageTable32.borrow (self : PageTable32 B M A32PTE H) (b : Fin ENTRY_COUNT → Bool) :
    PageTable32 B M A32PTE H :=
  { self with borrowedEntries := fun i => self.borrowedEntries i || b i }

theorem borrow_borrowedEntries (self : PageTable32 B M A32PTE H) (b : Fin ENTRY_COUNT → Bool)
    (i : Fin ENTRY_COUNT) :
    (self.borrow b).borrowedEntries i = (self.borrowedEntries i || b i) := rfl

/-- The state with other pending flushes. -/
def World.withFlusher (w : World A32PTE σ) (flusher : TlbFlusher 32) : World A32PTE σ :=
  { w with flusher := flusher }

/-- A call of `copy_from` panics at once, because the range wraps around, or it handles the indices
of its range; only if it handles none may it leave the pending flushes as they are. -/
theorem copyFrom_apply (self other : PageTable32 B M A32PTE H) (start : VirtAddr) (size : Usize)
    (w : World A32PTE σ) :
    (∀ i, copyRange B start size i = false) ∧ self.copyFrom other start size w = (.panic, w) ∨
      ∃ fl : World A32PTE σ → TlbFlusher 32,
        ((∀ i, copyRange B start size i = false) ∧ (∀ w, fl w = w.flusher) ∨ ∀ w, fl w = .full) ∧
        self.copyFrom other start size w =
          (forEach (entryIndices.filter (copyRange B start size)) (copyEntry self other) >>=
            fun _ => Op.modify (fun w => w.withFlusher (fl w)) >>= fun _ =>
              pure (self.borrow (copyRange B start size))) w := by
  by_cases h0 : size = 0
  · -- nothing is done
    have hnone : copyRange B start size = fun _ => false := by
      funext i
      rw [copyRange, decide_eq_false (not_not.mpr h0), Bool.false_and, Bool.false_and]
    refine Or.inr ⟨World.flusher, Or.inl ⟨congrFun hnone, fun _ => rfl⟩, ?_⟩
    have hself : self.borrow (fun _ => false) = self := by
      have hb : (fun i => self.borrowedEntries i || false) = self.borrowedEntries := by
        funext i
        exact Bool.or_false _
      rw [PageTable32.borrow, hb]
    rw [PageTable32.copyFrom, if_pos h0, hnone, List.filter_false, hself]
    rfl
  have hsize : size.toNat ≠ 0 := fun hc => h0 (BitVec.eq_of_toNat_eq hc)
  cases hover : B.overflowChecks && decide (2 ^ 32 ≤ start.toNat + size.toNat) with
  | true =>
    refine Or.inl ⟨fun i => ?_, ?_⟩
    · rw [copyRange, hover, Bool.not_true, Bool.and_false, Bool.false_and]
    · rw [PageTable32.copyFrom, if_neg h0, checkedAdd, if_pos hover]
      rfl
  | false =>
    have hstart := (p1Index start).isLt
    have hlast := (p1Index (start + size - 1)).isLt
    have hrange : copyRange B start size = fun i => decide ((p1Index start).val ≤ i.val ∧
        i.val < (p1Index (start + size - 1)).val + 1) := by
      funext i
      rw [copyRange, hover, decide_eq_true h0, Bool.not_false, Bool.true_and, Bool.true_and]
    have hunder : (B.overflowChecks && decide ((start + size).toNat < (1 : Usize).toNat)) ≠
        true := by
      intro h
      rw [Bool.and_eq_true, decide_eq_true_eq] at h
      rw [h.1, Bool.true_and, decide_eq_false_iff_not] at hover
      -- the sum is zero
      obtain ⟨-, hsum⟩ := h
      have hone : (1 : Usize).toNat = 1 := rfl
      rw [BitVec.toNat_add, Nat.mod_eq_of_lt (by omega), hone] at hsum
      omega
    refine Or.inr ⟨fun _ => .full, Or.inr fun _ => rfl, ?_⟩
    rw [PageTable32.copyFrom, if_neg h0, checkedAdd, if_neg (by rw [hover]; simp),
      Op.bind_ok (Op.pure_apply _ _), checkedSub, if_neg hunder, Op.bind_ok (Op.pure_apply _ _),
      Op.assert, decide_eq_true hstart, if_pos rfl, Op.bind_ok (Op.pure_apply _ _), Op.assert,
      decide_eq_true (by omega), if_pos rfl, Op.bind_ok (Op.pure_apply _ _), hrange]
    rfl

/-- Entries of one first level have been copied to another, and nothing else has been written. -/
structure Copied (d r : PageTable32 B M A32PTE H) (among : Set (Fin ENTRY_COUNT))
    (w w' : World A32PTE σ) : Prop where
  inside {i : Fin ENTRY_COUNT} : i ∈ among →
    w'.entry (l1At d.rootPaddr i) = w.entry (l1At r.rootPaddr i)
  outside {slot : Slot} : (∀ i ∈ among, slot.addr ≠ (l1At d.rootPaddr i).addr) →
    w'.entry slot = w.entry slot

/-- One entry more. -/
theorem Copied.round (hH : FreshBlocks H inUse) (I : LedgerInv inUse s L) (hne : dst ≠ src)
    (hd : s.tables dst = some d) (hr : s.tables src = some r) {among : Set (Fin ENTRY_COUNT)}
    {w : World A32PTE σ} (C : Copied d r among s.world w) (R : Released inUse s L dst among w)
    {i : Fin ENTRY_COUNT} (hi : i ∉ among) : ∃ w', copyEntry d r i w = (.ok (), w') ∧
      Copied d r (insert i among) s.world w' ∧ Released inUse s L dst (insert i among) w' := by
  have halign := I.root_aligned hd
  have hself : ∀ j ∈ among, (l1At d.rootPaddr i).addr ≠ (l1At d.rootPaddr j).addr :=
    fun j hj heq => hi (l1At_inj halign heq ▸ hj)
  have hother : ∀ j ∈ among, (l1At r.rootPaddr i).addr ≠ (l1At d.rootPaddr j).addr :=
    fun j _ => I.l1_ne hd hr hne.symm i j
  obtain ⟨w₁, hrun, hmem, R₁⟩ := R.freeEntry hH I hd hi (C.outside hself)
  have hentry : ∀ slot, w₁.entry slot = w.entry slot := fun slot => congrFun hmem slot.addr
  have hread : w₁.entry (l1At r.rootPaddr i) = s.world.entry (l1At r.rootPaddr i) :=
    (hentry _).trans (C.outside hother)
  refine ⟨(w₁.touch r.root).store (l1At d.rootPaddr i) (w₁.entry (l1At r.rootPaddr i)), ?_,
    ⟨?_, fun {slot} hslot => ?_⟩, ?_⟩
  · rw [copyEntry_eq, Op.bind_ok hrun, Op.bind_ok (readEntry_eq _ _)]
    rfl
  · rintro j (rfl | hj)
    · rw [World.store_entry, if_pos rfl, hread]
    · rw [World.store_entry, if_neg (hself j hj).symm, World.touch_entry, hentry]
      exact C.inside hj
  · rw [World.store_entry, if_neg (hslot i (Or.inl rfl)), World.touch_entry, hentry]
    exact C.outside fun j hj => hslot j (Or.inr hj)
  · refine (R₁.access (R₁.root_live I hr)).store ?_ _
    exact R₁.root_live I hd

/-- All entries of a list, none of which has been handled before. -/
theorem Copied.rounds (hH : FreshBlocks H inUse) (I : LedgerInv inUse s L) (hne : dst ≠ src)
    (hd : s.tables dst = some d) (hr : s.tables src = some r) {is : List (Fin ENTRY_COUNT)}
    (hnodup : is.Nodup) {among : Set (Fin ENTRY_COUNT)} {w : World A32PTE σ}
    (C : Copied d r among s.world w) (R : Released inUse s L dst among w)
    (hdisj : ∀ i ∈ is, i ∉ among) : ∃ w', forEach is (copyEntry d r) w = (.ok (), w') ∧
      Copied d r (among ∪ {i | i ∈ is}) s.world w' ∧
      Released inUse s L dst (among ∪ {i | i ∈ is}) w' := by
  induction is generalizing among w with
  | nil =>
    refine ⟨w, rfl, ?_⟩
    have hnone : {i : Fin ENTRY_COUNT | i ∈ []} = ∅ := by simp
    rw [hnone, Set.union_empty]
    exact ⟨C, R⟩
  | cons i is ih =>
    obtain ⟨hi, hnodup⟩ := List.nodup_cons.mp hnodup
    obtain ⟨w₁, hrun, C₁, R₁⟩ := C.round hH I hne hd hr R (hdisj i List.mem_cons_self)
    obtain ⟨w', hrun', hrest⟩ := ih hnodup C₁ R₁ fun j hj => by
      rintro (rfl | hmem)
      · exact hi hj
      · exact hdisj j (List.mem_cons_of_mem _ hj) hmem
    refine ⟨w', by rw [forEach, Op.bind_ok hrun, hrun'], ?_⟩
    have hset : among ∪ {j | j ∈ i :: is} = insert i among ∪ {j | j ∈ is} := by
      ext j
      simp only [Set.mem_union, Set.mem_ofPred_eq, List.mem_cons, Set.mem_insert_iff]
      tauto
    rw [hset]
    exact hrest

/-- The entries that are copied. -/
def copySet (B : Build) (start : VirtAddr) (size : Usize) : Set (Fin ENTRY_COUNT) :=
  {i | copyRange B start size i = true}

/-- What `copy_from` does: it frees the tables that the destination owns under the entries, and
copies the entries, unless it panics at once. -/
theorem LedgerInv.copy_eq (hH : FreshBlocks H inUse) (I : LedgerInv inUse s L) (hne : dst ≠ src)
    (hd : s.tables dst = some d) (hr : s.tables src = some r) (start : VirtAddr) (size : Usize) :
    copySet B start size = ∅ ∧ d.copyFrom r start size s.world = (.panic, s.world) ∨
      ∃ w, d.copyFrom r start size s.world = (.ok (d.borrow (copyRange B start size)), w) ∧
        (copySet B start size = ∅ ∧ w.flusher = s.world.flusher ∨ w.flusher = .full) ∧
        Copied d r (copySet B start size) s.world w ∧
        Released inUse s L dst (copySet B start size) w := by
  obtain ⟨hnone, heq⟩ | ⟨fl, hfl, heq⟩ := copyFrom_apply d r start size s.world
  · refine Or.inl ⟨Set.eq_empty_of_forall_notMem fun i hi => ?_, heq⟩
    rw [copySet, Set.mem_ofPred_eq, hnone i] at hi
    cases hi
  · right
    have hset : (∅ : Set (Fin ENTRY_COUNT)) ∪
        {i | i ∈ entryIndices.filter (copyRange B start size)} = copySet B start size := by
      ext i
      simp [mem_entryIndices, copySet]
    have C₀ : Copied d r ∅ s.world s.world := ⟨fun hi => hi.elim, fun _ => rfl⟩
    obtain ⟨w, hrun, C, R⟩ := C₀.rounds hH I hne hd hr
      (nodup_entryIndices.filter (copyRange B start size)) (I.released dst)
      fun i _ => Set.notMem_empty i
    rw [hset] at C R
    rw [Op.bind_ok hrun] at heq
    refine ⟨w.withFlusher (fl w), heq, ?_, ⟨C.inside, C.outside⟩, ⟨R.safe, R.live, R.inUse⟩⟩
    obtain ⟨hnone, hkeep⟩ | hfull := hfl
    · have hempty : copySet B start size = ∅ := Set.eq_empty_of_forall_notMem fun i hi => by
        rw [copySet, Set.mem_ofPred_eq, hnone i] at hi
        cases hi
      have hlist : entryIndices.filter (copyRange B start size) = [] :=
        List.filter_eq_nil_iff.mpr fun i _ => by rw [hnone i]; exact Bool.false_ne_true
      rw [hlist] at hrun
      obtain ⟨-, rfl⟩ := Prod.mk.inj hrun
      exact Or.inl ⟨hempty, hkeep _⟩
    · exact Or.inr (hfull w)

/-! ### The ledger after a copy -/

theorem System.exec_copy_panic (hd : s.tables dst = some d) (hr : s.tables src = some r)
    {start : VirtAddr} {size : Usize} {w : World A32PTE σ}
    (h : d.copyFrom r start size s.world = (.panic, w)) :
    s.exec (.copy dst src start size) = s.withWorld w := by
  rw [System.exec, hd, hr]
  dsimp only
  rw [h]
  rfl

theorem System.exec_copy_ok (hd : s.tables dst = some d) (hr : s.tables src = some r)
    {start : VirtAddr} {size : Usize} {table : PageTable32 B M A32PTE H} {w : World A32PTE σ}
    (h : d.copyFrom r start size s.world = (.ok table, w)) :
    s.exec (.copy dst src start size) =
      ⟨w, Function.update s.tables dst (some table), s.next⟩ := by
  rw [System.exec, hd, hr]
  dsimp only
  rw [h]

/-- The first levels after a copy. -/
theorem Copied.entry (I : LedgerInv inUse s L) (hd : s.tables dst = some d)
    {among : Set (Fin ENTRY_COUNT)} {w : World A32PTE σ} (C : Copied d r among s.world w)
    {t : ℕ} {y : PageTable32 B M A32PTE H} (hy : s.tables t = some y) {i : Fin ENTRY_COUNT}
    (h : t ≠ dst ∨ i ∉ among) :
    w.entry (l1At y.rootPaddr i) = s.world.entry (l1At y.rootPaddr i) := by
  refine C.outside fun j hj heq => ?_
  by_cases ht : t = dst
  · subst ht
    obtain rfl := Option.some_inj.mp (hd.symm.trans hy)
    exact h.elim (fun h => h rfl) fun h => h (l1At_inj (I.root_aligned hd) heq ▸ hj)
  · exact I.l1_ne hd hy ht i j heq

theorem LedgerInv.copy (hH : FreshBlocks H inUse) (I : LedgerInv inUse s L) (hne : dst ≠ src)
    {start : VirtAddr} {size : Usize} (hc : s.Careful (.copy dst src start size))
    (hd : s.tables dst = some d) (hr : s.tables src = some r) :
    LedgerInv inUse (s.exec (.copy dst src start size)) (L.without dst (copySet B start size)) := by
  have hspares := hc d hd (by rw [hr]; rfl)
  obtain ⟨hempty, heq⟩ | ⟨w, heq, -, C, R⟩ := I.copy_eq hH hne hd hr start size
  · have hnone : L.without dst (copySet B start size) = L := by
      have howned : L.ownedAt dst ∅ = ∅ := Set.eq_empty_of_forall_notMem fun p hp => hp.2.2
      rw [hempty, Ledger.without, howned, Set.sdiff_empty]
    rw [System.exec_copy_panic hd hr heq, hnone]
    exact I
  rw [System.exec_copy_ok hd hr heq]
  -- what another table points to is kept
  have hkept : ∀ {t y}, t ≠ dst → s.tables t = some y → ∀ {p},
      s.world.entry (l1At y.rootPaddr (L.index p)) = newTable p →
        p ∉ L.ownedAt dst (copySet B start size) := by
    intro t y ht hy p he
    exact I.not_ownedAt hd hspares (fun _ hi => hi) hy ht he
  -- the tables are the old ones, apart from what `dst` has borrowed
  have hcases : ∀ {t y},
      Function.update s.tables dst (some (d.borrow (copyRange B start size))) t = some y →
        t = dst ∧ y = d.borrow (copyRange B start size) ∨ t ≠ dst ∧ s.tables t = some y := by
    intro t y hy
    by_cases ht : t = dst
    · rw [ht, Function.update_self, Option.some_inj] at hy
      exact Or.inl ⟨ht, hy.symm⟩
    · rw [Function.update_of_ne ht] at hy
      exact Or.inr ⟨ht, hy⟩
  have hold : ∀ {t y},
      Function.update s.tables dst (some (d.borrow (copyRange B start size))) t = some y →
        ∃ y₀, s.tables t = some y₀ ∧ y.rootPaddr = y₀.rootPaddr := by
    intro t y hy
    obtain ⟨rfl, rfl⟩ | ⟨-, hy⟩ := hcases hy
    · exact ⟨d, hd, rfl⟩
    · exact ⟨y, hy, rfl⟩
  have hin : ∀ n ∈ inUse s.world.os, (∀ p ∈ L.subs, p ∈ L.ownedAt dst (copySet B start size) →
      n ≠ frameOf p) → n ∈ inUse w.os := fun n hn hne => R.inUse n hn fun p hp => hne p hp.1 hp
  refine ⟨R.safe, ?_, fun hy => ?_, fun hy => ?_, fun hy n hn => ?_, fun hy hz h => ?_,
    fun hp => I.sub_aligned hp.1, fun hp => I.sub_ne_zero hp.1, fun hp => ?_, fun hy hp => ?_,
    fun hy i => ?_, fun hp ht => ?_, fun hy => ?_⟩
  · rw [R.live, I.live]
    ext b
    constructor
    · rintro ⟨⟨t, y, hy, rfl⟩ | ⟨p, hp, rfl⟩, hnot⟩
      · left
        by_cases ht : t = dst
        · subst ht
          obtain rfl := Option.some_inj.mp (hd.symm.trans hy)
          exact ⟨t, _, Function.update_self _ _ _, rfl⟩
        · exact ⟨t, y, (Function.update_of_ne ht _ _).trans hy, rfl⟩
      · exact Or.inr ⟨p, ⟨hp, fun ho => hnot ⟨p, ho, rfl⟩⟩, rfl⟩
    · rintro (⟨t, y, hy, rfl⟩ | ⟨p, ⟨hp, hno⟩, rfl⟩)
      · obtain ⟨y₀, hy₀, hroot⟩ := hold hy
        refine ⟨Or.inl ⟨t, y₀, hy₀, ?_⟩, ?_⟩
        · rw [PageTable32.root, PageTable32.root, hroot]
        · rintro ⟨p, -, heq⟩
          exact absurd (congrArg Table.frames heq) (by decide : 1 ≠ L1_SIZE_PAGES)
      · refine ⟨Or.inr ⟨p, hp, rfl⟩, ?_⟩
        rintro ⟨q, hq, heq⟩
        obtain rfl : q = p := congrArg Table.paddr heq
        exact hno hq
  · obtain ⟨y₀, hy₀, hroot⟩ := hold hy
    rw [hroot]
    exact I.root_aligned hy₀
  · obtain ⟨y₀, hy₀, hroot⟩ := hold hy
    rw [hroot]
    exact I.root_ne_zero hy₀
  · obtain ⟨y₀, hy₀, hroot⟩ := hold hy
    rw [hroot] at hn
    refine hin n (I.root_inUse hy₀ n hn) fun p hp _ heq => ?_
    exact I.sub_apart hy₀ hp (heq ▸ hn)
  · obtain ⟨y₀, hy₀, hroot⟩ := hold hy
    obtain ⟨z₀, hz₀, hroot'⟩ := hold hz
    exact I.root_inj hy₀ hz₀ (hroot.symm.trans (h.trans hroot'))
  · refine hin _ (I.sub_inUse hp.1) fun q hq ho heq => hp.2 ?_
    rwa [I.sub_inj hp.1 hq heq]
  · obtain ⟨y₀, hy₀, hroot⟩ := hold hy
    rw [hroot]
    exact I.sub_apart hy₀ hp.1
  · obtain ⟨rfl, rfl⟩ | ⟨ht, hy⟩ := hcases hy
    · by_cases hi : i ∈ copySet B start size
      · -- a copied entry is borrowed
        have hentry : w.entry (l1At (d.borrow (copyRange B start size)).rootPaddr i) =
            s.world.entry (l1At r.rootPaddr i) := C.inside hi
        have hb : (d.borrow (copyRange B start size)).borrowedEntries i = true := by
          have hi' : copyRange B start size i = true := hi
          rw [borrow_borrowedEntries, hi', Bool.or_true]
        rw [hentry]
        obtain hplain | ⟨p, hp, he, rfl, -⟩ := I.entry hr i
        · exact Or.inl hplain
        · have hno := hkept hne.symm hr he
          refine Or.inr ⟨p, ⟨hp, hno⟩, he, rfl, ?_⟩
          rw [hb]
          exact iff_of_false Bool.noConfusion fun ho => hno ⟨hp, ho, hi⟩
      · have hentry := C.entry I hd hd (Or.inr hi)
        have hi' : copyRange B start size i = false := Bool.eq_false_iff.mpr hi
        have hroot : (d.borrow (copyRange B start size)).rootPaddr = d.rootPaddr := rfl
        have hb : (d.borrow (copyRange B start size)).borrowedEntries i = d.borrowedEntries i := by
          rw [borrow_borrowedEntries, hi', Bool.or_false]
        rw [hroot, hentry, hb]
        obtain hplain | ⟨p, hp, he, rfl, hown⟩ := I.entry hd i
        · exact Or.inl hplain
        · exact Or.inr ⟨p, ⟨hp, fun ho => hi ho.2.2⟩, he, rfl, hown⟩
    · have hentry := C.entry I hd hy (i := i) (Or.inl ht)
      rw [hentry]
      obtain hplain | ⟨p, hp, he, rfl, hown⟩ := I.entry hy i
      · exact Or.inl hplain
      · exact Or.inr ⟨p, ⟨hp, hkept ht hy he⟩, he, rfl, hown⟩
  · rename_i t p
    obtain ⟨y, hy, hb, he⟩ := I.owner hp.1 ht
    by_cases hdst : t = dst
    · subst hdst
      obtain rfl := Option.some_inj.mp (hd.symm.trans hy)
      have hi : L.index p ∉ copySet B start size := fun hi => hp.2 ⟨hp.1, ht, hi⟩
      have hi' : copyRange B start size (L.index p) = false := Bool.eq_false_iff.mpr hi
      refine ⟨_, Function.update_self _ _ _, ?_, ?_⟩
      · have hsame := borrow_borrowedEntries d (copyRange B start size) (L.index p)
        rw [hi', Bool.or_false] at hsame
        exact hsame.trans hb
      · exact (C.entry I hd hd (Or.inr hi)).trans he
    · exact ⟨y, (Function.update_of_ne hdst _ _).trans hy, hb,
        (C.entry I hd hy (Or.inl hdst)).trans he⟩
  · obtain ⟨y₀, hy₀, -⟩ := hold hy
    exact I.lt_next hy₀

/-- What the destination points to is its own, or it was lent to it before, or it belongs to the
source, or it was lent to the source. -/
theorem LedgerInv.copy_lent (hH : FreshBlocks H inUse) (I : LedgerInv inUse s L) (hne : dst ≠ src)
    {start : VirtAddr} {size : Usize} (hd : s.tables dst = some d) (hr : s.tables src = some r)
    {R : List (ℕ × ℕ)} (hR : s.Lent L R) :
    (s.exec (.copy dst src start size)).Lent (L.without dst (copySet B start size))
      (SystemCall.lend R (.copy dst src start size)) := by
  have hold : ∀ {b}, b ∈ R → b ∈ SystemCall.lend R (.copy dst src start size) := fun hb =>
    List.mem_append_right _ hb
  obtain ⟨-, heq⟩ | ⟨w, heq, -, C, R'⟩ := I.copy_eq hH hne hd hr start size
  · rw [System.exec_copy_panic hd hr heq]
    intro t y i p z hy hp hz he hzt
    exact hold (hR t y i p z hy hp.1 hz he hzt)
  · rw [System.exec_copy_ok hd hr heq]
    intro t y i p z hy hp hz he hzt
    dsimp only at hy he
    by_cases ht : t = dst
    · subst ht
      rw [Function.update_self, Option.some_inj] at hy
      subst hy
      by_cases hi : i ∈ copySet B start size
      · -- the entry of the source
        have he' : s.world.entry (l1At r.rootPaddr i) = newTable p := (C.inside hi).symm.trans he
        by_cases hzs : z = src
        · rw [hzs]
          exact List.mem_append_left _ List.mem_cons_self
        · have hlent := hR src r i p z hr hp.1 hz he' hzs
          refine List.mem_append_left _ (List.mem_cons_of_mem _ (List.mem_map.mpr ?_))
          exact ⟨(src, z), List.mem_filter.mpr ⟨hlent, decide_eq_true rfl⟩, rfl⟩
      · have he' : s.world.entry (l1At d.rootPaddr i) = newTable p :=
          (C.entry I hd hd (Or.inr hi)).symm.trans he
        exact hold (hR t d i p z hd hp.1 hz he' hzt)
    · rw [Function.update_of_ne ht] at hy
      have he' : s.world.entry (l1At y.rootPaddr i) = newTable p :=
        (C.entry I hd hy (Or.inl ht)).symm.trans he
      exact hold (hR t y i p z hy hp.1 hz he' hzt)

end PageTableMultiarch.Bits32
