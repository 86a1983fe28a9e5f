/-
The ledger when page tables are made, dropped, and copied from.

`Drop` and `copy_from` free the second level tables under entries that are not borrowed, one entry
at a time (`PageTable32.freeEntry`, `Released`).  They leave the ledger right exactly if no other
page table points to what they free.

* `LedgerInv.new`, `LedgerInv.drop`, `LedgerInv.copy` — the ledger afterwards;
* `LedgerInv.exec` — every careful call keeps some ledger right;
* `LedgerInv.dangling` — a call that is not careful leaves a pointer to a table that it has freed.
-/
import PageTableMultiarch.Table32.SystemStep

namespace PageTableMultiarch.Bits32

open GenericPTE A32PTE MemEvent

variable {B : Build} {M : PagingMetaData} {σ : Type} {H : PagingHandler 32 σ}
  {inUse : σ → Set ℕ} {s : System B M H} {L : Ledger} {t : ℕ} {x : PageTable32 B M A32PTE H}

/-! ### A new page table -/

/-- What zeroing a first level does. -/
theorem zeroed_root (mem : PhysAddr → A32PTE) {root : PhysAddr} (hroot : root.toNat % L1_ALIGN = 0)
    {a : PhysAddr} (ha : ¬RootFrame root (frameOf a)) :
    zeroed mem root (L1_SIZE_PAGES * 0x1000) a = mem a := by
  have hlt := a.isLt
  have hlt' := root.isLt
  rw [L1_ALIGN] at hroot
  rw [RootFrame, frameOf, frameOf, L1_SIZE_PAGES] at ha
  rw [zeroed, if_neg]
  rw [BitVec.toNat_sub, L1_SIZE_PAGES]
  omega

/-- A new first level lies in frames that were not in use. -/
theorem LedgerInv.root_fresh (hH : FreshBlocks H inUse) (I : LedgerInv inUse s L)
    {root : PhysAddr} {os : σ}
    (ha : H.allocFrames s.world.os L1_SIZE_PAGES L1_ALIGN = (some root, os))
    (hx : s.tables t = some x) {n : ℕ} (hn : RootFrame x.rootPaddr n) : ¬RootFrame root n :=
  fun hn' => hH.frames_fresh ha n hn' (I.root_inUse hx n hn)

theorem frameOf_root (root : PhysAddr) : RootFrame root (frameOf root) :=
  ⟨le_rfl, Nat.lt_add_of_pos_right (by decide)⟩

/-- `try_new` fails if the allocator has no frames. -/
theorem tryNew_cases (w : World A32PTE σ) :
    (∃ table w', PageTable32.tryNew B M A32PTE H w = (.ok table, w')) ∨
      ∃ os, H.allocFrames w.os L1_SIZE_PAGES L1_ALIGN = (none, os) ∧
        PageTable32.tryNew B M A32PTE H w = (.err .noMemory, { w with os := os }) := by
  rw [PageTable32.tryNew]
  rcases H.allocFrames w.os L1_SIZE_PAGES L1_ALIGN with ⟨_ | p, os⟩
  · exact Or.inr ⟨os, rfl, rfl⟩
  · exact Or.inl ⟨_, _, rfl⟩

section New

variable {table : PageTable32 B M A32PTE H} {w : World A32PTE σ}

/-- The system with one more page table. -/
def System.enrol (s : System B M H) (table : PageTable32 B M A32PTE H) (w : World A32PTE σ) :
    System B M H :=
  ⟨w, Function.update s.tables s.next (some table), s.next + 1⟩

theorem System.enrol_tables :
    (s.enrol table w).tables = Function.update s.tables s.next (some table) := rfl

theorem System.exec_new_ok (h : PageTable32.tryNew B M A32PTE H s.world = (.ok table, w)) :
    s.exec .new = s.enrol table w := by
  rw [System.exec, h]
  rfl

theorem System.exec_new_err {e : PagingError}
    (h : PageTable32.tryNew B M A32PTE H s.world = (.err e, w)) :
    s.exec .new = s.withWorld w := by
  rw [System.exec, h]
  rfl

/-- A page table is the new one or an old one. -/
theorem System.enrol_cases (h : (s.enrol table w).tables t = some x) :
    t = s.next ∧ x = table ∨ t ≠ s.next ∧ s.tables t = some x := by
  rw [System.enrol_tables] at h
  by_cases ht : t = s.next
  · rw [ht, Function.update_self, Option.some_inj] at h
    exact Or.inl ⟨ht, h.symm⟩
  · rw [Function.update_of_ne ht] at h
    exact Or.inr ⟨ht, h⟩

/-- The old first levels are as they were. -/
theorem LedgerInv.new_entry (hH : FreshBlocks H inUse) (I : LedgerInv inUse s L)
    (h : PageTable32.tryNew B M A32PTE H s.world = (.ok table, w)) (hx : s.tables t = some x)
    (i : Fin ENTRY_COUNT) :
    w.entry (l1At x.rootPaddr i) = s.world.entry (l1At x.rootPaddr i) := by
  obtain ⟨os, ha, -, hw⟩ := tryNew_eq h
  rw [hw]
  exact zeroed_root _ (hH.frames_aligned ha)
    (I.root_fresh hH ha hx (rootFrame_l1At (I.root_aligned hx) i))

theorem LedgerInv.enrol (hH : FreshBlocks H inUse) (I : LedgerInv inUse s L)
    (h : PageTable32.tryNew B M A32PTE H s.world = (.ok table, w)) :
    LedgerInv inUse (s.enrol table w) L := by
  have hentry := fun {t x} hx => I.new_entry (t := t) (x := x) hH h hx
  have hzero := tryNew_entry hH.toFreshFrames h
  obtain ⟨os, ha, -, hw⟩ := tryNew_eq h
  have halign := hH.frames_aligned ha
  have hos : inUse s.world.os ⊆ inUse w.os := by
    rw [hw]
    exact hH.frames_keep ha
  have hin : ∀ n, RootFrame table.rootPaddr n → n ∈ inUse w.os := by
    intro n hn
    have hmem := hH.frames_alloc ha (n - frameOf table.rootPaddr) (by
      have h1 := hn.1
      have h2 := hn.2
      omega)
    rw [hw]
    rwa [Nat.add_sub_cancel' hn.1] at hmem
  have hapart : ∀ {t x}, s.tables t = some x → ∀ {n}, RootFrame x.rootPaddr n →
      ¬RootFrame table.rootPaddr n := by
    intro t x hx n hn
    exact I.root_fresh hH ha hx hn
  have hdead : table.root ∉ MemEvent.live s.world.trace := by
    rw [I.live]
    rintro (⟨t, x, hx, heq⟩ | ⟨p, -, heq⟩)
    · have hpaddr : table.rootPaddr = x.rootPaddr := congrArg Table.paddr heq
      exact hapart hx (frameOf_root _) (hpaddr ▸ frameOf_root _)
    · exact absurd (congrArg Table.frames heq) (by decide : 1 ≠ L1_SIZE_PAGES)
  have hold : ∀ {t x}, s.tables t = some x → (s.enrol table w).tables t = some x := by
    intro t x hx
    rw [System.enrol_tables, Function.update_of_ne (I.lt_next hx).ne, hx]
  refine ⟨?_, ?_, fun hx => ?_, fun hx => ?_, fun hx n hn => ?_, fun hx hy heq => ?_,
    I.sub_aligned, I.sub_ne_zero, fun hp => hos (I.sub_inUse hp), fun hx hp => ?_,
    fun hx i => ?_, fun hp ht => ?_, fun hx => ?_⟩
  · rw [System.enrol, hw]
    exact ⟨Or.inl rfl, hdead, I.safe⟩
  · have hroots : (s.enrol table w).roots = insert table.root s.roots := by
      ext b
      constructor
      · rintro ⟨t, x, hx, rfl⟩
        obtain ⟨-, rfl⟩ | ⟨-, hx⟩ := System.enrol_cases hx
        · exact Or.inl rfl
        · exact Or.inr ⟨t, x, hx, rfl⟩
      · rintro (rfl | ⟨t, x, hx, rfl⟩)
        · exact ⟨s.next, table, Function.update_self _ _ _, rfl⟩
        · exact ⟨t, x, hold hx, rfl⟩
    rw [hroots, Set.insert_union, ← I.live, System.enrol, hw]
    rfl
  · obtain ⟨-, rfl⟩ | ⟨-, hx⟩ := System.enrol_cases hx
    · exact halign
    · exact I.root_aligned hx
  · obtain ⟨-, rfl⟩ | ⟨-, hx⟩ := System.enrol_cases hx
    · exact hH.frames_ne_zero ha
    · exact I.root_ne_zero hx
  · obtain ⟨-, rfl⟩ | ⟨-, hx⟩ := System.enrol_cases hx
    · exact hin n hn
    · exact hos (I.root_inUse hx n hn)
  · obtain ⟨ht, hxt⟩ | ⟨-, hx₀⟩ := System.enrol_cases hx
    · obtain ⟨ht', -⟩ | ⟨-, hy₀⟩ := System.enrol_cases hy
      · exact ht.trans ht'.symm
      · rw [hxt] at heq
        exact absurd (heq ▸ frameOf_root _) (hapart hy₀ (frameOf_root _))
    · obtain ⟨-, hyt⟩ | ⟨-, hy₀⟩ := System.enrol_cases hy
      · rw [hyt] at heq
        exact absurd (heq ▸ frameOf_root _) (hapart hx₀ (frameOf_root _))
      · exact I.root_inj hx₀ hy₀ heq
  · obtain ⟨-, rfl⟩ | ⟨-, hx⟩ := System.enrol_cases hx
    · exact fun hn => hH.frames_fresh ha _ hn (I.sub_inUse hp)
    · exact I.sub_apart hx hp
  · obtain ⟨-, rfl⟩ | ⟨-, hx⟩ := System.enrol_cases hx
    · rw [System.enrol, hzero i]
      exact Or.inl (Or.inl rfl)
    · rw [System.enrol, hentry hx i]
      exact I.entry hx i
  · obtain ⟨x, hx, hb, he⟩ := I.owner hp ht
    exact ⟨x, hold hx, hb, (hentry hx _).trans he⟩
  · obtain ⟨rfl, -⟩ | ⟨-, hx⟩ := System.enrol_cases hx
    · exact Nat.lt_succ_self _
    · exact (I.lt_next hx).trans (Nat.lt_succ_self _)

end New

/-- The ledger is right after `try_new`, and no more is lent. -/
theorem LedgerInv.new (hH : FreshBlocks H inUse) (I : LedgerInv inUse s L) :
    LedgerInv inUse (s.exec .new) L ∧ ∀ R, s.Lent L R → (s.exec .new).Lent L R := by
  obtain ⟨table, w, hnew⟩ | ⟨os, ha, hnew⟩ := tryNew_cases (B := B) (M := M) (H := H) s.world
  · rw [System.exec_new_ok hnew]
    refine ⟨I.enrol hH hnew, fun R hR t x i p z hx hp hz he hne => ?_⟩
    obtain ⟨-, rfl⟩ | ⟨-, hx⟩ := System.enrol_cases hx
    · rw [System.enrol, tryNew_entry hH.toFreshFrames hnew i] at he
      exact absurd he (PlainEntry.sectionEntry (Or.inl rfl) |>.ne_newTable p)
    · rw [System.enrol, I.new_entry hH hnew hx i] at he
      exact hR t x i p z hx hp hz he hne
  · rw [System.exec_new_err hnew]
    exact ⟨I.congr I.safe rfl (hH.frames_keep ha) fun _ _ _ _ => Or.inl rfl, fun R hR =>
      hR.congr fun _ _ _ _ => Or.inl rfl⟩

/-! ### Freeing second level tables -/

/-- What `Drop` and `copy_from` do first with an entry of the first level: they free the table under
it, unless it is borrowed. -/
def PageTable32.freeEntry (self : PageTable32 B M A32PTE H) (i : Fin ENTRY_COUNT) :
    Op (World A32PTE σ) Unit :=
  if self.borrowedEntries i then pure ()
  else do
    let entry : A32PTE ← readEntry ⟨self.root, i⟩
    if !isUnused entry && !isHuge entry then deallocFrame H (paddr entry) else pure ()

theorem freeEntry_eq (self : PageTable32 B M A32PTE H) (i : Fin ENTRY_COUNT)
    (w : World A32PTE σ) : self.freeEntry i w = (.ok (),
      if self.borrowedEntries i then w
      else if links (w.entry (l1At self.rootPaddr i)) then
        (w.touch self.root).release ⟨paddr (w.entry (l1At self.rootPaddr i)), 1⟩
          (H.deallocFrame w.os (paddr (w.entry (l1At self.rootPaddr i))))
      else w.touch self.root) := by
  rw [PageTable32.freeEntry]
  cases self.borrowedEntries i with
  | true => rfl
  | false =>
    rw [if_neg Bool.false_ne_true, if_neg Bool.false_ne_true, Op.bind_ok (readEntry_eq _ _)]
    have hentry : w.entry ⟨self.root, i⟩ = w.entry (l1At self.rootPaddr i) := rfl
    rw [hentry]
    cases hl : links (w.entry (l1At self.rootPaddr i)) with
    | true =>
      rw [links] at hl
      rw [if_pos hl, if_pos rfl]
      rfl
    | false =>
      rw [links] at hl
      rw [if_neg (by rw [hl]; exact Bool.false_ne_true), if_neg Bool.false_ne_true]
      rfl

/-- The tables that table `t` owns under certain entries. -/
def Ledger.ownedAt (L : Ledger) (t : ℕ) (among : Set (Fin ENTRY_COUNT)) : Set PhysAddr :=
  {p | p ∈ L.subs ∧ L.owner p = some t ∧ L.index p ∈ among}

/-- The tables that `t` owns under certain entries have been freed, and nothing else has been freed
or obtained. -/
structure Released (inUse : σ → Set ℕ) (s : System B M H) (L : Ledger) (t : ℕ)
    (among : Set (Fin ENTRY_COUNT)) (w : World A32PTE σ) : Prop where
  safe : Safe w.trace
  live : live w.trace = live s.world.trace \ pageTable '' L.ownedAt t among
  inUse (n : ℕ) : n ∈ inUse s.world.os → (∀ p ∈ L.ownedAt t among, n ≠ frameOf p) → n ∈ inUse w.os

theorem LedgerInv.released (I : LedgerInv inUse s L) (t : ℕ) :
    Released inUse s L t ∅ s.world where
  safe := I.safe
  live := by
    have hnone : L.ownedAt t ∅ = ∅ := Set.eq_empty_of_forall_notMem fun p hp => hp.2.2
    rw [hnone, Set.image_empty, Set.sdiff_empty]
  inUse n hn _ := hn

theorem released_congr {among among' : Set (Fin ENTRY_COUNT)} {w : World A32PTE σ}
    (h : L.ownedAt t among = L.ownedAt t among') :
    Released inUse s L t among w ↔ Released inUse s L t among' w := by
  constructor
  · rintro ⟨hsafe, hlive, hin⟩
    exact ⟨hsafe, h ▸ hlive, h ▸ hin⟩
  · rintro ⟨hsafe, hlive, hin⟩
    exact ⟨hsafe, h ▸ hlive, h ▸ hin⟩

section Released

variable {among : Set (Fin ENTRY_COUNT)} {w : World A32PTE σ}

/-- First levels are not freed. -/
theorem Released.root_live (I : LedgerInv inUse s L) (R : Released inUse s L t among w) {t' : ℕ}
    {y : PageTable32 B M A32PTE H} (hy : s.tables t' = some y) :
    y.root ∈ MemEvent.live w.trace := by
  rw [R.live, I.live]
  refine ⟨Or.inl ⟨t', y, hy, rfl⟩, ?_⟩
  rintro ⟨p, -, heq⟩
  exact absurd (congrArg Table.frames heq) (by decide : 1 ≠ L1_SIZE_PAGES)

theorem Released.access (R : Released inUse s L t among w) {b : Table}
    (hb : b ∈ MemEvent.live w.trace) : Released inUse s L t among (w.touch b) :=
  ⟨⟨hb, R.safe⟩, R.live, R.inUse⟩

theorem Released.store (R : Released inUse s L t among w) {slot : Slot}
    (hb : slot.table ∈ MemEvent.live w.trace) (e : A32PTE) :
    Released inUse s L t among (w.store slot e) :=
  ⟨⟨hb, R.safe⟩, R.live, R.inUse⟩

/-- Nothing is owned under an entry that is borrowed or points to no table. -/
theorem LedgerInv.ownedAt_insert (I : LedgerInv inUse s L) (hx : s.tables t = some x)
    {i : Fin ENTRY_COUNT} (h : x.borrowedEntries i = true ∨
      links (s.world.entry (l1At x.rootPaddr i)) = false) :
    L.ownedAt t (insert i among) = L.ownedAt t among := by
  ext p
  refine and_congr_right fun hp => and_congr_right fun ht => ⟨?_, Or.inr⟩
  rintro (rfl | hi)
  · obtain ⟨y, hy, hb, he⟩ := I.owner hp ht
    obtain rfl := Option.some_inj.mp (hx.symm.trans hy)
    obtain h | h := h
    · rw [hb] at h
      cases h
    · rw [he, links_newTable] at h
      cases h
  · exact hi

/-- One entry more. -/
theorem Released.freeEntry (hH : FreshBlocks H inUse) (I : LedgerInv inUse s L)
    (hx : s.tables t = some x) (R : Released inUse s L t among w) {i : Fin ENTRY_COUNT}
    (hi : i ∉ among)
    (he : w.entry (l1At x.rootPaddr i) = s.world.entry (l1At x.rootPaddr i)) :
    ∃ w', x.freeEntry i w = (.ok (), w') ∧ w'.mem = w.mem ∧
      Released inUse s L t (insert i among) w' := by
  rw [freeEntry_eq, he]
  cases hb : x.borrowedEntries i with
  | true =>
    refine ⟨w, rfl, rfl, ?_⟩
    rw [released_congr (I.ownedAt_insert hx (Or.inl hb))]
    exact R
  | false =>
    cases hl : links (s.world.entry (l1At x.rootPaddr i)) with
    | false =>
      refine ⟨w.touch x.root, rfl, rfl, ?_⟩
      rw [released_congr (I.ownedAt_insert hx (Or.inr hl))]
      exact R.access (R.root_live I hx)
    | true =>
      obtain ⟨p, hp, hlink, hindex, howner⟩ := I.link hx hl
      have hpaddr : paddr (newTable p : A32PTE) = p := physAddr_newTable (I.sub_aligned hp)
      have ht := howner.mp hb
      rw [hlink, hpaddr]
      refine ⟨(w.touch x.root).release (pageTable p) (H.deallocFrame w.os p), rfl, rfl, ?_⟩
      -- `p` is the table that is owned under the entry
      have howned : L.ownedAt t (insert i among) = insert p (L.ownedAt t among) := by
        ext q
        constructor
        · rintro ⟨hq, hqt, rfl | hqi⟩
          · obtain ⟨y, hy, -, hqe⟩ := I.owner hq hqt
            obtain rfl := Option.some_inj.mp (hx.symm.trans hy)
            rw [hlink] at hqe
            exact Or.inl (newTable_inj (I.sub_aligned hp) (I.sub_aligned hq) hqe).symm
          · exact Or.inr ⟨hq, hqt, hqi⟩
        · rintro (rfl | ⟨hq, hqt, hqi⟩)
          · exact ⟨hp, ht, Or.inl hindex⟩
          · exact ⟨hq, hqt, Or.inr hqi⟩
      have hhere : pageTable p ∈ MemEvent.live w.trace := by
        rw [R.live, I.live]
        refine ⟨Or.inr ⟨p, hp, rfl⟩, ?_⟩
        rintro ⟨q, ⟨-, -, hqi⟩, heq⟩
        obtain rfl : q = p := congrArg Table.paddr heq
        exact hi (hindex ▸ hqi)
      refine ⟨⟨hhere, R.root_live I hx, R.safe⟩, ?_, fun n hn hne => ?_⟩
      · show MemEvent.live w.trace \ {pageTable p} = _
        rw [R.live, howned, Set.image_insert_eq, Set.sdiff_sdiff, Set.union_comm]
        rfl
      · rw [howned] at hne
        refine hH.dealloc w.os p ⟨R.inUse n hn fun q hq => hne q (Or.inr hq), ?_⟩
        exact hne p (Or.inl rfl)

end Released

/-! ### The drop -/

/-- All entries of a list, none of which has been handled before. -/
theorem Released.freeEntries (hH : FreshBlocks H inUse) (I : LedgerInv inUse s L)
    (hx : s.tables t = some x) {is : List (Fin ENTRY_COUNT)} (hnodup : is.Nodup)
    {among : Set (Fin ENTRY_COUNT)} {w : World A32PTE σ} (hmem : w.mem = s.world.mem)
    (R : Released inUse s L t among w) (hdisj : ∀ i ∈ is, i ∉ among) :
    ∃ w', forEach is x.freeEntry w = (.ok (), w') ∧ w'.mem = s.world.mem ∧
      Released inUse s L t (among ∪ {i | i ∈ is}) w' := by
  induction is generalizing among w with
  | nil =>
    refine ⟨w, rfl, hmem, ?_⟩
    have hnone : {i : Fin ENTRY_COUNT | i ∈ []} = ∅ := by simp
    rw [hnone, Set.union_empty]
    exact R
  | cons i is ih =>
    obtain ⟨hi, hnodup⟩ := List.nodup_cons.mp hnodup
    obtain ⟨w₁, hrun, hmem₁, R₁⟩ := R.freeEntry hH I hx (hdisj i List.mem_cons_self)
      (congrFun hmem (l1At x.rootPaddr i).addr)
    obtain ⟨w', hrun', hmem', R'⟩ := ih hnodup (hmem₁.trans hmem) R₁ fun j hj => by
      rintro (rfl | hmem)
      · exact hi hj
      · exact hdisj j (List.mem_cons_of_mem _ hj) hmem
    refine ⟨w', by rw [forEach, Op.bind_ok hrun, hrun'], hmem', ?_⟩
    have hset : among ∪ {j | j ∈ i :: is} = insert i among ∪ {j | j ∈ is} := by
      ext j
      simp only [Set.mem_union, Set.mem_ofPred_eq, List.mem_cons, Set.mem_insert_iff]
      tauto
    rw [hset]
    exact R'

/-- What the drop of a page table does: it frees the tables that it owns, and its first level. -/
theorem LedgerInv.drop_eq (hH : FreshBlocks H inUse) (I : LedgerInv inUse s L)
    (hx : s.tables t = some x) : ∃ w, x.drop s.world = (.ok (), w) ∧ w.mem = s.world.mem ∧
      Safe w.trace ∧
      MemEvent.live w.trace =
        MemEvent.live s.world.trace \ insert x.root (pageTable '' L.ownedAt t Set.univ) ∧
      ∀ n ∈ inUse s.world.os, ¬RootFrame x.rootPaddr n →
        (∀ p ∈ L.ownedAt t Set.univ, n ≠ frameOf p) → n ∈ inUse w.os := by
  obtain ⟨w₁, hrun, hmem, R⟩ := (I.released t).freeEntries hH I hx nodup_entryIndices rfl
    fun i _ => Set.notMem_empty i
  have huniv : (∅ : Set (Fin ENTRY_COUNT)) ∪ {i | i ∈ entryIndices} = Set.univ := by
    ext i
    simp [mem_entryIndices]
  rw [huniv] at R
  have hdrop : x.drop s.world = (.ok (), w₁.release x.root (H.deallocFrames w₁.os x.rootPaddr 4)) :=
    Op.bind_ok hrun
  refine ⟨_, hdrop, hmem, ⟨R.root_live I hx, R.safe⟩, ?_, fun n hn hroot hne => ?_⟩
  · show MemEvent.live w₁.trace \ {x.root} = _
    rw [R.live, Set.sdiff_sdiff, Set.union_singleton]
  · exact hH.deallocs w₁.os x.rootPaddr ⟨R.inUse n hn hne, hroot⟩

/-- The ledger without the tables that `t` owns under certain entries. -/
def Ledger.without (L : Ledger) (t : ℕ) (among : Set (Fin ENTRY_COUNT)) : Ledger :=
  { L with subs := L.subs \ L.ownedAt t among }

/-- Nothing that another table points to is owned under the entries. -/
theorem LedgerInv.not_ownedAt (I : LedgerInv inUse s L) (hx : s.tables t = some x)
    {b : Fin ENTRY_COUNT → Bool} (hspares : s.Spares t x b) {among : Set (Fin ENTRY_COUNT)}
    (hamong : ∀ i ∈ among, b i = true) {t' : ℕ} {y : PageTable32 B M A32PTE H}
    (hy : s.tables t' = some y) (hne : t' ≠ t) {p : PhysAddr}
    (he : s.world.entry (l1At y.rootPaddr (L.index p)) = newTable p) : p ∉ L.ownedAt t among := by
  rintro ⟨hp, ht, hi⟩
  obtain ⟨z, hz, hb, hze⟩ := I.owner hp ht
  obtain rfl := Option.some_inj.mp (hx.symm.trans hz)
  refine hspares (L.index p) (hamong _ hi) hb ?_ t' (I.lt_next hy) hne y hy (he.trans hze.symm)
  rw [hze]
  exact links_newTable p

theorem LedgerInv.drop (hH : FreshBlocks H inUse) (I : LedgerInv inUse s L)
    (hc : s.Careful (.drop t)) (hx : s.tables t = some x) :
    LedgerInv inUse (s.exec (.drop t)) (L.without t Set.univ) := by
  obtain ⟨w, hdrop, hmem, hsafe, hlive, hos⟩ := I.drop_eq hH hx
  have hspares := hc x hx
  rw [System.exec, hx]
  dsimp only
  rw [hdrop]
  dsimp only
  have hentry : ∀ slot, w.entry slot = s.world.entry slot := fun slot => congrFun hmem slot.addr
  -- a table that is left is an old one
  have hleft : ∀ {t' y}, Function.update s.tables t none t' = some y →
      t' ≠ t ∧ s.tables t' = some y := by
    intro t' y hy
    by_cases ht : t' = t
    · rw [ht, Function.update_self] at hy
      cases hy
    · rw [Function.update_of_ne ht] at hy
      exact ⟨ht, hy⟩
  have hkeep : ∀ {t' y}, t' ≠ t → s.tables t' = some y →
      Function.update s.tables t none t' = some y := by
    intro t' y ht hy
    rw [Function.update_of_ne ht, hy]
  refine ⟨hsafe, ?_, fun hy => I.root_aligned (hleft hy).2, fun hy => I.root_ne_zero (hleft hy).2,
    fun hy n hn => ?_, fun hy hz h => I.root_inj (hleft hy).2 (hleft hz).2 h,
    fun hp => I.sub_aligned hp.1, fun hp => I.sub_ne_zero hp.1, fun hp => ?_,
    fun hy hp => I.sub_apart (hleft hy).2 hp.1, fun hy i => ?_, fun hp ht' => ?_,
    fun hy => I.lt_next (hleft hy).2⟩
  · rw [hlive, I.live]
    ext b
    constructor
    · rintro ⟨⟨t', y, hy, rfl⟩ | ⟨p, hp, rfl⟩, hnot⟩
      · refine Or.inl ⟨t', y, hkeep ?_ hy, rfl⟩
        rintro rfl
        obtain rfl := Option.some_inj.mp (hx.symm.trans hy)
        exact hnot (Or.inl rfl)
      · exact Or.inr ⟨p, ⟨hp, fun ho => hnot (Or.inr ⟨p, ho, rfl⟩)⟩, rfl⟩
    · rintro (⟨t', y, hy, rfl⟩ | ⟨p, ⟨hp, hno⟩, rfl⟩)
      · obtain ⟨hne, hy⟩ := hleft hy
        refine ⟨Or.inl ⟨t', y, hy, rfl⟩, ?_⟩
        rintro (heq | ⟨p, -, heq⟩)
        · exact hne (I.root_inj hy hx (congrArg Table.paddr heq))
        · exact absurd (congrArg Table.frames heq) (by decide : 1 ≠ L1_SIZE_PAGES)
      · refine ⟨Or.inr ⟨p, hp, rfl⟩, ?_⟩
        rintro (heq | ⟨q, hq, heq⟩)
        · exact absurd (congrArg Table.frames heq) (by decide : 1 ≠ L1_SIZE_PAGES)
        · obtain rfl : q = p := congrArg Table.paddr heq
          exact hno hq
  · obtain ⟨hne, hy⟩ := hleft hy
    refine hos n (I.root_inUse hy n hn) (fun hn' => hne ?_) fun p hp heq => ?_
    · exact I.root_inj hy hx
        (rootFrame_unique (I.root_aligned hy) (I.root_aligned hx) hn hn')
    · exact I.sub_apart hy hp.1 (heq ▸ hn)
  · refine hos _ (I.sub_inUse hp.1) (I.sub_apart hx hp.1) fun q hq heq => hp.2 ?_
    rwa [I.sub_inj hp.1 hq.1 heq]
  · obtain ⟨hne, hy⟩ := hleft hy
    rw [hentry]
    obtain hplain | ⟨p, hp, he, rfl, hown⟩ := I.entry hy i
    · exact Or.inl hplain
    · have hno : p ∉ L.ownedAt t Set.univ := I.not_ownedAt hx hspares (fun _ _ => rfl) hy hne he
      exact Or.inr ⟨p, ⟨hp, hno⟩, he, rfl, hown⟩
  · obtain ⟨y, hy, hb, he⟩ := I.owner hp.1 ht'
    refine ⟨y, hkeep ?_ hy, hb, (hentry _).trans he⟩
    rintro rfl
    exact hp.2 ⟨hp.1, ht', trivial⟩

/-- What the other tables have borrowed they still have. -/
theorem LedgerInv.drop_lent (hH : FreshBlocks H inUse) (I : LedgerInv inUse s L)
    (hx : s.tables t = some x) {R : List (ℕ × ℕ)} (hR : s.Lent L R) :
    (s.exec (.drop t)).Lent (L.without t Set.univ) (SystemCall.lend R (.drop t)) := by
  obtain ⟨w, hdrop, hmem, -⟩ := I.drop_eq hH hx
  intro t' y i p z hy hp hz he hne
  rw [System.exec, hx] at hy he
  dsimp only at hy he
  rw [hdrop] at he
  have he' : s.world.entry (l1At y.rootPaddr i) = newTable p :=
    (congrFun hmem (l1At y.rootPaddr i).addr).symm.trans he
  by_cases ht : t' = t
  · rw [ht, Function.update_self] at hy
    cases hy
  · rw [Function.update_of_ne ht] at hy
    exact List.mem_filter.mpr ⟨hR t' y i p z hy hp.1 hz he' hne, decide_eq_true ht⟩

end PageTableMultiarch.Bits32
