/-
Translations that a processor has cached, for systems of `PageTable32`s.

The processor may read a translation from any page table at any time and keep it; a cursor changes
its table first and flushes later.  A change under an entry that has been copied is seen through
other page tables too, but recorded by one cursor only.

* `Steps.apart` — a call leaves alone the frames that its page table does not point to;
* `LedgerInv.tracked_elsewhere` — what a cursor records covers what other page tables see;
* `a32_tlb_coherent` — if the calls are plain, and the copies and drops careful, what is cached is
  what `query` answers, or a flush of an open cursor that removes it is outstanding.
-/
import PageTableMultiarch.Lib.LazyCache
import PageTableMultiarch.Table32.Flush
import PageTableMultiarch.Table32.SystemRun

namespace PageTableMultiarch.Bits32

open GenericPTE A32PTE MemEvent LazyCache

variable {B : Build} {M : PagingMetaData} {σ : Type} {H : PagingHandler 32 σ}
  {inUse : σ → Set ℕ} {root : PhysAddr} {w w' : World A32PTE σ}

/-! ### Frames that a page table does not point to -/

/-- A frame in use that is no table of a page table. -/
structure Apart (inUse : σ → Set ℕ) (root : PhysAddr) (w : World A32PTE σ) (n : ℕ) : Prop where
  inUse : n ∈ inUse w.os
  not_root : ¬RootFrame root n
  link {i : Fin ENTRY_COUNT} {p : PhysAddr} : w.entry (l1At root i) = newTable p →
    p.toNat % 0x1000 = 0 → frameOf p ≠ n

/-- A store at an entry of the page table leaves the frame alone. -/
theorem Apart.store {n : ℕ} (A : Apart inUse root w n) {slot : Slot} {e : A32PTE}
    (hslot : frameOf slot.addr ≠ n)
    (he : ∀ i, (l1At root i).addr = slot.addr → ∀ p, e ≠ newTable p) :
    Apart inUse root (w.store slot e) n ∧
      ∀ a, frameOf a = n → (w.store slot e).mem a = w.mem a := by
  refine ⟨⟨A.inUse, A.not_root, fun {i p} hp => ?_⟩, fun a ha => ?_⟩
  · rw [World.store_entry] at hp
    split at hp
    · next heq => exact absurd hp (he i heq p)
    · exact A.link hp
  · rw [World.store_mem, Function.update_of_ne]
    rintro rfl
    exact hslot ha

theorem Step.apart (hH : FreshFrames H inUse) (L : Layout PlainEntry inUse root w)
    {V : VirtAddr → Prop} {n : ℕ} (A : Apart inUse root w n)
    (h : Step H root V PlainEntry w w') :
    Apart inUse root w' n ∧ ∀ a, frameOf a = n → w'.mem a = w.mem a := by
  have hS : ∀ e, PlainEntry e → SectionEntry e := fun _ he => he.sectionEntry
  -- the first level lies in other frames
  have hl1 : ∀ i, frameOf (l1At root i).addr ≠ n := fun i heq =>
    A.not_root (heq ▸ rootFrame_l1At L.root_aligned i)
  cases h with
  | accessRoot => exact ⟨⟨A.inUse, A.not_root, A.link⟩, fun _ _ => rfl⟩
  | access v slot size h => exact ⟨⟨A.inUse, A.not_root, A.link⟩, fun _ _ => rfl⟩
  | flush fl => exact ⟨⟨A.inUse, A.not_root, A.link⟩, fun _ _ => rfl⟩
  | allocFail os h => exact ⟨⟨hH.alloc_none h A.inUse, A.not_root, A.link⟩, fun _ _ => rfl⟩
  | store v slot size e h hV he =>
    obtain ⟨hu, ⟨hh, rfl, hsize⟩ | ⟨hh, rfl, -⟩⟩ := find_cases h
    · exact A.store (hl1 _) fun _ _ => (hS _ (he hsize)).ne_newTable
    · obtain ⟨q, hq, hqa, -⟩ := L.link (i := p1Index v) hu hh
      have hqaddr : paddr (w.entry (l1Slot root v)) = q := by
        rw [show w.entry (l1Slot root v) = newTable q from hq]
        exact physAddr_newTable hqa
      have hframe : frameOf (l2Slot (w.entry (l1Slot root v)) v).addr = frameOf q := by
        rw [frameOf_l2Slot (by rw [hqaddr]; exact hqa), hqaddr]
      refine A.store (hframe ▸ A.link hq hqa) fun i heq => ?_
      exact absurd heq (L.l2_ne_l1 hS (i := p1Index v) hh v i)
  | mapSection v e h hV he => exact A.store (hl1 _) fun _ _ => (hS _ he).ne_newTable
  | attach v p os h ha hV =>
    have hne : frameOf p ≠ n := fun heq => hH.fresh ha (heq ▸ A.inUse)
    have hmem : ∀ slot : Slot, frameOf slot.addr ≠ frameOf p →
        slot.addr ≠ (l1At root (p1Index v)).addr →
        ((w.grant p os).store (l1Slot root v) (newTable p)).entry slot = w.entry slot := by
      intro slot hslot hslot'
      rw [attach_entry hH root ha, if_neg hslot', if_neg hslot]
    refine ⟨⟨hH.alloc ha (Or.inr A.inUse), A.not_root, fun {i q} hq hqa => ?_⟩, fun a ha' => ?_⟩
    · rw [attach_entry hH root ha] at hq
      split at hq
      · obtain rfl := newTable_inj (hH.aligned ha) hqa hq
        exact hne
      · rw [if_neg (L.l1_ne_fresh hH ha i)] at hq
        exact A.link hq hqa
    · have hl : a ≠ (l1At root (p1Index v)).addr := fun heq => hl1 _ (heq ▸ ha')
      rw [World.store_mem, Function.update_of_ne hl, World.grant]
      dsimp only
      rw [zeroed_apply _ (hH.aligned ha), if_neg]
      rw [ha']
      exact hne.symm

theorem Steps.apart (hH : FreshFrames H inUse) (L : Layout PlainEntry inUse root w)
    {V : VirtAddr → Prop} {n : ℕ} (A : Apart inUse root w n)
    (h : Steps H root V PlainEntry w w') :
    Apart inUse root w' n ∧ ∀ a, frameOf a = n → w'.mem a = w.mem a := by
  induction h with
  | refl => exact ⟨A, fun _ _ => rfl⟩
  | tail hsteps hstep ih =>
    obtain ⟨A₁, h₁⟩ := ih
    have L₁ := Steps.layout hH (fun _ he => he.sectionEntry) L hsteps
    obtain ⟨A₂, h₂⟩ := hstep.apart hH L₁ A₁
    exact ⟨A₂, fun a ha => (h₂ a ha).trans (h₁ a ha)⟩

/-- An entry that points to a table goes on pointing to it. -/
theorem Step.link (hH : FreshFrames H inUse) (L : Layout PlainEntry inUse root w)
    {V : VirtAddr → Prop} {i : Fin ENTRY_COUNT} {p : PhysAddr}
    (he : w.entry (l1At root i) = newTable p) (h : Step H root V PlainEntry w w') :
    w'.entry (l1At root i) = newTable p := by
  -- another entry of the first level that is not a table
  have hne : ∀ v, isUnused (w.entry (l1Slot root v)) = true ∨
      isHuge (w.entry (l1Slot root v)) = true → (l1At root i).addr ≠ (l1Slot root v).addr := by
    intro v hv heq
    have hsame : w.entry (l1Slot root v) = newTable p := by
      rw [World.entry, ← heq]
      exact he
    rw [hsame, isUnused_newTable, isHuge_newTable] at hv
    simp at hv
  cases h with
  | accessRoot => exact he
  | access v slot size h => exact he
  | flush fl => exact he
  | allocFail os h => exact he
  | store v slot size e h hV hS =>
    obtain ⟨-, ⟨hh, rfl, -⟩ | ⟨hh, rfl, -⟩⟩ := find_cases h
    · rw [World.store_entry, if_neg (hne v (Or.inr hh)), he]
    · have hl2 := L.l2_ne_l1 (fun _ he => he.sectionEntry) (i := p1Index v) hh v i
      rw [World.store_entry, if_neg hl2, he]
  | mapSection v e h hV hS => rw [World.store_entry, if_neg (hne v (Or.inl h)), he]
  | attach v q os h ha hV =>
    have hentry := attach_entry hH root ha (p1Index v) (l1At root i)
    rw [if_neg (hne v (Or.inl h)), if_neg (L.l1_ne_fresh hH ha i)] at hentry
    exact hentry.trans he

theorem Steps.link (hH : FreshFrames H inUse) (L : Layout PlainEntry inUse root w)
    {V : VirtAddr → Prop} {i : Fin ENTRY_COUNT} {p : PhysAddr}
    (he : w.entry (l1At root i) = newTable p) (h : Steps H root V PlainEntry w w') :
    w'.entry (l1At root i) = newTable p := by
  induction h with
  | refl => exact he
  | tail hsteps hstep ih =>
    exact hstep.link hH (Steps.layout hH (fun _ he => he.sectionEntry) L hsteps) ih

/-! ### What other page tables see -/

/-- Page tables with the same entry of the first level map an address to the same. -/
theorem leafAt_eq_of_l1 {root' : PhysAddr} {v : VirtAddr}
    (h : w.entry (l1Slot root' v) = w.entry (l1Slot root v)) :
    leafAt root' v w.mem = leafAt root v w.mem := by
  rw [leafAt_eq, leafAt_eq]
  dsimp only
  rw [h]

section Elsewhere

variable {s : System B M H} {L : Ledger} {t t' : ℕ} {x y : PageTable32 B M A32PTE H}

/-- The mappings of a page table depend on its first level and on the tables in the ledger. -/
theorem LedgerInv.leafAt_congr (I : LedgerInv inUse s L) (hy : s.tables t' = some y)
    (hl1 : ∀ i, w'.entry (l1At y.rootPaddr i) = s.world.entry (l1At y.rootPaddr i)) (v : VirtAddr)
    (hl2 : ∀ p ∈ L.subs, s.world.entry (l1Slot y.rootPaddr v) = newTable p → ∀ a,
      frameOf a = frameOf p → w'.mem a = s.world.mem a) :
    leafAt y.rootPaddr v w'.mem = leafAt y.rootPaddr v s.world.mem := by
  refine Bits32.leafAt_congr (hl1 _) fun hu hh => ?_
  obtain ⟨p, hp, he, -⟩ := I.link hy (i := p1Index v) (by rw [links, hu, hh]; rfl)
  have hpaddr : paddr (newTable p : A32PTE) = p := physAddr_newTable (I.sub_aligned hp)
  refine hl2 p hp he _ ?_
  rw [show s.world.entry (l1Slot y.rootPaddr v) = newTable p from he,
    frameOf_l2Slot (by rw [hpaddr]; exact I.sub_aligned hp), hpaddr]

/-- The first level of another page table is apart. -/
theorem LedgerInv.root_apart (I : LedgerInv inUse s L) (hx : s.tables t = some x)
    (hy : s.tables t' = some y) (hne : t' ≠ t) {n : ℕ} (hn : RootFrame y.rootPaddr n) :
    Apart inUse x.rootPaddr s.world n where
  inUse := I.root_inUse hy n hn
  not_root hn' := hne (I.root_inj hy hx
    (rootFrame_unique (I.root_aligned hy) (I.root_aligned hx) hn hn'))
  link he hp heq := I.sub_apart hy (I.pointer hx he hp).1 (heq ▸ hn)

/-- A table that the page table does not point to is apart. -/
theorem LedgerInv.sub_apart_of_ne (I : LedgerInv inUse s L) (hx : s.tables t = some x)
    {p : PhysAddr} (hp : p ∈ L.subs)
    (hno : s.world.entry (l1At x.rootPaddr (L.index p)) ≠ newTable p) :
    Apart inUse x.rootPaddr s.world (frameOf p) where
  inUse := I.sub_inUse hp
  not_root := I.sub_apart hx hp
  link {i q} he hq heq := by
    obtain ⟨hqs, rfl, -⟩ := I.pointer hx he hq
    obtain rfl := I.sub_inj hqs hp heq
    exact hno he

/-- What a cursor records of a call covers what the other page tables see of it. -/
theorem LedgerInv.tracked_elsewhere (hH : FreshBlocks H inUse) (I : LedgerInv inUse s L)
    (hx : s.tables t = some x) (hy : s.tables t' = some y) {c : Call} (hc : c.Plain) :
    Tracked y.rootPaddr s.world (c.next x s.world) := by
  have hF := hH.toFreshFrames
  have L₁ := I.layout hx
  have hown : Tracked x.rootPaddr s.world (c.next x s.world) := (hc.edits x).tracked hF L₁
  by_cases hne : t' = t
  · subst hne
    obtain rfl := Option.some_inj.mp (hx.symm.trans hy)
    exact hown
  have hsteps := hc.grants.steps x s.world
  have hl1 : ∀ i, (c.next x s.world).entry (l1At y.rootPaddr i) =
      s.world.entry (l1At y.rootPaddr i) := fun i =>
    (hsteps.apart hF L₁ (I.root_apart hx hy hne (rootFrame_l1At (I.root_aligned hy) i))).2 _ rfl
  refine ⟨fun v => ?_, hown.keeps⟩
  by_cases hshared : ∃ p ∈ L.subs, s.world.entry (l1Slot y.rootPaddr v) = newTable p ∧
      s.world.entry (l1Slot x.rootPaddr v) = newTable p
  · -- the table is one of `x` too
    obtain ⟨p, -, hyp, hxp⟩ := hshared
    have hxp' := hsteps.link hF L₁ (i := p1Index v) hxp
    rw [leafAt_eq_of_l1 ((hl1 (p1Index v)).trans (hyp.trans hxp'.symm)),
      leafAt_eq_of_l1 (hyp.trans hxp.symm)]
    exact hown.leaf v
  · refine Or.inl (I.leafAt_congr hy hl1 v fun p hp he => ?_)
    refine (hsteps.apart hF L₁ (I.sub_apart_of_ne hx hp fun hxp => ?_)).2
    have hindex := (I.pointer hy he (I.sub_aligned hp)).2.1
    rw [hindex] at hxp
    exact hshared ⟨p, hp, he, hxp⟩

/-- A new page table changes no mapping of the others. -/
theorem LedgerInv.new_leafAt (hH : FreshBlocks H inUse) (I : LedgerInv inUse s L)
    (hy : s.tables t' = some y) (v : VirtAddr) :
    leafAt y.rootPaddr v (s.exec .new).world.mem = leafAt y.rootPaddr v s.world.mem := by
  obtain ⟨table, w, hnew⟩ | ⟨os, -, hnew⟩ := tryNew_cases (B := B) (M := M) (H := H) s.world
  · rw [System.exec_new_ok hnew]
    refine I.leafAt_congr hy (fun i => I.new_entry hH hnew hy i) v fun p hp _ a ha => ?_
    obtain ⟨os, halloc, -, hw⟩ := tryNew_eq hnew
    rw [hw]
    refine zeroed_root _ (hH.frames_aligned halloc) fun hn => ?_
    rw [ha] at hn
    exact hH.frames_fresh halloc _ hn (I.sub_inUse hp)
  · rw [System.exec_new_err hnew]
    rfl

end Elsewhere

/-! ### The machine -/

/-- What `query` answers for a mapped address. -/
abbrev Translation := PhysAddr × MappingFlags 32 × PageSize

/-- A system of page tables with the open cursors, each with its pending flushes, and the
translations that are cached, each with the number of its table and the address. -/
structure Machine (B : Build) (M : PagingMetaData) {σ : Type} (H : PagingHandler 32 σ) where
  sys : System B M H
  cursors : ℕ → Option (TlbFlusher 32)
  tlb : List ((ℕ × VirtAddr) × Translation)

/-- The system with the flushes that a cursor has pending. -/
def System.resume (s : System B M H) (flusher : TlbFlusher 32) : System B M H :=
  s.withWorld (s.world.withFlusher flusher)

/-- Nothing exists yet. -/
def Machine.Blank (m : Machine B M H) : Prop :=
  m.sys.Blank ∧ (∀ t, m.cursors t = none) ∧ m.tlb = []

/-- A call by the cursor of a table. -/
def Machine.cursorExec (m : Machine B M H) (t : ℕ) (flusher : TlbFlusher 32) (c : SystemCall) :
    Machine B M H :=
  { m with
    sys := (m.sys.resume flusher).exec c
    cursors := Function.update m.cursors t
      (some ((m.sys.resume flusher).exec c).world.flusher) }

/-- The processor reads and forgets translations, and the program makes tables and drops those
without a cursor, opens and closes cursors, and calls their methods.  The calls are plain, and the
copies and drops are careful: a table that another page table points to is not freed, since its
frame may come back with entries whose flushes do not name the old addresses.  A cursor that flushes
asks the processor to remove translations, whatever table they are of; the processor may remove
more. -/
inductive Machine.Step (m : Machine B M H) : Machine B M H → Prop
  | fill (t : ℕ) (v : VirtAddr) (a : Translation) {x : PageTable32 B M A32PTE H}
    (hx : m.sys.tables t = some x) (ha : (x.query v m.sys.world).1 = .ok a) :
    Step m { m with tlb := ((t, v), a) :: m.tlb }
  | evict (tlb : List ((ℕ × VirtAddr) × Translation)) (h : tlb ⊆ m.tlb) :
    Step m { m with tlb := tlb }
  | new : Step m { m with sys := m.sys.exec .new }
  | drop (t : ℕ) (h : m.cursors t = none) (hc : m.sys.Careful (.drop t)) :
    Step m { m with sys := m.sys.exec (.drop t) }
  | cursor (t : ℕ) (hx : (m.sys.tables t).isSome = true) (h : m.cursors t = none) :
    Step m { m with cursors := Function.update m.cursors t (some .none) }
  | call (t : ℕ) {flusher : TlbFlusher 32} (h : m.cursors t = some flusher) (c : Call)
    (hc : c.Plain) : Step m (m.cursorExec t flusher (.call t c))
  | copy (t src : ℕ) (start : VirtAddr) (size : Usize) {flusher : TlbFlusher 32}
    (h : m.cursors t = some flusher) (hne : t ≠ src)
    (hc : m.sys.Careful (.copy t src start size)) :
    Step m (m.cursorExec t flusher (.copy t src start size))
  | flush (t : ℕ) {flusher : TlbFlusher 32} (h : m.cursors t = some flusher)
    {calls : List (Option VirtAddr)} {w : World A32PTE σ}
    (hcalls : Bits32.flush (m.sys.resume flusher).world = (.ok calls, w))
    (tlb : List ((ℕ × VirtAddr) × Translation)) (hsub : tlb ⊆ m.tlb)
    (hgone : ∀ f ∈ tlb, ¬Flushed calls f.1.2 f.2.2.2) (closed : Bool) :
    Step m
      { sys := m.sys.withWorld w
        cursors := Function.update m.cursors t (if closed then none else some w.flusher)
        tlb := tlb }

/-- The states of a run. -/
def Machine.Run : Machine B M H → Machine B M H → Prop := Relation.ReflTransGen Machine.Step

/-- What is cached for a table is what `query` answers. -/
def System.Translates (s : System B M H) (k : ℕ × VirtAddr) (a : Translation) : Prop :=
  ∀ x, s.tables k.1 = some x → (x.query k.2 s.world).1 = .ok a

/-- A cursor with these flushes pending removes a translation when it flushes. -/
def Covers (flusher : TlbFlusher 32) (k : ℕ × VirtAddr) (a : Translation) : Prop :=
  Flushed flusher.calls k.2 a.2.2

/-- The invariant of a run. -/
structure Machine.Inv (inUse : σ → Set ℕ) (m : Machine B M H) : Prop where
  ledger : ∃ L, LedgerInv inUse m.sys L
  known {t : ℕ} {v : VirtAddr} {a : Translation} : ((t, v), a) ∈ m.tlb → t < m.sys.next
  coherent : Coherent m.sys.Translates Covers {f | f ∈ m.tlb} m.cursors

theorem Machine.Blank.inv {m : Machine B M H} (h : m.Blank) (inUse : σ → Set ℕ) :
    m.Inv inUse := by
  obtain ⟨hsys, -, htlb⟩ := h
  refine ⟨⟨_, hsys.ledger inUse⟩, ?_, ?_⟩
  · rw [htlb]
    intro t v a hc
    exact absurd hc List.not_mem_nil
  · rw [htlb]
    exact (Coherent.empty _ _ _).evict fun f hf => absurd hf List.not_mem_nil

/-! ### Translations under the calls -/

section Translates

variable {s : System B M H} {L : Ledger} {t t' : ℕ} {v : VirtAddr} {a : Translation}
  {x y : PageTable32 B M A32PTE H}

/-- `query` answers by the mapping of the address. -/
theorem query_congr (hroot : y.rootPaddr = x.rootPaddr)
    (h : leafAt x.rootPaddr v w'.mem = leafAt x.rootPaddr v w.mem) :
    (y.query v w').1 = (x.query v w).1 := by
  rw [query_eq_leafAt, query_eq_leafAt, hroot, h]

/-- What a table answers changes only if a flush of the page is pending afterwards. -/
theorem Tracked.translates (h : Tracked x.rootPaddr w w') (hquery : (x.query v w).1 = .ok a) :
    (x.query v w').1 = .ok a ∨ Flushed w'.flusher.calls v a.2.2 := by
  obtain hsame | hbefore := h.leaf v
  · exact Or.inl ((query_congr rfl hsame).trans hquery)
  · right
    rw [query_eq_leafAt] at hquery
    rcases hleaf : leafAt x.rootPaddr v w.mem with _ | ⟨e, size⟩
    · rw [hleaf] at hquery
      cases hquery
    · rw [hleaf] at hquery
      obtain rfl := Res.ok.inj hquery
      exact hbefore e size hleaf

theorem LedgerInv.resume (I : LedgerInv inUse s L) (flusher : TlbFlusher 32) :
    LedgerInv inUse (s.resume flusher) L :=
  I.congr I.safe rfl Set.Subset.rfl fun _ _ _ _ => Or.inl rfl

/-- What is pending does not matter to `query`. -/
theorem System.translates_resume (flusher : TlbFlusher 32) (k : ℕ × VirtAddr) :
    (s.resume flusher).Translates k a ↔ s.Translates k a :=
  forall_congr' fun x => imp_congr_right fun _ => by
    have hsame : (x.query k.2 (s.resume flusher).world).1 = (x.query k.2 s.world).1 :=
      query_congr rfl rfl
    rw [hsame]

/-- A new page table is none for which anything is cached. -/
theorem LedgerInv.new_translates (hH : FreshBlocks H inUse) (I : LedgerInv inUse s L)
    (ht : t < s.next) (h : s.Translates (t, v) a) : (s.exec .new).Translates (t, v) a := by
  intro x hx
  have hold : s.tables t = some x := by
    obtain ⟨table, w, hnew⟩ | ⟨os, -, hnew⟩ := tryNew_cases (B := B) (M := M) (H := H) s.world
    · rw [System.exec_new_ok hnew] at hx
      obtain ⟨rfl, -⟩ | ⟨-, hx⟩ := System.enrol_cases hx
      · exact absurd ht (lt_irrefl _)
      · exact hx
    · rw [System.exec_new_err hnew] at hx
      exact hx
  exact (query_congr rfl (I.new_leafAt hH hold v)).trans (h x hold)

theorem LedgerInv.drop_translates (hH : FreshBlocks H inUse) (I : LedgerInv inUse s L)
    (h : s.Translates (t', v) a) : (s.exec (.drop t)).Translates (t', v) a := by
  rcases hx : s.tables t with _ | x
  · rw [System.exec, hx]
    exact h
  · obtain ⟨w, hdrop, hmem, -⟩ := I.drop_eq hH hx
    intro y hy
    rw [System.exec, hx] at hy ⊢
    dsimp only at hy ⊢
    rw [hdrop]
    by_cases ht : t' = t
    · rw [ht, Function.update_self] at hy
      cases hy
    · rw [Function.update_of_ne ht] at hy
      exact (query_congr rfl (by rw [hmem])).trans (h y hy)

/-- A call of a cursor keeps the translations of all tables, apart from those that it will flush. -/
theorem LedgerInv.call_translates (hH : FreshBlocks H inUse) (I : LedgerInv inUse s L)
    {c : Call} (hc : c.Plain) (h : s.Translates (t', v) a) :
    (s.exec (.call t c)).Translates (t', v) a ∨
      Flushed (s.exec (.call t c)).world.flusher.calls v a.2.2 := by
  rcases hx : s.tables t with _ | x
  · rw [System.exec, hx]
    exact Or.inl h
  · by_cases hf : Flushed (s.exec (.call t c)).world.flusher.calls v a.2.2
    · exact Or.inr hf
    · rw [System.exec, hx] at hf ⊢
      refine Or.inl fun y hy => ?_
      have htracked := I.tracked_elsewhere hH hx hy hc
      exact (htracked.translates (h y hy)).resolve_right hf

theorem LedgerInv.copy_translates (hH : FreshBlocks H inUse) (I : LedgerInv inUse s L)
    {src : ℕ} (hne : t ≠ src) (start : VirtAddr) (size : Usize)
    (h : s.Translates (t', v) a) :
    (s.exec (.copy t src start size)).Translates (t', v) a ∨
      Flushed (s.exec (.copy t src start size)).world.flusher.calls v a.2.2 := by
  rcases hx : s.tables t with _ | x
  · rw [System.exec, hx]
    exact Or.inl h
  rcases hr : s.tables src with _ | r
  · rw [System.exec, hx, hr]
    exact Or.inl h
  obtain ⟨-, heq⟩ | ⟨w, heq, hcase, C, -⟩ := I.copy_eq hH hne hx hr start size
  · rw [System.exec_copy_panic hx hr heq]
    exact Or.inl h
  rw [System.exec_copy_ok hx hr heq]
  obtain ⟨hempty, -⟩ | hfull := hcase
  · -- nothing has been copied
    left
    intro y hy
    have hold : ∃ y₀, s.tables t' = some y₀ ∧ y.rootPaddr = y₀.rootPaddr := by
      dsimp only at hy
      by_cases ht : t' = t
      · rw [ht, Function.update_self, Option.some_inj] at hy
        exact ⟨x, ht ▸ hx, by rw [← hy]; rfl⟩
      · rw [Function.update_of_ne ht] at hy
        exact ⟨y, hy, rfl⟩
    obtain ⟨y₀, hy₀, hroot⟩ := hold
    have hentry : ∀ slot : Slot, w.entry slot = s.world.entry slot := fun slot =>
      C.outside fun i hi => by
        rw [hempty] at hi
        exact hi.elim
    refine (query_congr hroot ?_).trans (h y₀ hy₀)
    exact Bits32.leafAt_congr (hentry _) fun _ _ => hentry _
  · right
    rw [hfull]
    exact Or.inl List.mem_cons_self

end Translates

/-! ### Runs of the machine -/

theorem System.le_next_exec (s : System B M H) (c : SystemCall) : s.next ≤ (s.exec c).next := by
  cases c with
  | new =>
    obtain ⟨table, w, hnew⟩ | ⟨os, -, hnew⟩ := tryNew_cases (B := B) (M := M) (H := H) s.world
    · rw [System.exec_new_ok hnew]
      exact Nat.le_succ _
    · rw [System.exec_new_err hnew]
      rfl
  | call t c =>
    rw [System.exec]
    split <;> rfl
  | copy dst src start size =>
    rw [System.exec]
    split
    · split <;> rfl
    · rfl
  | drop t =>
    rw [System.exec]
    split <;> rfl

/-- The calls of a cursor. -/
def SystemCall.ByCursor (t : ℕ) (c : SystemCall) : Prop :=
  (∃ c' : Call, c'.Plain ∧ c = .call t c') ∨
    ∃ src start size, t ≠ src ∧ c = .copy t src start size

theorem SystemCall.ByCursor.valid {t : ℕ} {c : SystemCall} (h : c.ByCursor t) :
    System.Valid c := by
  obtain ⟨c', hc, rfl⟩ | ⟨src, start, size, hne, rfl⟩ := h
  · exact hc.grants
  · exact hne

/-- A call of a cursor takes back no flush. -/
theorem LedgerInv.pending (hH : FreshBlocks H inUse) {s : System B M H} {L : Ledger}
    (I : LedgerInv inUse s L) {t : ℕ} {c : SystemCall} (hactor : c.ByCursor t)
    {v : VirtAddr} {size : PageSize} (h : Flushed s.world.flusher.calls v size) :
    Flushed (s.exec c).world.flusher.calls v size := by
  rcases hx : s.tables t with _ | x
  · obtain ⟨c', -, rfl⟩ | ⟨src, start, n, -, rfl⟩ := hactor
    · rwa [System.exec, hx]
    · rwa [System.exec, hx]
  · obtain ⟨c', hc, rfl⟩ | ⟨src, start, n, hne, rfl⟩ := hactor
    · rw [System.exec, hx]
      exact (I.tracked_elsewhere hH hx hx hc).keeps h
    · rcases hr : s.tables src with _ | r
      · rwa [System.exec, hx, hr]
      obtain ⟨-, heq⟩ | ⟨w, heq, ⟨-, hsame⟩ | hfull, -, -⟩ := I.copy_eq hH hne hx hr start n
      · rwa [System.exec_copy_panic hx hr heq]
      · rw [System.exec_copy_ok hx hr heq, hsame]
        exact h
      · rw [System.exec_copy_ok hx hr heq, hfull]
        exact Or.inl List.mem_cons_self

/-- A call of a cursor keeps the invariant. -/
theorem Machine.Inv.cursorExec (hH : FreshBlocks H inUse) {m : Machine B M H} (I : m.Inv inUse)
    {t : ℕ} {flusher : TlbFlusher 32} (h : m.cursors t = some flusher) {c : SystemCall}
    (hc : m.sys.Careful c) (hactor : c.ByCursor t) : (m.cursorExec t flusher c).Inv inUse := by
  obtain ⟨⟨L, I₀⟩, hknown, hcoherent⟩ := I
  have I₁ := I₀.resume flusher
  obtain ⟨L', I', -⟩ := I₁.exec hH hactor.valid hc
  have hnext := (m.sys.resume flusher).le_next_exec c
  refine ⟨⟨L', I'⟩, fun hf => (hknown hf).trans_le hnext, ?_⟩
  refine hcoherent.change h (fun k a _ hcov => I₁.pending hH hactor hcov) fun k a _ hk => ?_
  have hk' : (m.sys.resume flusher).Translates (k.1, k.2) a :=
    (System.translates_resume flusher k).mpr hk
  obtain ⟨c', hplain, rfl⟩ | ⟨src, start, size, hne, rfl⟩ := hactor
  · exact I₁.call_translates hH hplain hk'
  · exact I₁.copy_translates hH hne start size hk'

/-- A step of the machine keeps the invariant. -/
theorem Machine.Step.inv (hH : FreshBlocks H inUse) {m m' : Machine B M H} (I : m.Inv inUse)
    (h : m.Step m') : m'.Inv inUse := by
  have I₀ := I
  obtain ⟨⟨L, I⟩, hknown, hcoherent⟩ := I
  cases h with
  | fill t v a hx ha =>
    refine ⟨⟨L, I⟩, fun {t' v' a'} hf => ?_, ?_⟩
    · obtain heq | hf := List.mem_cons.mp hf
      · rw [Prod.mk.injEq, Prod.mk.injEq] at heq
        rw [heq.1.1]
        exact I.lt_next hx
      · exact hknown hf
    · have hfill := hcoherent.fill (k := (t, v)) (a := a) fun x' hx' => by
        obtain rfl := Option.some_inj.mp (hx.symm.trans hx')
        exact ha
      exact hfill.evict fun f hf => List.mem_cons.mp hf
  | evict tlb hsub =>
    exact ⟨⟨L, I⟩, fun hf => hknown (hsub hf), hcoherent.evict hsub⟩
  | new =>
    obtain ⟨L', I', -⟩ := I.exec hH (c := .new) trivial trivial
    refine ⟨⟨L', I'⟩, fun hf => (hknown hf).trans_le (m.sys.le_next_exec .new), ?_⟩
    exact hcoherent.unseen fun k a hf h => I.new_translates hH (hknown hf) h
  | drop t hclosed hc =>
    obtain ⟨L', I', -⟩ := I.exec hH (c := .drop t) trivial hc
    refine ⟨⟨L', I'⟩, fun hf => (hknown hf).trans_le (m.sys.le_next_exec _), ?_⟩
    exact hcoherent.unseen fun k a _ h => I.drop_translates hH h
  | cursor t hx hclosed => exact ⟨⟨L, I⟩, hknown, hcoherent.enter hclosed _⟩
  | call t hopen c hc => exact I₀.cursorExec hH hopen trivial (Or.inl ⟨c, hc, rfl⟩)
  | copy t src start size hopen hne hc =>
    exact I₀.cursorExec hH hopen hc (Or.inr ⟨src, start, size, hne, rfl⟩)
  | @flush t flusher hopen calls w hcalls tlb hsub hgone closed =>
    obtain ⟨hok, rfl⟩ := Prod.mk.inj hcalls
    obtain rfl := Res.ok.inj hok
    refine ⟨⟨L, I.resume .none⟩, fun hf => hknown (hsub hf), ?_⟩
    have hflush := hcoherent.flush hopen hsub (fun k a hf => hgone (k, a) hf)
      (if closed then none else some .none)
    exact hflush.unseen fun k a _ h =>
      (System.translates_resume .none k).mpr ((System.translates_resume flusher k).mpr h)

/-- In every state of a run. -/
theorem Machine.Run.inv (hH : FreshBlocks H inUse) {m m' : Machine B M H} (I : m.Inv inUse)
    (h : m.Run m') : m'.Inv inUse := by
  induction h with
  | refl => exact I
  | tail _ hstep ih => exact hstep.inv hH ih

/-- In every run of plain calls and careful copies and drops, whatever cursors are open on whatever
tables: a translation that is cached is what `query` answers, or an open cursor has a flush pending
that removes it; and without pending flushes it is what `query` answers. -/
theorem a32_tlb_coherent (hH : FreshBlocks H inUse) {m₀ m : Machine B M H} (h₀ : m₀.Blank)
    (h : m₀.Run m) {t : ℕ} {x : PageTable32 B M A32PTE H} (hx : m.sys.tables t = some x)
    {v : VirtAddr} {a : Translation} (ha : ((t, v), a) ∈ m.tlb) :
    ((x.query v m.sys.world).1 = .ok a ∨ ∃ c flusher, m.cursors c = some flusher ∧
      Flushed flusher.calls v a.2.2) ∧
    ((∀ c flusher, m.cursors c = some flusher → flusher.calls = []) →
      (x.query v m.sys.world).1 = .ok a) := by
  have I := h.inv hH (h₀.inv inUse)
  refine ⟨(I.coherent (t, v) a ha).imp_left fun h => h x hx, fun hnone => ?_⟩
  refine I.coherent.exact (fun c flusher hc k a hcov => ?_) ha x hx
  rw [Covers, Flushed, hnone c flusher hc] at hcov
  obtain h | ⟨addr, h, -⟩ := hcov
  · exact absurd h List.not_mem_nil
  · exact absurd h List.not_mem_nil

/-- A machine on which nothing has been done. -/
def tlbStart : Machine ⟨true, true⟩ A32PagingMetaData blockHandler where
  sys := blocksStart
  cursors _ := none
  tlb := []

/-- The cursor of table 0 has mapped a page, and there is one of table 1. -/
def mappedPage : Machine ⟨true, true⟩ A32PagingMetaData blockHandler :=
  let m : Machine ⟨true, true⟩ A32PagingMetaData blockHandler :=
    ⟨(blocksStart.exec .new).exec .new, Function.update (fun _ => none) 0 (some .none), []⟩
  let m' := m.cursorExec 0 .none (.call 0 (.map 0x100000 0x7000 .size4K .READ))
  { m' with cursors := Function.update m'.cursors 1 (some .none) }

/-- Table 1 has borrowed the page, and a translation of it is cached. -/
def lentPage : Machine ⟨true, true⟩ A32PagingMetaData blockHandler :=
  { mappedPage.cursorExec 1 .none (.copy 1 0 0x100000 0x100000) with
    tlb := [((1, 0x100123), (0x7123, ⟨3⟩, .size4K))] }

/-- The cursor of table 0 unmaps it. -/
def unmappedPage : Machine ⟨true, true⟩ A32PagingMetaData blockHandler :=
  lentPage.cursorExec 0 (.array [0x100000]) (.call 0 (.unmap 0x100000))

/-- Nobody has borrowed from table 1 yet. -/
theorem mappedPage_careful : mappedPage.sys.Careful (.copy 1 0 0x100000 0x100000) := by
  have hnone : blocksStart.Lent Ledger.blank [] := fun _ _ _ _ _ _ hp => hp.elim
  obtain ⟨L₁, I₁, -, h₁⟩ := (blocksStart_blank.ledger blockInUse).exec freshBlocks_blockHandler
    (c := .new) trivial trivial
  obtain ⟨L₂, I₂, -, h₂⟩ := I₁.exec freshBlocks_blockHandler (c := .new) trivial trivial
  have hcalls : (((blocksStart.exec .new).exec .new).resume .none).EachCall System.Careful
      [.call 0 (.map 0x100000 0x7000 .size4K .READ), .copy 1 0 0x100000 0x100000] :=
    (I₂.resume .none).careful_of_nested freshBlocks_blockHandler (h₂ _ (h₁ _ hnone))
      (by decide) (by decide)
  exact hcalls.2.1

theorem a32_tlb_coherent_run : tlbStart.Run unmappedPage ∧
    ∃ x, unmappedPage.sys.tables 1 = some x ∧
      ((x.query 0x100123 unmappedPage.sys.world).1 = .ok (0x7123, ⟨3⟩, .size4K) ∨
        ∃ c flusher, unmappedPage.cursors c = some flusher ∧
          Flushed flusher.calls 0x100123 .size4K) ∧
      ((∀ c flusher, unmappedPage.cursors c = some flusher → flusher.calls = []) →
        (x.query 0x100123 unmappedPage.sys.world).1 = .ok (0x7123, ⟨3⟩, .size4K)) := by
  obtain ⟨h0, h1, hquery, hpending, htable⟩ :
      (((blocksStart.exec .new).exec .new).tables 0).isSome = true ∧
      (mappedPage.sys.tables 1).isSome = true ∧
      (lentPage.sys.tables 1).map (fun x => (x.query 0x100123 lentPage.sys.world).1) =
        some (.ok (0x7123, ⟨3⟩, .size4K)) ∧
      lentPage.cursors 0 = some (.array [0x100000]) ∧
      (unmappedPage.sys.tables 1).isSome = true := by
    decide +kernel
  obtain ⟨x₁, hx₁, ha⟩ := Option.map_eq_some_iff.mp hquery
  obtain ⟨x, hx⟩ := Option.isSome_iff_exists.mp htable
  have hnew : tlbStart.Run ⟨(blocksStart.exec .new).exec .new, fun _ => none, []⟩ :=
    .tail (.single .new) .new
  have hmapped : tlbStart.Run mappedPage := by
    refine .tail (.tail (hnew.tail (.cursor 0 h0 rfl)) (.call 0 rfl _ ?_)) (.cursor 1 h1 rfl)
    decide
  have hlent : tlbStart.Run lentPage :=
    .tail (hmapped.tail (.copy 1 0 0x100000 0x100000 rfl (by decide) mappedPage_careful))
      (.fill 1 0x100123 (0x7123, ⟨3⟩, .size4K) hx₁ ha)
  have hrun : tlbStart.Run unmappedPage := hlent.tail (.call 0 hpending _ trivial)
  exact ⟨hrun, x, hx, a32_tlb_coherent freshBlocks_blockHandler
    ⟨blocksStart_blank, fun _ => rfl, rfl⟩ hrun hx (List.mem_singleton.mpr rfl)⟩

end PageTableMultiarch.Bits32
