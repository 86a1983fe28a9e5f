/-
The ledger under the calls of one page table in a system.

* `LedgerInv.congr` — what points to tables is as it was;
* `LedgerInv.attach` — a new second level table, which is leaked if the entry is borrowed;
* `LedgerInv.call` — a call keeps some ledger right, and leaks a table only if it creates one
  under a borrowed entry.
-/
import PageTableMultiarch.Table32.System

namespace PageTableMultiarch.Bits32

open GenericPTE A32PTE MemEvent

variable {B : Build} {M : PagingMetaData} {σ : Type} {H : PagingHandler 32 σ}
  {inUse : σ → Set ℕ} {s : System B M H} {L : Ledger} {t : ℕ} {x : PageTable32 B M A32PTE H}

/-- The system in another state of memory. -/
def System.withWorld (s : System B M H) (w : World A32PTE σ) : System B M H := { s with world := w }

/-- A system in which the first levels point to the same tables, and the same is allocated. -/
theorem LedgerInv.congr (I : LedgerInv inUse s L) {w' : World A32PTE σ} (hsafe : Safe w'.trace)
    (hlive : MemEvent.live w'.trace = MemEvent.live s.world.trace)
    (hos : inUse s.world.os ⊆ inUse w'.os)
    (hl1 : ∀ t x, s.tables t = some x → ∀ i,
      w'.entry (l1At x.rootPaddr i) = s.world.entry (l1At x.rootPaddr i) ∨
        PlainEntry (s.world.entry (l1At x.rootPaddr i)) ∧
          PlainEntry (w'.entry (l1At x.rootPaddr i))) : LedgerInv inUse (s.withWorld w') L where
  safe := hsafe
  live := by
    have hsame : (s.withWorld w').roots = s.roots := rfl
    rw [System.withWorld, hlive, I.live, ← hsame]
    rfl
  root_aligned hx := I.root_aligned hx
  root_ne_zero hx := I.root_ne_zero hx
  root_inUse hx n hn := hos (I.root_inUse hx n hn)
  root_inj hx hy h := I.root_inj hx hy h
  sub_aligned hp := I.sub_aligned hp
  sub_ne_zero hp := I.sub_ne_zero hp
  sub_inUse hp := hos (I.sub_inUse hp)
  sub_apart hx hp := I.sub_apart hx hp
  entry {t x} hx i := by
    obtain heq | ⟨-, hplain⟩ := hl1 t x hx i
    · have hentry := I.entry hx i
      rw [← heq] at hentry
      exact hentry
    · exact Or.inl hplain
  owner {t p} hp ht := by
    obtain ⟨x, hx, hb, he⟩ := I.owner hp ht
    obtain heq | ⟨hplain, -⟩ := hl1 t x hx (L.index p)
    · exact ⟨x, hx, hb, heq.trans he⟩
    · exact absurd he (hplain.sectionEntry.ne_newTable p)
  lt_next hx := I.lt_next hx

/-- What pointed to a table still points to it, so no other entries are lent. -/
theorem System.Lent.congr {R : List (ℕ × ℕ)} (hR : s.Lent L R) {w' : World A32PTE σ}
    (hl1 : ∀ t x, s.tables t = some x → ∀ i,
      w'.entry (l1At x.rootPaddr i) = s.world.entry (l1At x.rootPaddr i) ∨
        PlainEntry (s.world.entry (l1At x.rootPaddr i)) ∧
          PlainEntry (w'.entry (l1At x.rootPaddr i))) : (s.withWorld w').Lent L R := by
  intro t x i p z hx hp hz he hne
  obtain heq | ⟨-, hplain⟩ := hl1 t x hx i
  · exact hR t x i p z hx hp hz (heq.symm.trans he) hne
  · exact absurd he (hplain.sectionEntry.ne_newTable p)

/-! ### What a call changes -/

/-- The entries of table `x` that pointed to a table still do, and a table is leaked if one was
before or a borrowed entry points to a table that did not. -/
structure Grown (x : PageTable32 B M A32PTE H) (w w' : World A32PTE σ) (L L' : Ledger) : Prop where
  keeps (i : Fin ENTRY_COUNT) : links (w.entry (l1At x.rootPaddr i)) = true →
    links (w'.entry (l1At x.rootPaddr i)) = true
  leaks : L'.Leaks ↔ L.Leaks ∨ ∃ i, x.borrowedEntries i = true ∧
    links (w.entry (l1At x.rootPaddr i)) = false ∧
      links (w'.entry (l1At x.rootPaddr i)) = true

variable {w w' w'' : World A32PTE σ} {L' L'' : Ledger}

theorem Grown.of_links (h : ∀ i, links (w'.entry (l1At x.rootPaddr i)) =
    links (w.entry (l1At x.rootPaddr i))) : Grown x w w' L L where
  keeps i hi := by
    rw [h]
    exact hi
  leaks := by
    refine ⟨Or.inl, ?_⟩
    rintro (hl | ⟨i, -, hbefore, hafter⟩)
    · exact hl
    · rw [h, hbefore] at hafter
      exact absurd hafter Bool.false_ne_true

theorem Grown.trans (h : Grown x w w' L L') (h' : Grown x w' w'' L' L'') :
    Grown x w w'' L L'' where
  keeps i hi := h'.keeps i (h.keeps i hi)
  leaks := by
    rw [h'.leaks, h.leaks]
    constructor
    · rintro ((hl | ⟨i, hb, hbefore, hafter⟩) | ⟨i, hb, hbefore, hafter⟩)
      · exact Or.inl hl
      · exact Or.inr ⟨i, hb, hbefore, h'.keeps i hafter⟩
      · refine Or.inr ⟨i, hb, ?_, hafter⟩
        rw [Bool.eq_false_iff]
        intro hlink
        rw [h.keeps i hlink] at hbefore
        exact absurd hbefore.symm Bool.false_ne_true
    · rintro (hl | ⟨i, hb, hbefore, hafter⟩)
      · exact Or.inl (Or.inl hl)
      · cases hmid : links (w'.entry (l1At x.rootPaddr i)) with
        | true => exact Or.inl (Or.inr ⟨i, hb, hbefore, hmid⟩)
        | false => exact Or.inr ⟨i, hb, hmid, hafter⟩

/-! ### A new second level table -/

/-- The ledger with a table that lies under entry `i` of table `x`, which has number `t`. -/
def Ledger.enter (L : Ledger) (t : ℕ) (x : PageTable32 B M A32PTE H) (i : Fin ENTRY_COUNT)
    (p : PhysAddr) : Ledger where
  subs := insert p L.subs
  index := Function.update L.index p i
  owner := Function.update L.owner p (if x.borrowedEntries i then none else some t)

section Attach

variable {p : PhysAddr} {os : σ} {i : Fin ENTRY_COUNT}

/-- A new frame holds no table of the ledger. -/
theorem LedgerInv.fresh (hH : FreshBlocks H inUse) (I : LedgerInv inUse s L)
    (ha : H.allocFrame s.world.os = (some p, os)) : p ∉ L.subs := fun hp =>
  hH.fresh ha (I.sub_inUse hp)

/-- The first levels after a table has been attached. -/
theorem LedgerInv.attach_entry (hH : FreshBlocks H inUse) (I : LedgerInv inUse s L)
    (hx : s.tables t = some x) (ha : H.allocFrame s.world.os = (some p, os)) {t' : ℕ}
    {y : PageTable32 B M A32PTE H} (hy : s.tables t' = some y) (j : Fin ENTRY_COUNT) :
    ((s.world.grant p os).store (l1At x.rootPaddr i) (newTable p)).entry (l1At y.rootPaddr j) =
      if t' = t ∧ j = i then newTable p else s.world.entry (l1At y.rootPaddr j) := by
  rw [Bits32.attach_entry hH.toFreshFrames x.rootPaddr ha,
    if_neg ((I.layout hy).l1_ne_fresh hH.toFreshFrames ha j)]
  refine if_congr ⟨fun heq => ?_, ?_⟩ rfl rfl
  · by_cases ht : t' = t
    · subst ht
      obtain rfl := Option.some_inj.mp (hx.symm.trans hy)
      exact ⟨rfl, l1At_inj (I.root_aligned hx) heq⟩
    · exact absurd heq (I.l1_ne hx hy ht j i)
  · rintro ⟨rfl, rfl⟩
    obtain rfl := Option.some_inj.mp (hx.symm.trans hy)
    rfl

theorem LedgerInv.attach (hH : FreshBlocks H inUse) (I : LedgerInv inUse s L)
    (hx : s.tables t = some x) (ha : H.allocFrame s.world.os = (some p, os))
    (hu : isUnused (s.world.entry (l1At x.rootPaddr i)) = true) :
    LedgerInv inUse (s.withWorld ((s.world.grant p os).store (l1At x.rootPaddr i) (newTable p)))
      (L.enter t x i p) := by
  have hfresh := I.fresh hH ha
  have hsub := hH.alloc ha
  have hroot : x.root ∈ MemEvent.live s.world.trace := by
    rw [I.live]
    exact Or.inl ⟨t, x, hx, rfl⟩
  have hdead : pageTable p ∉ MemEvent.live s.world.trace := by
    rw [I.live]
    rintro (⟨t', y, -, heq⟩ | ⟨q, hq, heq⟩)
    · exact absurd (congrArg Table.frames heq) (by decide : 1 ≠ L1_SIZE_PAGES)
    · obtain rfl : q = p := congrArg Table.paddr heq
      exact hfresh hq
  -- the tables that were there before keep their places in the ledger
  have hkept : ∀ {q}, q ∈ L.subs → (L.enter t x i p).index q = L.index q ∧
      (L.enter t x i p).owner q = L.owner q := by
    intro q hq
    have hne : q ≠ p := fun h => hfresh (h ▸ hq)
    exact ⟨Function.update_of_ne hne _ _, Function.update_of_ne hne _ _⟩
  have hindex : (L.enter t x i p).index p = i := Function.update_self _ _ _
  have howner : (L.enter t x i p).owner p = if x.borrowedEntries i then none else some t :=
    Function.update_self _ _ _
  refine ⟨⟨Or.inr hroot, Or.inl rfl, hdead, I.safe⟩, ?_, I.root_aligned, I.root_ne_zero,
    fun hy n hn => hsub (Or.inr (I.root_inUse hy n hn)), I.root_inj, ?_, ?_, ?_, ?_, ?_, ?_,
    I.lt_next⟩
  · show insert (pageTable p) (MemEvent.live s.world.trace) = s.roots ∪ pageTable '' insert p L.subs
    rw [I.live, Set.image_insert_eq, Set.union_insert]
  · rintro q (rfl | hq)
    · exact hH.aligned ha
    · exact I.sub_aligned hq
  · rintro q (rfl | hq)
    · exact hH.ne_zero ha
    · exact I.sub_ne_zero hq
  · rintro q (rfl | hq)
    · exact hsub (Or.inl rfl)
    · exact hsub (Or.inr (I.sub_inUse hq))
  · rintro t' y q hy (rfl | hq)
    · exact fun hn => hH.fresh ha (I.root_inUse hy _ hn)
    · exact I.sub_apart hy hq
  · intro t' y hy j
    rw [System.withWorld, I.attach_entry hH hx ha hy j]
    split
    · next hnew =>
      obtain ⟨rfl, rfl⟩ := hnew
      obtain rfl := Option.some_inj.mp (hx.symm.trans hy)
      refine Or.inr ⟨p, Or.inl rfl, rfl, hindex, ?_⟩
      rw [howner]
      cases x.borrowedEntries j <;> simp
    · obtain hplain | ⟨q, hq, he, hj, hown⟩ := I.entry hy j
      · exact Or.inl hplain
      · obtain ⟨h1, h2⟩ := hkept hq
        exact Or.inr ⟨q, Or.inr hq, he, h1.trans hj, by rw [h2]; exact hown⟩
  · rintro t' q (rfl | hq) ht'
    · rw [howner] at ht'
      cases hb : x.borrowedEntries i with
      | true =>
        rw [hb] at ht'
        cases ht'
      | false =>
        rw [hb] at ht'
        obtain rfl : t = t' := Option.some_inj.mp ht'
        refine ⟨x, hx, by rw [hindex]; exact hb, ?_⟩
        rw [System.withWorld, I.attach_entry hH hx ha hx, hindex, if_pos ⟨rfl, rfl⟩]
    · obtain ⟨h1, h2⟩ := hkept hq
      rw [h2] at ht'
      obtain ⟨y, hy, hb, he⟩ := I.owner hq ht'
      refine ⟨y, hy, by rw [h1]; exact hb, ?_⟩
      rw [System.withWorld, I.attach_entry hH hx ha hy, h1, if_neg, he]
      -- the entry was unused, so it is another one
      rintro ⟨rfl, hi⟩
      obtain rfl := Option.some_inj.mp (hx.symm.trans hy)
      rw [hi] at he
      rw [he, isUnused_newTable] at hu
      exact absurd hu Bool.false_ne_true

/-- What is new is not lent. -/
theorem LedgerInv.attach_lent (hH : FreshBlocks H inUse) (I : LedgerInv inUse s L)
    (hx : s.tables t = some x) (ha : H.allocFrame s.world.os = (some p, os)) {R : List (ℕ × ℕ)}
    (hR : s.Lent L R) :
    (s.withWorld ((s.world.grant p os).store (l1At x.rootPaddr i) (newTable p))).Lent
      (L.enter t x i p) R := by
  intro t' y j q z hy hq hz he hne
  have hy' : s.tables t' = some y := hy
  have hself : (L.enter t x i p).owner p = if x.borrowedEntries i then none else some t :=
    Function.update_self _ _ _
  rw [System.withWorld, I.attach_entry hH hx ha hy'] at he
  split at he
  · next hnew =>
    -- the entry that points to the new table is one of its owner
    obtain ⟨rfl, rfl⟩ := hnew
    have hqa : q.toNat % 0x1000 = 0 := by
      obtain rfl | hq := hq
      · exact hH.aligned ha
      · exact I.sub_aligned hq
    obtain rfl := newTable_inj (hH.aligned ha) hqa he
    rw [hself] at hz
    split at hz
    · cases hz
    · exact absurd (Option.some_inj.mp hz).symm hne
  · obtain rfl | hq := hq
    · -- no old entry points to the new table
      exact absurd (I.pointer hy' he (hH.aligned ha)).1 (I.fresh hH ha)
    · have hqp : q ≠ p := fun h => I.fresh hH ha (h ▸ hq)
      have howner : (L.enter t x i p).owner q = L.owner q := Function.update_of_ne hqp _ _
      exact hR t' y j q z hy' hq (howner.symm.trans hz) he hne

theorem LedgerInv.attach_grown (hH : FreshBlocks H inUse) (I : LedgerInv inUse s L)
    (hx : s.tables t = some x) (ha : H.allocFrame s.world.os = (some p, os))
    (hu : isUnused (s.world.entry (l1At x.rootPaddr i)) = true) :
    Grown x s.world ((s.world.grant p os).store (l1At x.rootPaddr i) (newTable p)) L
      (L.enter t x i p) := by
  have hfresh := I.fresh hH ha
  have hentry := fun j => I.attach_entry (i := i) hH hx ha hx j
  have howner : ∀ {q}, q ∈ L.subs → (L.enter t x i p).owner q = L.owner q := by
    intro q hq
    have hne : q ≠ p := fun h => hfresh (h ▸ hq)
    exact Function.update_of_ne hne _ _
  have hself : (L.enter t x i p).owner p = if x.borrowedEntries i then none else some t :=
    Function.update_self _ _ _
  constructor
  · intro j hj
    rw [hentry]
    split
    · exact links_newTable p
    · exact hj
  · constructor
    · rintro ⟨q, rfl | hq, hnone⟩
      · -- the new table has no owner: its entry is borrowed
        rw [hself] at hnone
        refine Or.inr ⟨i, ?_, (PlainEntry.links (Or.inl hu)), ?_⟩
        · by_contra hb
          rw [if_neg hb] at hnone
          cases hnone
        · rw [hentry, if_pos ⟨rfl, rfl⟩]
          exact links_newTable q
      · rw [howner hq] at hnone
        exact Or.inl ⟨q, hq, hnone⟩
    · rintro (⟨q, hq, hnone⟩ | ⟨j, hb, hbefore, hafter⟩)
      · exact ⟨q, Or.inr hq, (howner hq).trans hnone⟩
      · rw [hentry] at hafter
        split at hafter
        · next hnew =>
          obtain ⟨-, rfl⟩ := hnew
          refine ⟨p, Or.inl rfl, ?_⟩
          rw [hself, if_pos hb]
        · rw [hbefore] at hafter
          exact absurd hafter Bool.false_ne_true

end Attach

/-! ### Calls -/

/-- Each step keeps some ledger right. -/
theorem LedgerInv.step (hH : FreshBlocks H inUse) (I : LedgerInv inUse s L)
    (hx : s.tables t = some x) {V : VirtAddr → Prop}
    (h : Step H x.rootPaddr V PlainEntry s.world w') :
    ∃ L', LedgerInv inUse (s.withWorld w') L' ∧ Grown x s.world w' L L' ∧
      ∀ R, s.Lent L R → (s.withWorld w').Lent L' R := by
  have hlive := I.tables_subset hx
  -- the cases in which no table is made
  have hsame : Safe w'.trace → MemEvent.live w'.trace = MemEvent.live s.world.trace →
      inUse s.world.os ⊆ inUse w'.os → (∀ t x, s.tables t = some x → ∀ i,
        w'.entry (l1At x.rootPaddr i) = s.world.entry (l1At x.rootPaddr i) ∨
          PlainEntry (s.world.entry (l1At x.rootPaddr i)) ∧
            PlainEntry (w'.entry (l1At x.rootPaddr i))) →
      ∃ L', LedgerInv inUse (s.withWorld w') L' ∧ Grown x s.world w' L L' ∧
        ∀ R, s.Lent L R → (s.withWorld w').Lent L' R := by
    refine fun hsafe hlive hos hl1 => ⟨L, I.congr hsafe hlive hos hl1, .of_links fun i => ?_,
      fun R hR => hR.congr hl1⟩
    obtain heq | ⟨h1, h2⟩ := hl1 t x hx i
    · rw [heq]
    · rw [h1.links, h2.links]
  -- a store over an entry of the first level that points to no table
  have hstore : ∀ i e, PlainEntry (s.world.entry (l1At x.rootPaddr i)) → PlainEntry e →
      ∀ t' y, s.tables t' = some y → ∀ j,
        (s.world.store (l1At x.rootPaddr i) e).entry (l1At y.rootPaddr j) =
            s.world.entry (l1At y.rootPaddr j) ∨
          PlainEntry (s.world.entry (l1At y.rootPaddr j)) ∧
            PlainEntry ((s.world.store (l1At x.rootPaddr i) e).entry (l1At y.rootPaddr j)) := by
    intro i e hold he t' y hy j
    rw [World.store_entry]
    split
    · next heq =>
      right
      rw [World.entry] at hold ⊢
      rw [heq]
      exact ⟨hold, he⟩
    · exact Or.inl rfl
  have L₁ := I.layout hx
  cases h with
  | accessRoot =>
    exact hsame ⟨hlive root_mem_tables, I.safe⟩ rfl Set.Subset.rfl fun _ _ _ _ => Or.inl rfl
  | access v slot size h =>
    exact hsame ⟨hlive (L₁.find_mem_tables h), I.safe⟩ rfl Set.Subset.rfl fun _ _ _ _ => Or.inl rfl
  | flush fl => exact hsame I.safe rfl Set.Subset.rfl fun _ _ _ _ => Or.inl rfl
  | allocFail os h => exact hsame I.safe rfl (hH.alloc_none h) fun _ _ _ _ => Or.inl rfl
  | store v slot size e h hV he =>
    refine hsame ⟨hlive (L₁.find_mem_tables h), I.safe⟩ rfl Set.Subset.rfl ?_
    obtain ⟨hu, ⟨hh, rfl, hsize⟩ | ⟨hh, rfl, -⟩⟩ := find_cases h
    · exact hstore (p1Index v) e (Or.inr hh) (he hsize)
    · intro t' y hy j
      have hlink : links (s.world.entry (l1Slot x.rootPaddr v)) = true := by
        rw [links, hu, hh]
        rfl
      rw [World.store_entry, if_neg (I.l2_ne hx hy hlink v j)]
      exact Or.inl rfl
  | mapSection v e h hV he =>
    exact hsame ⟨hlive root_mem_tables, I.safe⟩ rfl Set.Subset.rfl
      (hstore (p1Index v) e (Or.inl h) he)
  | attach v p os h ha hV =>
    exact ⟨_, I.attach hH hx ha h, I.attach_grown hH hx ha h, fun R hR =>
      I.attach_lent hH hx ha hR⟩

theorem LedgerInv.steps (hH : FreshBlocks H inUse) (I : LedgerInv inUse s L)
    (hx : s.tables t = some x) {V : VirtAddr → Prop}
    (h : Steps H x.rootPaddr V PlainEntry s.world w') :
    ∃ L', LedgerInv inUse (s.withWorld w') L' ∧ Grown x s.world w' L L' ∧
      ∀ R, s.Lent L R → (s.withWorld w').Lent L' R := by
  induction h with
  | refl => exact ⟨L, I, .of_links fun _ => rfl, fun _ hR => hR⟩
  | tail _ hstep ih =>
    obtain ⟨L₁, I₁, G₁, hR₁⟩ := ih
    obtain ⟨L₂, I₂, G₂, hR₂⟩ := I₁.step hH (x := x) hx hstep
    exact ⟨L₂, I₂, G₁.trans G₂, fun R hR => hR₂ R (hR₁ R hR)⟩

/-- A call with access flags takes access from no section. -/
theorem Call.Grants.keepsAccess {c : Call} (hc : c.Grants) (self : PageTable32 B M A32PTE H)
    (w : World A32PTE σ) :
    c.EachPage (fun op w => op.KeepsAccess self.rootPaddr w) self w := by
  have hany : ∀ {f : MappingFlags 32}, f.isEmpty = false → ¬f.isEmpty = true := fun hf h => by
    rw [hf] at h
    cases h
  cases c with
  | query v => trivial
  | map v target size f => exact fun hf => absurd hf (hany hc)
  | remap v target f => exact fun hf => absurd hf (hany hc)
  | protect v f => exact fun hf => absurd hf (hany hc)
  | unmap v => trivial
  | mapRegion v getPaddr size f allowHuge =>
    intro _ _
    exact Rounds.of_forall (fun _ _ _ hf => absurd hf (hany hc)) _ _ _ _
  | unmapRegion v size => exact Rounds.of_forall (fun _ _ _ => trivial) _ _ _ _
  | protectRegion v size f =>
    exact Rounds.of_forall (fun _ _ _ hf => absurd hf (hany hc)) _ _ _ _

theorem Call.Grants.steps {c : Call} (hc : c.Grants) (self : PageTable32 B M A32PTE H)
    (w : World A32PTE σ) :
    Steps H self.rootPaddr (fun _ => True) PlainEntry w (c.next self w) :=
  c.steps self ((hc.keepsAccess self w).mono fun _ _ h => ⟨trivial, PageOp.stores_plainEntry h⟩)

/-- A call keeps some ledger right. -/
theorem LedgerInv.call (hH : FreshBlocks H inUse) (I : LedgerInv inUse s L)
    (hx : s.tables t = some x) {c : Call} (hc : c.Grants) :
    ∃ L', LedgerInv inUse (s.withWorld (c.next x s.world)) L' ∧
      Grown x s.world (c.next x s.world) L L' ∧
      ∀ R, s.Lent L R → (s.withWorld (c.next x s.world)).Lent L' R :=
  I.steps hH hx (hc.steps x s.world)

end PageTableMultiarch.Bits32
