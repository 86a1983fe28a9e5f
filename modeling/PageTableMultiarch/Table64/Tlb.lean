/-
Translations that a processor has cached.

The processor may read a translation from any page table at any time and keep it; a cursor
changes its table first and flushes later.  Several cursors may be open, on tables that
share entries.

* `Elsewhere.tracked` — a change that a cursor has recorded is recorded for every table
  that sees it;
* `Machine` — a system of page tables, its open cursors, and what is cached;
* `Machine.Run.inv` — in a run of careful calls what is cached is what `query` answers, or
  a flush of an open cursor that removes it is outstanding;
* `Arch.tlb_coherent` — for the architectures.
-/
import PageTableMultiarch.Lib.LazyCache
import PageTableMultiarch.Table64.Flush
import PageTableMultiarch.Table64.Sharing

namespace PageTableMultiarch

open GenericPTE Radix MemEvent LazyCache

variable {B : Build} {M : PagingMetaData} {PTE σ : Type} {H : PagingHandler 64 σ}

/-! ### What a flush removes -/

/-- The calls to the processor of one flush remove what is cached for an address as part
of a page of some size: everything goes, or an address of the page is named. -/
def Flushed (M : PagingMetaData) (calls : List (Option VirtAddr)) (v : VirtAddr)
    (size : PageSize) : Prop :=
  none ∈ calls ∨ ∃ addr, some addr ∈ calls ∧
    addr.toNat % M.space / size.bytes = v.toNat % M.space / size.bytes

instance (calls : List (Option VirtAddr)) (v : VirtAddr) (size : PageSize) :
    Decidable (Flushed M calls v size) :=
  decidable_of_iff (none ∈ calls ∨ ∃ c ∈ calls, ∃ addr ∈ c,
      addr.toNat % M.space / size.bytes = v.toNat % M.space / size.bytes) <| by
    refine or_congr_right ⟨?_, ?_⟩
    · rintro ⟨c, hc, addr, haddr, heq⟩
      rw [Option.mem_def] at haddr
      exact ⟨addr, haddr ▸ hc, heq⟩
    · rintro ⟨addr, haddr, heq⟩
      exact ⟨some addr, haddr, addr, rfl, heq⟩

/-- What is pending is removed, and nothing else. -/
theorem flushed_calls_iff (hL : M.LEVELS = 3 ∨ M.LEVELS = 4) (flusher : TlbFlusher 64)
    (v : VirtAddr) {k : ℕ} (hk : k ≤ 2) :
    Flushed M flusher.calls v (heightSize k) ↔ Pending M flusher k v := by
  have hsame : ∀ a, SamePage M k a v ↔
      a.toNat % M.space / (heightSize k).bytes = v.toNat % M.space / (heightSize k).bytes := by
    intro a
    rw [samePage_iff hL hk, bytes_heightSize hk]
  cases flusher with
  | none => simp [Flushed, TlbFlusher.calls, Pending]
  | full => simp [Flushed, TlbFlusher.calls, Pending]
  | array addrs => simp [Flushed, TlbFlusher.calls, Pending, hsame]

variable [GenericPTE 64 PTE]

/-! ### Changes that another table sees -/

theorem leafAt_eq_of_found {m m' : PhysAddr → Fin ENTRY_COUNT → PTE} {root root' : PhysAddr}
    {v : VirtAddr} (h : foundAlong m' root' (vpath M v) = foundAlong m root (vpath M v)) :
    leafAt M m' root' v = leafAt M m root v := by
  have hleaf : ∀ (m : PhysAddr → Fin ENTRY_COUNT → PTE) (root : PhysAddr), leafAt M m root v =
      match foundAlong m root (vpath M v) with
      | .ok (e, k) => if isPresent e then some (e, k) else none
      | .error _ => none := by
    intro m root
    rw [leafAt, leaf, foundAlong]
    cases seek m root (vpath M v) with
    | error e => rfl
    | ok found => rfl
  rw [hleaf, hleaf, h]

section Elsewhere

variable {x y : PageTable64 B M PTE H} {w w' : World PTE σ}

theorem Shared.leafAt_eq (hL : M.LEVELS = 3 ∨ M.LEVELS = 4) {v : VirtAddr}
    (h : Shared w x y (PageTable64.rootIndex M v)) :
    leafAt M w.mem y.rootPaddr v = leafAt M w.mem x.rootPaddr v :=
  leafAt_eq_of_found (h.found_eq hL)

/-- The records of a cursor cover what another table sees of its changes. -/
theorem Elsewhere.tracked (hL : M.LEVELS = 3 ∨ M.LEVELS = 4) (h : Elsewhere M x y w w')
    (htracked : Tracked M x.rootPaddr w w') : Tracked M y.rootPaddr w w' where
  leaf v := by
    by_cases hshared : Shared w x y (PageTable64.rootIndex M v)
    · rw [hshared.leafAt_eq hL, ((h.shared _).mpr hshared).leafAt_eq hL]
      exact htracked.leaf v
    · exact Or.inl (leafAt_eq_of_found (h.found_eq hL hshared))
  error v := by rw [HugeRoot, HugeRoot, h.root]
  keeps := htracked.keeps
  full := htracked.full

end Elsewhere

/-! ### The machine -/

/-- What `query` answers for a mapped address. -/
abbrev Translation := PhysAddr × MappingFlags 64 × PageSize

/-- A system of page tables with the open cursors, each with its pending flushes, and the
translations that are cached, each with the number of its table and the address. -/
structure Machine (B : Build) (M : PagingMetaData) (PTE : Type) {σ : Type}
    (H : PagingHandler 64 σ) where
  sys : System B M PTE H
  cursors : ℕ → Option (TlbFlusher 64)
  tlb : List ((ℕ × VirtAddr) × Translation)

/-- The system with the flushes that a cursor has pending. -/
def System.resume (s : System B M PTE H) (flusher : TlbFlusher 64) : System B M PTE H :=
  { s with world := { s.world with flusher := flusher } }

/-- Nothing exists yet. -/
def Machine.Blank (m : Machine B M PTE H) : Prop :=
  m.sys.Blank ∧ (∀ t, m.cursors t = none) ∧ m.tlb = []

/-- The processor reads and forgets translations, and the program makes tables and drops
those without a cursor, opens and closes cursors, and calls their methods.  The calls are
careful: a copy that frees what another table points to is none of them, since the frames
may come back under entries whose flushes do not name the old addresses.  A cursor that
flushes asks the processor to remove translations, whatever table they are of; the
processor may remove more. -/
inductive Machine.Step (m : Machine B M PTE H) : Machine B M PTE H → Prop
  | fill (t : ℕ) (v : VirtAddr) (a : Translation) {x : Member B M PTE H}
    (hx : m.sys.tables t = some x) (ha : (x.table.query v m.sys.world).1 = .ok a) :
    Step m { m with tlb := ((t, v), a) :: m.tlb }
  | evict (tlb : List ((ℕ × VirtAddr) × Translation)) (h : tlb ⊆ m.tlb) :
    Step m { m with tlb := tlb }
  | new : Step m { m with sys := m.sys.exec .new }
  | drop (t : ℕ) (h : m.cursors t = none) : Step m { m with sys := m.sys.exec (.drop t) }
  | cursor (t : ℕ) (hx : (m.sys.tables t).isSome = true) (h : m.cursors t = none) :
    Step m { m with cursors := Function.update m.cursors t (some .none) }
  | call (t : ℕ) {flusher : TlbFlusher 64} (h : m.cursors t = some flusher) (c : CursorCall)
    (hc : (m.sys.resume flusher).CursorOk System.Careful t c) (hflush : c ≠ .flush) :
    Step m { m with
      sys := (m.sys.resume flusher).cursorExec t c
      cursors := Function.update m.cursors t
        (some ((m.sys.resume flusher).cursorExec t c).world.flusher) }
  | flush (t : ℕ) {flusher : TlbFlusher 64} (h : m.cursors t = some flusher)
    {calls : List (Option VirtAddr)} {w : World PTE σ}
    (hcalls : PageTable64.flush (m.sys.resume flusher).world = (.ok calls, w))
    (tlb : List ((ℕ × VirtAddr) × Translation)) (hsub : tlb ⊆ m.tlb)
    (hgone : ∀ f ∈ tlb, ¬Flushed M calls f.1.2 f.2.2.2) (closed : Bool) :
    Step m
      { sys := { m.sys with world := w }
        cursors := Function.update m.cursors t (if closed then none else some w.flusher)
        tlb := tlb }

/-- The states of a run. -/
def Machine.Run : Machine B M PTE H → Machine B M PTE H → Prop :=
  Relation.ReflTransGen Machine.Step

/-- What is cached for a table whose lenders exist is what `query` answers. -/
def System.Translates (s : System B M PTE H) (k : ℕ × VirtAddr) (a : Translation) : Prop :=
  ∀ x, s.tables k.1 = some x → Healthy s.tables x → (x.table.query k.2 s.world).1 = .ok a

/-- A cursor with these flushes pending removes a translation when it flushes. -/
def Covers (M : PagingMetaData) (flusher : TlbFlusher 64) (k : ℕ × VirtAddr) (a : Translation) :
    Prop :=
  Flushed M flusher.calls k.2 a.2.2

/-- The invariant of a run. -/
structure Machine.Inv (inUse : σ → Set PhysAddr) (m : Machine B M PTE H) : Prop where
  ledger : ∃ L, m.sys.Ledgered inUse L
  known {t : ℕ} {v : VirtAddr} {a : Translation} : ((t, v), a) ∈ m.tlb → t < m.sys.next
  height {t : ℕ} {v : VirtAddr} {a : Translation} : ((t, v), a) ∈ m.tlb →
    ∃ k ≤ 2, a.2.2 = heightSize k
  coherent : Coherent m.sys.Translates (Covers M) {f | f ∈ m.tlb} m.cursors

theorem Machine.Blank.inv {m : Machine B M PTE H} {inUse : σ → Set PhysAddr} (h : m.Blank) :
    m.Inv inUse := by
  obtain ⟨hsys, -, htlb⟩ := h
  refine ⟨⟨_, hsys.ledger.1⟩, ?_, ?_, ?_⟩
  · rw [htlb]
    intro t v a hc
    exact absurd hc (by simp)
  · rw [htlb]
    intro t v a hc
    exact absurd hc (by simp)
  · rw [htlb]
    exact (Coherent.empty _ _ _).evict fun f hf => absurd hf List.not_mem_nil

/-! ### Translations under the calls -/

section Translates

variable [LawfulPTE M PTE] {inUse : σ → Set PhysAddr} {s : System B M PTE H} {L : Ledger}
  {t t' : ℕ} {v : VirtAddr} {a : Translation}

omit [LawfulPTE M PTE] in
/-- `query` answers by the root and the memory. -/
theorem query_eq_of_mem_eq (hL : M.LEVELS = 3 ∨ M.LEVELS = 4) {x y : PageTable64 B M PTE H}
    {w w' : World PTE σ} (hroot : x.rootPaddr = y.rootPaddr) (hmem : w'.mem = w.mem)
    (v : VirtAddr) : (x.query v w').1 = (y.query v w).1 := by
  rw [query_eq_leafAt hL, query_eq_leafAt hL, hroot, hmem]

/-- What is pending does not matter to `query`. -/
theorem System.translates_resume (flusher : TlbFlusher 64) (k : ℕ × VirtAddr) :
    (s.resume flusher).Translates k a ↔ s.Translates k a := by
  have hL := LawfulPTE.levels (M := M) PTE
  refine forall_congr' fun x => imp_congr_right fun _ => imp_congr_right fun _ => ?_
  rw [query_eq_of_mem_eq hL rfl (show (s.resume flusher).world.mem = s.world.mem from rfl)]

variable (hH : FreshFrames M H inUse)

include hH

/-- A translation of a table that the call does not concern, or one that it does not see. -/
theorem LedgerInv.exec_translates (I : s.Ledgered inUse L) (ht : t < s.next) {c : SystemCall}
    (hc : s.Careful c) (hactor : c.actor ≠ some t) (hno : ∀ t' c', c ≠ .call t' c')
    (h : s.Translates (t, v) a) : (s.exec c).Translates (t, v) a := by
  have hL := LawfulPTE.levels (M := M) PTE
  intro x hx hhx
  obtain ⟨y, hy, hhy, hroot⟩ := I.exec_before c ht hx hhx
  rw [query_eq_of_mem_eq hL hroot rfl]
  have hsame := I.exec_query hH hy hhy hc hactor v fun t' c' _ heq => absurd heq (hno t' c')
  rw [hsame]
  exact h y hy hhy

omit hH in
/-- What a table answers changes only if a flush of the page is pending afterwards. -/
theorem Tracked.translates {x y : PageTable64 B M PTE H} {w w' : World PTE σ}
    (h : Tracked M x.rootPaddr w w') (hroot : y.rootPaddr = x.rootPaddr) {k : ℕ}
    (hk : k ≤ 2) (hsize : a.2.2 = heightSize k) (hquery : (x.query v w).1 = .ok a) :
    (y.query v w').1 = .ok a ∨ Pending M w'.flusher k v := by
  have hL := LawfulPTE.levels (M := M) PTE
  rw [query_eq_leafAt hL] at hquery ⊢
  rw [hroot]
  obtain hsame | ⟨hbefore, -⟩ := h.leaf v
  · left
    rw [← hquery]
    simp only [hsame, h.error v]
  · right
    cases hleaf : leafAt M w.mem x.rootPaddr v with
    | none =>
      rw [hleaf] at hquery
      exact absurd hquery (by simp)
    | some found =>
      obtain ⟨e, k'⟩ := found
      simp only [hleaf, Res.ok.injEq] at hquery
      have hk' : k' = k := by
        rw [← height_heightSize hk, ← hsize, ← hquery, height_heightSize (leafAt_height_le hleaf)]
      rw [← hk']
      exact hbefore e k' hleaf

omit hH [LawfulPTE M PTE] in
theorem System.cursorExec_of_none (hx : s.tables t = none) {c : CursorCall}
    (hflush : c ≠ .flush) : s.cursorExec t c = s := by
  cases c with
  | call c => simp only [System.cursorExec, System.exec, hx]
  | copyFrom src start size => simp only [System.cursorExec, System.exec, hx]
  | flush => exact absurd rfl hflush

omit hH [LawfulPTE M PTE] in
/-- A call of a cursor other than a flush is a call of the system. -/
theorem System.cursorExec_eq_exec (s : System B M PTE H) (t : ℕ) {c : CursorCall}
    (hflush : c ≠ .flush) : ∃ c', s.cursorExec t c = s.exec c' := by
  cases c with
  | call c => exact ⟨.call t c, rfl⟩
  | copyFrom src start size => exact ⟨.copy t src start size, rfl⟩
  | flush => exact absurd rfl hflush

/-- A call of a cursor keeps the translations of all tables, apart from those that it
will flush. -/
theorem LedgerInv.cursor_translates (I : s.Ledgered inUse L) (ht' : t' < s.next) {c : CursorCall}
    (hc : s.CursorOk System.Careful t c) (hflush : c ≠ .flush) {k : ℕ} (hk : k ≤ 2)
    (hsize : a.2.2 = heightSize k) (h : s.Translates (t', v) a) :
    (s.cursorExec t c).Translates (t', v) a ∨ Pending M (s.cursorExec t c).world.flusher k v := by
  have hL := LawfulPTE.levels (M := M) PTE
  by_cases hpending : Pending M (s.cursorExec t c).world.flusher k v
  · exact Or.inr hpending
  left
  cases hx : s.tables t with
  | none =>
    -- there is no table to change
    rwa [System.cursorExec_of_none hx hflush]
  | some x =>
    obtain ⟨y, hy, hroot, htracked | hfull⟩ := I.cursor_tracked hH hx hc hflush
    · intro z hz hhz
      obtain ⟨c', hexec⟩ := s.cursorExec_eq_exec t hflush
      obtain ⟨z₀, hz₀, hhz₀, hroot₀⟩ := I.exec_before c' ht' (hexec ▸ hz) (hexec ▸ hhz)
      by_cases htt : t' = t
      · subst htt
        obtain rfl : z₀ = x := Option.some_inj.mp (hz₀.symm.trans hx)
        exact (htracked.translates hroot₀ hk hsize (h z₀ hz₀ hhz₀)).resolve_right hpending
      · cases c with
        | flush => exact absurd rfl hflush
        | copyFrom src start size =>
          -- a copy writes to its own root only
          refine I.exec_translates hH ht' (c := .copy t src start size) hc ?_ (by simp) h z hz hhz
          exact fun heq => htt (Option.some_inj.mp heq).symm
        | call c =>
          -- the records of the cursor cover what the other table sees
          have helse := I.elsewhere hH (Ne.symm htt) hx (hc.2 x hx) hz₀ hhz₀ c hc.1
          have hworld : (s.cursorExec t (.call c)).world = c.next x.table s.world := by
            simp only [System.cursorExec, System.exec, hx]
          rw [hworld] at htracked hpending ⊢
          exact ((helse.tracked hL htracked).translates hroot₀ hk hsize
            (h z₀ hz₀ hhz₀)).resolve_right hpending
    · refine absurd ?_ hpending
      rw [hfull]
      trivial

/-- What was pending still is. -/
theorem LedgerInv.cursor_pending (I : s.Ledgered inUse L) {c : CursorCall}
    (hc : s.CursorOk System.Careful t c) (hflush : c ≠ .flush) {k : ℕ}
    (h : Pending M s.world.flusher k v) : Pending M (s.cursorExec t c).world.flusher k v := by
  cases hx : s.tables t with
  | none =>
    rwa [System.cursorExec_of_none hx hflush]
  | some x =>
    have hone : s.EachCursor System.Careful t [c] := ⟨hc, trivial⟩
    have hkeeps := I.cursor_keepsPending hH hx hone (by simpa using hflush.symm)
    exact hkeeps.pending h

end Translates

/-! ### Runs of the machine -/

section Machine

variable [LawfulPTE M PTE] {inUse : σ → Set PhysAddr} {m m' : Machine B M PTE H}

/-- The size of a translation. -/
theorem query_height {x : PageTable64 B M PTE H} {v : VirtAddr} {w : World PTE σ}
    {a : Translation} (h : (x.query v w).1 = .ok a) : ∃ k ≤ 2, a.2.2 = heightSize k := by
  have hL := LawfulPTE.levels (M := M) PTE
  rw [query_eq_leafAt hL] at h
  cases hleaf : leafAt M w.mem x.rootPaddr v with
  | none =>
    rw [hleaf] at h
    exact absurd h (by simp)
  | some found =>
    simp only [hleaf, Res.ok.injEq] at h
    exact ⟨found.2, leafAt_height_le hleaf, by rw [← h]⟩

/-- A step of the machine keeps the invariant. -/
theorem Machine.Step.inv (hH : FreshFrames M H inUse) (I : m.Inv inUse) (h : m.Step m') :
    m'.Inv inUse := by
  have hL := LawfulPTE.levels (M := M) PTE
  obtain ⟨⟨L, I₀⟩, hknown, hheight, hcoherent⟩ := I
  cases h with
  | fill t v a hx ha =>
    refine ⟨⟨L, I₀⟩, fun {t' v' a'} hf => ?_, fun {t' v' a'} hf => ?_, ?_⟩
    · obtain heq | hf := List.mem_cons.mp hf
      · rw [Prod.mk.injEq, Prod.mk.injEq] at heq
        rw [heq.1.1]
        exact (I₀.lt_next hx).1
      · exact hknown hf
    · obtain heq | hf := List.mem_cons.mp hf
      · rw [Prod.mk.injEq, Prod.mk.injEq] at heq
        rw [heq.2]
        exact query_height ha
      · exact hheight hf
    · have hfill := hcoherent.fill (k := (t, v)) (a := a) fun x' hx' _ => by
        obtain rfl := Option.some_inj.mp (hx.symm.trans hx')
        exact ha
      exact hfill.evict fun f hf => List.mem_cons.mp hf
  | evict tlb hsub =>
    exact ⟨⟨L, I₀⟩, fun hf => hknown (hsub hf), fun hf => hheight (hsub hf),
      hcoherent.evict hsub⟩
  | new =>
    obtain ⟨L', I', -⟩ := I₀.exec hH .new trivial
    refine ⟨⟨L', I'⟩, fun hf => (hknown hf).trans_le (m.sys.le_next_exec .new), hheight, ?_⟩
    refine hcoherent.unseen fun k a hf h => ?_
    exact I₀.exec_translates hH (hknown hf) (c := .new) trivial (by simp [SystemCall.actor])
      (by simp) h
  | drop t hclosed =>
    obtain ⟨L', I', -⟩ := I₀.exec hH (.drop t) trivial
    refine ⟨⟨L', I'⟩, fun hf => (hknown hf).trans_le (m.sys.le_next_exec _), hheight, ?_⟩
    refine hcoherent.unseen fun k a hf h => ?_
    by_cases ht : k.1 = t
    · -- the table is gone
      intro x hx
      rw [System.exec] at hx
      cases hy : m.sys.tables t with
      | none =>
        simp only [hy, ht] at hx
        exact absurd hx (by simp)
      | some y =>
        simp only [hy] at hx
        exact absurd ht (Members.of_gone hx).1
    · exact I₀.exec_translates hH (hknown hf) (c := .drop t) trivial
        (fun heq => ht (Option.some_inj.mp heq).symm) (by simp) h
  | cursor t hx hclosed =>
    exact ⟨⟨L, I₀⟩, hknown, hheight, hcoherent.enter hclosed _⟩
  | @call t flusher hopen c hc hflush =>
    have I₁ : (m.sys.resume flusher).Ledgered inUse L := I₀.setFlusher flusher
    obtain ⟨L', I'⟩ := I₁.cursorExec hH hc
    obtain ⟨c', hexec⟩ := (m.sys.resume flusher).cursorExec_eq_exec t hflush
    have hnext : m.sys.next ≤ ((m.sys.resume flusher).cursorExec t c).next := by
      rw [hexec]
      exact (m.sys.resume flusher).le_next_exec c'
    refine ⟨⟨L', I'⟩, fun hf => (hknown hf).trans_le hnext, hheight, ?_⟩
    refine hcoherent.change hopen (fun k a hf hcov => ?_) fun k a hf h => ?_
    · obtain ⟨j, hj, hsize⟩ := hheight hf
      rw [Covers, hsize, flushed_calls_iff hL _ _ hj] at hcov ⊢
      exact I₁.cursor_pending hH hc hflush hcov
    · obtain ⟨j, hj, hsize⟩ := hheight hf
      rw [Covers, hsize, flushed_calls_iff hL _ _ hj]
      exact I₁.cursor_translates hH (hknown hf) hc hflush hj hsize
        ((System.translates_resume flusher k).mpr h)
  | @flush t flusher hopen calls w hcalls tlb hsub hgone closed =>
    rw [PageTable64.flush, Prod.mk.injEq, Res.ok.injEq] at hcalls
    obtain ⟨rfl, rfl⟩ := hcalls
    refine ⟨⟨L, I₀.setFlusher .none⟩, fun hf => hknown (hsub hf), fun hf => hheight (hsub hf), ?_⟩
    have hflush := hcoherent.flush hopen hsub (fun k a hf => hgone (k, a) hf)
      (if closed then none else some .none)
    exact hflush.unseen fun k a _ h =>
      (System.translates_resume .none k).mpr ((System.translates_resume flusher k).mpr h)

/-- In every state of a run. -/
theorem Machine.Run.inv (hH : FreshFrames M H inUse) (I : m.Inv inUse) (h : m.Run m') :
    m'.Inv inUse := by
  induction h with
  | refl => exact I
  | tail _ hstep ih => exact hstep.inv hH ih

end Machine

/-- In every run of careful calls, whatever cursors are open on whatever tables: a
translation that is cached for a table whose lenders exist is what `query` answers, or an
open cursor has a flush pending that removes it; and without pending flushes it is what
`query` answers. -/
theorem Arch.tlb_coherent (arch : Arch) {H : PagingHandler 64 σ} {inUse : σ → Set PhysAddr}
    (hH : FreshFrames arch.metaData H inUse) {m₀ m : Machine B arch.metaData arch.PTE H}
    (h₀ : m₀.Blank) (h : m₀.Run m) {t : ℕ} {x : Member B arch.metaData arch.PTE H}
    (hx : m.sys.tables t = some x) (hhx : Healthy m.sys.tables x) {v : VirtAddr}
    {a : Translation} (ha : ((t, v), a) ∈ m.tlb) :
    ((x.table.query v m.sys.world).1 = .ok a ∨ ∃ c flusher, m.cursors c = some flusher ∧
      Flushed arch.metaData flusher.calls v a.2.2) ∧
    ((∀ c flusher, m.cursors c = some flusher → flusher.calls = []) →
      (x.table.query v m.sys.world).1 = .ok a) := by
  have I := h.inv hH h₀.inv
  refine ⟨(I.coherent (t, v) a ha).imp_left fun h => h x hx hhx, fun hnone => ?_⟩
  refine I.coherent.exact (fun c flusher hc k a hcov => ?_) ha x hx hhx
  rw [Covers, Flushed, hnone c flusher hc] at hcov
  simp at hcov

/-- A machine on which nothing has been done. -/
def tlbStart : Machine ⟨true, true⟩ X64PagingMetaData X64PTE queueHandler where
  sys := lendingStart
  cursors _ := none
  tlb := []

/-- A cursor maps a page. -/
def mappedPage : System ⟨true, true⟩ X64PagingMetaData X64PTE queueHandler :=
  ((lendingStart.exec .new).resume .none).cursorExec 0 (.call (.map 0 0x7000 .size4K .READ))

/-- It unmaps the page, while a translation of the page is cached. -/
def unmappedPage : System ⟨true, true⟩ X64PagingMetaData X64PTE queueHandler :=
  (mappedPage.resume mappedPage.world.flusher).cursorExec 0 (.call (.unmap 0))

theorem Arch.tlb_coherent_run : ∃ m, tlbStart.Run m ∧ m.sys = unmappedPage ∧
    ∃ x, unmappedPage.tables 0 = some x ∧
      ((x.table.query 0x123 m.sys.world).1 = .ok (0x7123, .READ, .size4K) ∨
        ∃ c flusher, m.cursors c = some flusher ∧
          Flushed X64PagingMetaData flusher.calls 0x123 .size4K) ∧
      ((∀ c flusher, m.cursors c = some flusher → flusher.calls = []) →
        (x.table.query 0x123 m.sys.world).1 = .ok (0x7123, .READ, .size4K)) := by
  obtain ⟨h0, hmap, h1, hquery, hunmap, h2, hhealthy⟩ :
      ((lendingStart.exec .new).tables 0).isSome = true ∧
      ((lendingStart.exec .new).resume .none).CursorOk System.Careful 0
        (.call (.map 0 0x7000 .size4K .READ)) ∧
      (mappedPage.tables 0).isSome = true ∧
      (∀ x ∈ mappedPage.tables 0,
        (x.table.query 0x123 mappedPage.world).1 = .ok (0x7123, .READ, .size4K)) ∧
      (mappedPage.resume mappedPage.world.flusher).CursorOk System.Careful 0 (.call (.unmap 0)) ∧
      (unmappedPage.tables 0).isSome = true ∧
      ∀ x ∈ unmappedPage.tables 0, Healthy unmappedPage.tables x := by
    decide +kernel
  obtain ⟨x₁, hx₁⟩ := Option.isSome_iff_exists.mp h1
  obtain ⟨x, hx⟩ := Option.isSome_iff_exists.mp h2
  have hnew : tlbStart.Run ⟨lendingStart.exec .new, fun _ => none, []⟩ := .single .new
  have hcursor := hnew.tail (.cursor 0 h0 rfl)
  have hmapped := hcursor.tail (.call 0 rfl _ hmap (by simp))
  have hfilled := hmapped.tail (.fill 0 0x123 (0x7123, .READ, .size4K) hx₁ (hquery x₁ hx₁))
  have hunmapped := hfilled.tail (.call 0 rfl _ hunmap (by simp))
  exact ⟨_, hunmapped, rfl, x, hx, Arch.tlb_coherent .x64 (freshFrames_queueHandler (by decide))
    ⟨lendingStart_blank, fun _ => rfl, rfl⟩ hunmapped hx (hhealthy x hx)
    (List.mem_singleton.mpr rfl)⟩

end PageTableMultiarch
