/-
Freeing frames in a system of page tables that share entries.

* `Arch.no_double_free` — in every permitted run frames are freed and accessed only
  between being obtained and being freed, and a borrower frees nothing of its lenders;
* `borrower_frees_reachable_frame` — this fails for a lender that still points to frames
  of a dropped table, once these are in use again;
* `Arch.leaks_nothing_when_tidy` — if no table is created under a borrowed root entry and
  borrowers are dropped before their lenders, in the end all frames are given back;
* `borrower_leaks_frames` — the call of `map` that this excludes.
-/
import PageTableMultiarch.Table64.SystemRun

namespace PageTableMultiarch

open GenericPTE Radix MemEvent

variable {B : Build} {σ : Type}

/-! ### An allocator that takes frames back -/

/-- The frames of `queueHandler`. -/
def queueFrame (j : Fin 16) : PhysAddr := BitVec.ofNat 64 (0x1000 * (j + 1))

/-- An allocator with a queue of free frames. -/
def queueHandler : PagingHandler 64 (List (Fin 16)) where
  allocFrame
    | [] => (none, [])
    | j :: l => (some (queueFrame j), l.filter (· ≠ j))
  allocFrames l _ _ := (none, l)
  deallocFrame l p := l ++ (List.finRange 16).filter fun j => queueFrame j = p ∧ j ∉ l
  deallocFrames l _ _ := l

/-- The frames that are not in the queue. -/
def queueInUse (l : List (Fin 16)) : Set PhysAddr := {p | ∀ j ∈ l, p ≠ queueFrame j}

theorem toNat_queueFrame (j : Fin 16) : (queueFrame j).toNat = 0x1000 * (j + 1) := by
  rw [queueFrame, BitVec.toNat_ofNat, Nat.mod_eq_of_lt (by omega)]

theorem queueFrame_injective : Function.Injective queueFrame := by
  intro j k h
  have := congrArg BitVec.toNat h
  rw [toNat_queueFrame, toNat_queueFrame] at this
  omega

/-- A frame that is handed out leaves the queue. -/
theorem queueHandler_allocFrame {l l' : List (Fin 16)} {p : PhysAddr}
    (h : queueHandler.allocFrame l = (some p, l')) :
    ∃ j k, l = j :: k ∧ p = queueFrame j ∧ l' = k.filter (· ≠ j) := by
  cases l with
  | nil => exact absurd (congrArg Prod.fst h) (by simp [queueHandler])
  | cons j k =>
    simp only [queueHandler, Prod.mk.injEq, Option.some.injEq] at h
    exact ⟨j, k, rfl, h.1.symm, h.2.symm⟩

theorem freshFrames_queueHandler {M : PagingMetaData} (hM : 0x10000 ≤ M.PA_MAX_ADDR) :
    FreshFrames M queueHandler queueInUse := by
  refine ⟨fun h => ?_, fun h => ?_, fun h => ?_, fun {l l'} h => ?_, fun l p => ?_⟩
  · obtain ⟨j, k, -, rfl, -⟩ := queueHandler_allocFrame h
    have hj := toNat_queueFrame j
    refine ⟨by omega, fun h0 => ?_, by omega⟩
    rw [h0] at hj
    exact absurd hj (by simp)
  · obtain ⟨j, k, rfl, rfl, -⟩ := queueHandler_allocFrame h
    exact fun hc => hc j List.mem_cons_self rfl
  · obtain ⟨j, k, rfl, rfl, rfl⟩ := queueHandler_allocFrame h
    rintro q (rfl | hq) i hi
    · rw [List.mem_filter, decide_eq_true_eq] at hi
      exact fun hc => hi.2 (queueFrame_injective hc).symm
    · exact hq i (List.mem_cons_of_mem _ (List.mem_filter.mp hi).1)
  · cases l with
    | nil =>
      simp only [queueHandler, Prod.mk.injEq, true_and] at h
      rw [← h]
    | cons j k => exact absurd (congrArg Prod.fst h) (by simp [queueHandler])
  · rintro q ⟨hq, hqp⟩ j hj
    obtain hj | hj := List.mem_append.mp hj
    · exact hq j hj
    · rw [List.mem_filter, decide_eq_true_eq] at hj
      rintro rfl
      exact hqp hj.2.1

/-- A system without tables and with seven free frames. -/
def lendingStart : System ⟨true, true⟩ X64PagingMetaData X64PTE queueHandler where
  world := { mem := fun _ _ => empty, os := [0, 1, 2, 3, 4, 5, 6], trace := [], flusher := .none }
  tables _ := none
  next := 0

theorem lendingStart_blank : lendingStart.Blank := ⟨fun _ => rfl, rfl⟩

/-! ### No frame is freed twice -/

/-- Table 1 borrows from table 0, and table 2 from table 1.  When table 0 has been
dropped, table 3 gets its frames, and uses one to map the root of table 2. -/
def lendingCalls : List SystemCall :=
  [.new, .call 0 (.map 0 0x7000 .size4K .empty), .new, .copy 1 0 0 0x1000, .new,
    .copy 2 1 0 0x1000, .drop 0, .new, .call 3 (.map 0 0x6000 .size4K .empty)]

theorem lendingCalls_permitted : lendingStart.EachCall System.Permitted lendingCalls := by
  decide +kernel

/-- In every permitted run, only frames that have been obtained and not been freed since
are freed or accessed, so that no frame is freed more often than obtained; and no call of
a borrower frees a frame that can be reached from a lender, if the lenders of that lender
still exist or no frame has been obtained twice. -/
theorem Arch.no_double_free (arch : Arch) {H : PagingHandler 64 σ} {inUse : σ → Set PhysAddr}
    (hH : FreshFrames arch.metaData H inUse) {s₀ s : System B arch.metaData arch.PTE H}
    (h₀ : s₀.Blank) (h : s₀.Run System.Permitted s) :
    (∀ p before, .free p :: before <:+ s.world.trace → p ∈ live before) ∧
      (∀ p, s.world.trace.count (.free p) ≤ s.world.trace.count (.alloc p)) ∧
      (∀ p before, .access p :: before <:+ s.world.trace → p ∈ live before) ∧
      ∀ c, s.Permitted c → ∀ z ∈ s.lendersAt c, ∀ y ∈ s.tables z,
        Healthy s.tables y ∨ NoReissue s.world.trace →
        ∀ p ∈ nodes child s.world.mem {y.table.rootPaddr} (arch.metaData.LEVELS - 1),
          (s.exec c).world.trace.count (.free p) = s.world.trace.count (.free p) := by
  obtain ⟨L, I⟩ := h.ledger hH (fun _ _ _ I hc => I.careful hc) h₀
  refine ⟨fun p before hsuf => I.safe.mem_live_of_free hsuf, I.safe.count_free_le,
    fun p before hsuf => I.safe.mem_live_of_access hsuf, fun c hc z hz y hy hok p hp => ?_⟩
  exact I.exec_spares hH (h.acyclic hH h₀) c hc hz hy hok hp

theorem Arch.no_double_free_run :
    (∀ p before, .free p :: before <:+ (lendingStart.execAll lendingCalls).world.trace →
        p ∈ live before) ∧
      (∀ p, (lendingStart.execAll lendingCalls).world.trace.count (.free p) ≤
        (lendingStart.execAll lendingCalls).world.trace.count (.alloc p)) ∧
      (∀ p before, .access p :: before <:+ (lendingStart.execAll lendingCalls).world.trace →
        p ∈ live before) ∧
      ∀ c, (lendingStart.execAll lendingCalls).Permitted c →
        ∀ z ∈ (lendingStart.execAll lendingCalls).lendersAt c,
        ∀ y ∈ (lendingStart.execAll lendingCalls).tables z,
        Healthy (lendingStart.execAll lendingCalls).tables y ∨
          NoReissue (lendingStart.execAll lendingCalls).world.trace →
        ∀ p ∈ nodes child (lendingStart.execAll lendingCalls).world.mem {y.table.rootPaddr} 3,
          ((lendingStart.execAll lendingCalls).exec c).world.trace.count (.free p) =
            (lendingStart.execAll lendingCalls).world.trace.count (.free p) :=
  Arch.no_double_free .x64 (freshFrames_queueHandler (by decide)) lendingStart_blank
    (.execAll .start lendingCalls_permitted)

/-- Dropping table 2 frees its root, which can be reached from its lender, table 1. -/
theorem borrower_frees_reachable_frame :
    FreshFrames X64PagingMetaData queueHandler queueInUse ∧ lendingStart.Blank ∧
      lendingStart.Run System.Permitted (lendingStart.execAll lendingCalls) ∧
      ∃ x y p, (lendingStart.execAll lendingCalls).tables 1 = some x ∧
        (lendingStart.execAll lendingCalls).tables 2 = some y ∧ 1 ∈ y.lenders ∧
        p ∈ nodes child (lendingStart.execAll lendingCalls).world.mem {x.table.rootPaddr}
          (X64PagingMetaData.LEVELS - 1) ∧
        (lendingStart.execAll lendingCalls).world.trace.count (.free p) = 0 ∧
        ((lendingStart.execAll lendingCalls).exec (.drop 2)).world.trace.count (.free p) = 1 := by
  obtain ⟨hx, hy, hpath, hbefore, hafter⟩ :
      ((lendingStart.execAll lendingCalls).tables 1).map (·.table.rootPaddr) = some 0x5000 ∧
        ((lendingStart.execAll lendingCalls).tables 2).map (·.lenders) = some [1, 0] ∧
        resolve child (lendingStart.execAll lendingCalls).world.mem 0x5000
          [⟨0, by decide⟩, ⟨0, by decide⟩] = some 0x6000 ∧
        (lendingStart.execAll lendingCalls).world.trace.count (.free 0x6000) = 0 ∧
        ((lendingStart.execAll lendingCalls).exec (.drop 2)).world.trace.count
          (.free 0x6000) = 1 := by
    decide +kernel
  obtain ⟨x, hx, hroot⟩ := Option.map_eq_some_iff.mp hx
  obtain ⟨y, hy, hlenders⟩ := Option.map_eq_some_iff.mp hy
  refine ⟨freshFrames_queueHandler (by decide), lendingStart_blank,
    .execAll .start lendingCalls_permitted, x, y, 0x6000, hx, hy, ?_, ?_, hbefore, hafter⟩
  · rw [hlenders]
    decide
  · exact ⟨x.table.rootPaddr, rfl, _, by decide, hroot ▸ hpath⟩

/-! ### All frames are given back -/

/-- Along a run of tidy calls in which tables outlive their borrowers, an exact ledger is
right. -/
theorem System.Run.exact {M : PagingMetaData} {PTE : Type} {H : PagingHandler 64 σ}
    [GenericPTE 64 PTE] [LawfulPTE M PTE] {inUse : σ → Set PhysAddr}
    (hH : FreshFrames M H inUse) {s₀ s : System B M PTE H} (h₀ : s₀.Blank)
    (h : s₀.Run (fun s c => s.Nested c ∧ s.Tidy c) s) :
    s.AllHealthy ∧ ∃ L, s.Ledgered inUse L ∧ LedgerExact s.world s.tables L := by
  induction h with
  | start =>
    refine ⟨fun t x hx => ?_, _, h₀.ledger⟩
    rw [h₀.1 t] at hx
    exact absurd hx (by simp)
  | step _ c hc ih =>
    obtain ⟨hh, L, I, E⟩ := ih
    obtain ⟨hnested, htidy⟩ := hc
    obtain ⟨L', I', E'⟩ := I.exec hH c (I.careful (hnested.permitted hh))
    exact ⟨I.allHealthy hh c hnested, L', I', E' htidy E⟩

/-- If no call creates a table under a borrowed root entry and tables are dropped after
those that borrow from them, then each frame has been given back as often as it was
obtained once all tables have been dropped. -/
theorem Arch.leaks_nothing_when_tidy (arch : Arch) {H : PagingHandler 64 σ}
    {inUse : σ → Set PhysAddr} (hH : FreshFrames arch.metaData H inUse)
    {s₀ s : System B arch.metaData arch.PTE H} (h₀ : s₀.Blank)
    (h : s₀.Run (fun s c => s.Nested c ∧ s.Tidy c) s) (hend : ∀ t < s.next, s.tables t = none)
    (p : PhysAddr) : s.world.trace.count (.free p) = s.world.trace.count (.alloc p) := by
  obtain ⟨-, L, I, E⟩ := h.exact hH h₀
  have hno : ∀ {t x}, s.tables t = some x → False := by
    intro t x hx
    rw [hend t (I.lt_next hx).1] at hx
    exact absurd hx (by simp)
  refine ((I.safe.count_alloc p).2 fun hp => ?_).symm
  -- a live frame belongs to a table that is left
  obtain ⟨t, x, hx, -⟩ | ⟨u, hu, -⟩ := E.live hp
  · exact hno hx
  · obtain ⟨t, ht⟩ := E.owned hu
    obtain ⟨x, hx, -⟩ := I.owner hu ht
    exact hno hx

/-- A run in which the borrower maps a page with the table that it borrows. -/
def tidyCalls : List SystemCall :=
  [.new, .call 0 (.map 0 0x7000 .size4K .empty), .new, .copy 1 0 0 0x1000,
    .call 1 (.map 0x1000 0x6000 .size4K .empty), .drop 1, .drop 0]

theorem Arch.leaks_nothing_when_tidy_run :
    (lendingStart.execAll tidyCalls).world.trace.count (.free 0x3000) =
      (lendingStart.execAll tidyCalls).world.trace.count (.alloc 0x3000) := by
  have hnested : lendingStart.EachCall System.Nested tidyCalls := by
    decide +kernel
  have hfirst : ∀ x ∈ (lendingStart.execAll (tidyCalls.take 1)).tables 0,
      ¬x.table.Orphans 0 .size4K (lendingStart.execAll (tidyCalls.take 1)).world := by
    decide +kernel
  have hsecond : ∀ x ∈ (lendingStart.execAll (tidyCalls.take 4)).tables 1,
      ¬x.table.Orphans 0x1000 .size4K (lendingStart.execAll (tidyCalls.take 4)).world := by
    decide +kernel
  have htidy : lendingStart.EachCall System.Tidy tidyCalls :=
    ⟨trivial, hfirst, trivial, trivial, hsecond, trivial, trivial, trivial⟩
  refine Arch.leaks_nothing_when_tidy .x64 (freshFrames_queueHandler (by decide))
    lendingStart_blank (.execAll .start (hnested.and htidy)) ?_ 0x3000
  decide +kernel

/-- Table 1 borrows an entry that is empty in table 0, and maps a page there. -/
def leakingCalls : List SystemCall :=
  [.new, .new, .copy 1 0 0 0x1000, .call 1 (.map 0 0x5000 .size4K .empty), .drop 1, .drop 0]

/-- In the end both tables have been dropped, but not all frames have been given back. -/
theorem borrower_leaks_frames :
    FreshFrames X64PagingMetaData queueHandler queueInUse ∧ lendingStart.Blank ∧
      lendingStart.Run System.Nested (lendingStart.execAll leakingCalls) ∧
      (∀ t < (lendingStart.execAll leakingCalls).next,
        (lendingStart.execAll leakingCalls).tables t = none) ∧
      (lendingStart.execAll leakingCalls).world.trace.count (.alloc 0x3000) = 1 ∧
      (lendingStart.execAll leakingCalls).world.trace.count (.free 0x3000) = 0 := by
  refine ⟨freshFrames_queueHandler (by decide), lendingStart_blank, .execAll .start ?_, ?_⟩
  · decide +kernel
  · decide +kernel

end PageTableMultiarch
