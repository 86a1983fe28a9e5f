/-
Runs of several `PageTable32`s.

A section with empty flags would be taken for a table, so the flags of the calls are not empty.

* `dangling_free_iff` — no page table ever points to a table that has been freed exactly if each
  call is careful, and then no table is freed twice or accessed when it is not allocated;
* `borrowers_first` — calls are careful if borrowers go before their lenders;
* `nothing_left_iff` — when all page tables have been dropped, everything has been given back
  exactly if no call has created a table under a borrowed entry.
-/
import PageTableMultiarch.Table32.SystemCopy

namespace PageTableMultiarch.Bits32

open GenericPTE A32PTE MemEvent

variable {B : Build} {M : PagingMetaData} {σ : Type} {H : PagingHandler 32 σ}
  {inUse : σ → Set ℕ} {s s₀ : System B M H} {L : Ledger}

/-! ### One call -/

/-- What is freed had an owner. -/
theorem Ledger.leaks_without (t : ℕ) (among : Set (Fin ENTRY_COUNT)) :
    (L.without t among).Leaks ↔ L.Leaks := by
  constructor
  · rintro ⟨p, hp, hnone⟩
    exact ⟨p, hp.1, hnone⟩
  · rintro ⟨p, hp, hnone⟩
    refine ⟨p, ⟨hp, ?_⟩, hnone⟩
    rintro ⟨-, ht, -⟩
    rw [hnone] at ht
    cases ht

/-- A careful call keeps some ledger right and leaks a table exactly if it is not tidy, and what it
lends is told by its kind. -/
theorem LedgerInv.exec (hH : FreshBlocks H inUse) (I : LedgerInv inUse s L) {c : SystemCall}
    (hv : System.Valid c) (hc : s.Careful c) :
    ∃ L', LedgerInv inUse (s.exec c) L' ∧ (L'.Leaks ↔ L.Leaks ∨ ¬s.Tidy c) ∧
      ∀ R, s.Lent L R → (s.exec c).Lent L' (c.lend R) := by
  -- a call that creates no table
  have htidy : s.Tidy c → (L.Leaks ↔ L.Leaks ∨ ¬s.Tidy c) := fun h =>
    (or_iff_left fun hno => hno h).symm
  cases c with
  | new =>
    obtain ⟨I', hR⟩ := I.new hH
    exact ⟨L, I', htidy trivial, hR⟩
  | call t c =>
    rcases hx : s.tables t with _ | x
    · have hsame : s.exec (.call t c) = s := by rw [System.exec, hx]
      rw [hsame]
      refine ⟨L, I, htidy fun x hx' => ?_, fun _ hR => hR⟩
      rw [hx] at hx'
      cases hx'
    · have hexec : s.exec (.call t c) = s.withWorld (c.next x s.world) := by
        rw [System.exec, hx]
        rfl
      obtain ⟨L', I', G, hR⟩ := I.call hH hx hv
      rw [hexec]
      refine ⟨L', I', G.leaks.trans (or_congr_right ?_), hR⟩
      rw [System.Tidy, hexec, hx]
      simp only [Option.mem_def, Option.some_inj, forall_eq', not_forall, Bool.not_eq_false]
      constructor
      · rintro ⟨i, hb, hbefore, hafter⟩
        exact ⟨i, hb, hbefore, hafter⟩
      · rintro ⟨i, hb, hbefore, hafter⟩
        exact ⟨i, hb, hbefore, hafter⟩
  | copy dst src start size =>
    have hskip : s.exec (.copy dst src start size) = s →
        ∃ L', LedgerInv inUse (s.exec (.copy dst src start size)) L' ∧
          (L'.Leaks ↔ L.Leaks ∨ ¬s.Tidy (.copy dst src start size)) ∧
          ∀ R, s.Lent L R → (s.exec (.copy dst src start size)).Lent L'
            (SystemCall.lend R (.copy dst src start size)) := by
      intro hsame
      rw [hsame]
      refine ⟨L, I, htidy trivial, fun R hR t x i p z hx hp hz he hne => ?_⟩
      exact List.mem_append_right _ (hR t x i p z hx hp hz he hne)
    rcases hd : s.tables dst with _ | d
    · exact hskip (by rw [System.exec, hd])
    rcases hr : s.tables src with _ | r
    · exact hskip (by rw [System.exec, hd, hr])
    exact ⟨_, I.copy hH hv hc hd hr, (Ledger.leaks_without _ _).trans (htidy trivial), fun R hR =>
      I.copy_lent hH hv hd hr hR⟩
  | drop t =>
    rcases hx : s.tables t with _ | x
    · have hsame : s.exec (.drop t) = s := by rw [System.exec, hx]
      rw [hsame]
      refine ⟨L, I, htidy trivial, fun R hR t' y i p z hy hp hz he hne => ?_⟩
      refine List.mem_filter.mpr ⟨hR t' y i p z hy hp hz he hne, decide_eq_true ?_⟩
      rintro rfl
      rw [hx] at hy
      cases hy
    · exact ⟨_, I.drop hH hc hx, (Ledger.leaks_without _ _).trans (htidy trivial), fun R hR =>
        I.drop_lent hH hx hR⟩

/-- A table that is not spared is owned, and another page table points to it. -/
theorem LedgerInv.exists_of_not_spares (I : LedgerInv inUse s L) {t : ℕ}
    {x : PageTable32 B M A32PTE H} (hx : s.tables t = some x) {b : Fin ENTRY_COUNT → Bool}
    (h : ¬s.Spares t x b) : ∃ p ∈ L.subs, L.owner p = some t ∧ b (L.index p) = true ∧
      ∃ t' y, t' ≠ t ∧ s.tables t' = some y ∧
        s.world.entry (l1At y.rootPaddr (L.index p)) = newTable p := by
  rw [System.Spares] at h
  push Not at h
  obtain ⟨i, hi, hb, hl, t', -, hne, y, hy, heq⟩ := h
  obtain ⟨p, hp, he, rfl, hown⟩ := I.link hx hl
  exact ⟨p, hp, hown.mp hb, hi, t', y, hne, hy, heq.trans he⟩

/-- A call that is not careful leaves a pointer to a table that it has freed. -/
theorem LedgerInv.dangling (hH : FreshBlocks H inUse) (I : LedgerInv inUse s L) {c : SystemCall}
    (hv : System.Valid c) (hc : ¬s.Careful c) : ¬(s.exec c).NoDangling := by
  intro hno
  cases c with
  | new => exact hc trivial
  | call t c => exact hc trivial
  | copy dst src start size =>
    rw [System.Careful] at hc
    push Not at hc
    obtain ⟨d, hd, hr, hc⟩ := hc
    obtain ⟨r, hr⟩ := Option.isSome_iff_exists.mp hr
    obtain ⟨p, hp, ht, hi, t', y, hne, hy, he⟩ := I.exists_of_not_spares hd hc
    obtain ⟨hempty, -⟩ | ⟨w, heq, -, C, R⟩ := I.copy_eq hH hv hd hr start size
    · exact Set.eq_empty_iff_forall_notMem.mp hempty (L.index p) hi
    · rw [System.exec_copy_ok hd hr heq] at hno
      have he' : w.entry (l1At y.rootPaddr (L.index p)) = newTable p :=
        (C.entry I hd hy (Or.inl hne)).trans he
      have hmem := hno t' y ((Function.update_of_ne hne _ _).trans hy)
        (page_mem_tables he' (I.sub_aligned hp))
      rw [R.live] at hmem
      exact hmem.2 ⟨p, ⟨hp, ht, hi⟩, rfl⟩
  | drop t =>
    rw [System.Careful] at hc
    push Not at hc
    obtain ⟨x, hx, hc⟩ := hc
    obtain ⟨p, hp, ht, -, t', y, hne, hy, he⟩ := I.exists_of_not_spares hx hc
    obtain ⟨w, hdrop, hmem, -, hlive, -⟩ := I.drop_eq hH hx
    have hexec : s.exec (.drop t) = ⟨w, Function.update s.tables t none, s.next⟩ := by
      rw [System.exec, hx]
      dsimp only
      rw [hdrop]
    rw [hexec] at hno
    have he' : w.entry (l1At y.rootPaddr (L.index p)) = newTable p :=
      (congrFun hmem (l1At y.rootPaddr (L.index p)).addr).trans he
    have hmem' := hno t' y ((Function.update_of_ne hne _ _).trans hy)
      (page_mem_tables he' (I.sub_aligned hp))
    rw [hlive] at hmem'
    exact hmem'.2 (Or.inr ⟨p, ⟨hp, ht, trivial⟩, rfl⟩)

/-! ### An allocator -/

/-- The blocks of `blockHandler` for a first level. -/
def rootBlock (j : Fin 8) : PhysAddr := BitVec.ofNat 32 (0x4000 * (j + 1))

/-- Its frames for a second level table. -/
def pageFrame (j : Fin 12) : PhysAddr := BitVec.ofNat 32 (0x1000 * (j + 64))

/-- An allocator with a queue of free blocks and one of free frames. -/
def blockHandler : PagingHandler 32 (List (Fin 8) × List (Fin 12)) where
  allocFrame s := match s.2 with
    | [] => (none, s)
    | j :: l => (some (pageFrame j), (s.1, l.filter (· ≠ j)))
  allocFrames s _ _ := match s.1 with
    | [] => (none, s)
    | j :: l => (some (rootBlock j), (l.filter (· ≠ j), s.2))
  deallocFrame s p := (s.1, s.2 ++ (List.finRange 12).filter fun j => pageFrame j = p ∧ j ∉ s.2)
  deallocFrames s p _ :=
    (s.1 ++ (List.finRange 8).filter fun j => rootBlock j = p ∧ j ∉ s.1, s.2)

/-- The frames that are in neither queue. -/
def blockInUse (s : List (Fin 8) × List (Fin 12)) : Set ℕ :=
  {n | (∀ j ∈ s.2, n ≠ frameOf (pageFrame j)) ∧ ∀ j ∈ s.1, ¬RootFrame (rootBlock j) n}

theorem toNat_rootBlock (j : Fin 8) : (rootBlock j).toNat = 0x4000 * (j + 1) := by
  rw [rootBlock, BitVec.toNat_ofNat, Nat.mod_eq_of_lt (by omega)]

theorem toNat_pageFrame (j : Fin 12) : (pageFrame j).toNat = 0x1000 * (j + 64) := by
  rw [pageFrame, BitVec.toNat_ofNat, Nat.mod_eq_of_lt (by omega)]

theorem frameOf_pageFrame (j : Fin 12) : frameOf (pageFrame j) = j + 64 := by
  rw [frameOf, toNat_pageFrame]
  omega

theorem rootFrame_rootBlock (j : Fin 8) (n : ℕ) :
    RootFrame (rootBlock j) n ↔ n / 4 = j + 1 := by
  rw [RootFrame, frameOf, toNat_rootBlock, L1_SIZE_PAGES]
  omega

theorem blockHandler_allocFrame {s s' : List (Fin 8) × List (Fin 12)} {p : PhysAddr}
    (h : blockHandler.allocFrame s = (some p, s')) :
    ∃ j l, s.2 = j :: l ∧ p = pageFrame j ∧ s' = (s.1, l.filter (· ≠ j)) := by
  obtain ⟨roots, _ | ⟨j, l⟩⟩ := s
  · cases h
  · simp only [blockHandler, Prod.mk.injEq, Option.some.injEq] at h
    exact ⟨j, l, rfl, h.1.symm, h.2.symm⟩

theorem blockHandler_allocFrames {s s' : List (Fin 8) × List (Fin 12)} {p : PhysAddr}
    (h : blockHandler.allocFrames s L1_SIZE_PAGES L1_ALIGN = (some p, s')) :
    ∃ j l, s.1 = j :: l ∧ p = rootBlock j ∧ s' = (l.filter (· ≠ j), s.2) := by
  obtain ⟨_ | ⟨j, l⟩, frames⟩ := s
  · cases h
  · simp only [blockHandler, Prod.mk.injEq, Option.some.injEq] at h
    exact ⟨j, l, rfl, h.1.symm, h.2.symm⟩

theorem freshBlocks_blockHandler : FreshBlocks blockHandler blockInUse := by
  refine ⟨⟨fun ha => ?_, ?_, fun ha hn => ?_, fun ha n hn => ?_, fun {s s'} ha => ?_, fun ha => ?_,
    ?_, fun ha i hi => ?_⟩, fun ha n hn hin => ?_, fun {s s' r} ha => ?_, fun s p n hn => ?_,
    fun s p n hn => ?_⟩
  · obtain ⟨j, l, -, rfl, -⟩ := blockHandler_allocFrame ha
    rw [toNat_pageFrame]
    exact Nat.mul_mod_right _ _
  · rintro s s' p ha rfl
    obtain ⟨j, l, -, hp, -⟩ := blockHandler_allocFrame ha
    have hj := toNat_pageFrame j
    rw [← hp] at hj
    exact absurd hj (by simp)
  · obtain ⟨j, l, hl, rfl, -⟩ := blockHandler_allocFrame ha
    exact hn.1 j (hl ▸ List.mem_cons_self) rfl
  · obtain ⟨j, l, hl, rfl, rfl⟩ := blockHandler_allocFrame ha
    obtain rfl | hn := hn
    · refine ⟨fun i hi heq => ?_, fun i _ hroot => ?_⟩
      · rw [frameOf_pageFrame, frameOf_pageFrame] at heq
        have hne := of_decide_eq_true (List.mem_filter.mp hi).2
        exact hne (Fin.ext (by omega))
      · rw [rootFrame_rootBlock, frameOf_pageFrame] at hroot
        omega
    · refine ⟨fun i hi => hn.1 i ?_, hn.2⟩
      rw [hl]
      exact List.mem_cons_of_mem _ (List.mem_filter.mp hi).1
  · obtain ⟨roots, _ | ⟨j, l⟩⟩ := s
    · obtain ⟨-, rfl⟩ := Prod.mk.inj ha
      exact fun _ hn => hn
    · cases ha
  · obtain ⟨j, l, -, rfl, -⟩ := blockHandler_allocFrames ha
    rw [toNat_rootBlock]
    exact Nat.mul_mod_right _ _
  · rintro s s' p ha rfl
    obtain ⟨j, l, -, hp, -⟩ := blockHandler_allocFrames ha
    have hj := toNat_rootBlock j
    rw [← hp] at hj
    exact absurd hj (by simp)
  · obtain ⟨j, l, hl, rfl, rfl⟩ := blockHandler_allocFrames ha
    rw [L1_SIZE_PAGES] at hi
    have hframe : frameOf (rootBlock j) = 4 * (j + 1) := by
      rw [frameOf, toNat_rootBlock]
      omega
    refine ⟨fun k _ heq => ?_, fun k hk hroot => ?_⟩
    · rw [frameOf_pageFrame] at heq
      omega
    · rw [rootFrame_rootBlock] at hroot
      have hne := of_decide_eq_true (List.mem_filter.mp hk).2
      exact hne (Fin.ext (by omega))
  · obtain ⟨j, l, hl, rfl, -⟩ := blockHandler_allocFrames ha
    exact hin.2 j (hl ▸ List.mem_cons_self) hn
  · cases r with
    | none =>
      obtain ⟨_ | ⟨j, l⟩, frames⟩ := s
      · obtain ⟨-, rfl⟩ := Prod.mk.inj ha
        exact fun _ hn => hn
      · cases ha
    | some p =>
      obtain ⟨j, l, hl, -, rfl⟩ := blockHandler_allocFrames ha
      refine fun n hn => ⟨hn.1, fun i hi => hn.2 i ?_⟩
      rw [hl]
      exact List.mem_cons_of_mem _ (List.mem_filter.mp hi).1
  · obtain ⟨hn, hne⟩ := hn
    refine ⟨fun j hj => ?_, hn.2⟩
    obtain hj | hj := List.mem_append.mp hj
    · exact hn.1 j hj
    · have hp := (of_decide_eq_true (List.mem_filter.mp hj).2).1
      rintro rfl
      exact hne (congrArg frameOf hp)
  · obtain ⟨hn, hne⟩ := hn
    refine ⟨hn.1, fun j hj => ?_⟩
    obtain hj | hj := List.mem_append.mp hj
    · exact hn.2 j hj
    · have hp := (of_decide_eq_true (List.mem_filter.mp hj).2).1
      rw [hp]
      exact hne

/-- A system without tables, with three free blocks and three free frames. -/
def blocksStart : System ⟨true, true⟩ A32PagingMetaData blockHandler where
  world := { mem := fun _ => ⟨0⟩, os := ([0, 1, 2], [0, 1, 2]), trace := [], flusher := .none }
  tables _ := none
  next := 0

theorem blocksStart_blank : blocksStart.Blank := ⟨fun _ => rfl, rfl⟩

/-- Table 1 borrows an entry of table 0 and maps another page under it; then both are dropped. -/
def blocksCalls : List SystemCall :=
  [.new, .new, .call 0 (.map 0x100000 0x5000 .size4K .READ), .copy 1 0 0x100000 0x100000,
    .call 1 (.map 0x101000 0x6000 .size4K .READ), .drop 1, .drop 0]

/-! ### Runs -/

theorem LedgerInv.execAll (hH : FreshBlocks H inUse) (I : LedgerInv inUse s L)
    {cs : List SystemCall} (hv : ∀ c ∈ cs, System.Valid c) (hcs : s.EachCall System.Careful cs) :
    ∃ L', LedgerInv inUse (s.execAll cs) L' ∧
      (L'.Leaks ↔ L.Leaks ∨ ¬s.EachCall System.Tidy cs) := by
  induction cs generalizing s L with
  | nil => exact ⟨L, I, (or_iff_left fun hno => hno trivial).symm⟩
  | cons c cs ih =>
    obtain ⟨L₁, I₁, h₁, -⟩ := I.exec hH (hv c List.mem_cons_self) hcs.1
    obtain ⟨L', I', h'⟩ := ih I₁ (fun d hd => hv d (List.mem_cons_of_mem _ hd)) hcs.2
    refine ⟨L', I', h'.trans ?_⟩
    rw [h₁, or_assoc, System.EachCall, not_and_or]

theorem LedgerInv.careful_iff (hH : FreshBlocks H inUse) (I : LedgerInv inUse s L)
    {cs : List SystemCall} (hv : ∀ c ∈ cs, System.Valid c) :
    s.EachCall System.Careful cs ↔ s.EachState System.NoDangling cs := by
  induction cs generalizing s L with
  | nil => exact iff_of_true trivial I.noDangling
  | cons c cs ih =>
    have hvc := hv c List.mem_cons_self
    have hvcs : ∀ d ∈ cs, System.Valid d := fun d hd => hv d (List.mem_cons_of_mem _ hd)
    constructor
    · rintro ⟨hc, hcs⟩
      obtain ⟨L₁, I₁, -⟩ := I.exec hH hvc hc
      exact ⟨I.noDangling, (ih I₁ hvcs).mp hcs⟩
    · rintro ⟨-, hcs⟩
      have hc : s.Careful c := by
        by_contra hc
        exact I.dangling hH hvc hc (hcs.head)
      obtain ⟨L₁, I₁, -⟩ := I.exec hH hvc hc
      exact ⟨hc, (ih I₁ hvcs).mpr hcs⟩

/-- If nobody borrows from a table, what it owns is pointed to by no other. -/
theorem LedgerInv.spares_of_lent (I : LedgerInv inUse s L) {R : List (ℕ × ℕ)} (hR : s.Lent L R)
    {t : ℕ} {x : PageTable32 B M A32PTE H} (hx : s.tables t = some x)
    (hno : ∀ b ∈ R, b.2 ≠ t) (b : Fin ENTRY_COUNT → Bool) : s.Spares t x b := by
  by_contra h
  obtain ⟨p, hp, ht, -, t', y, hne, hy, he⟩ := I.exists_of_not_spares hx h
  exact hno (t', t) (hR t' y _ p t hy hp ht he hne.symm) rfl

/-- Calls in which borrowers go before their lenders are careful. -/
theorem LedgerInv.careful_of_nested (hH : FreshBlocks H inUse) (I : LedgerInv inUse s L)
    {R : List (ℕ × ℕ)} (hR : s.Lent L R) {cs : List SystemCall}
    (hv : ∀ c ∈ cs, System.Valid c) (hn : SystemCall.AllNested R cs) :
    s.EachCall System.Careful cs := by
  induction cs generalizing s L R with
  | nil => trivial
  | cons c cs ih =>
    have hc : s.Careful c := by
      cases c with
      | new => trivial
      | call t c => trivial
      | copy dst src start size => exact fun x hx _ => I.spares_of_lent hR hx hn.1 _
      | drop t => exact fun x hx => I.spares_of_lent hR hx hn.1 _
    obtain ⟨L₁, I₁, -, hR₁⟩ := I.exec hH (hv c List.mem_cons_self) hc
    exact ⟨hc, ih I₁ (hR₁ R hR) (fun d hd => hv d (List.mem_cons_of_mem _ hd)) hn.2⟩

theorem System.Blank.careful (hH : FreshBlocks H inUse) (h₀ : s₀.Blank) {cs : List SystemCall}
    (hv : ∀ c ∈ cs, System.Valid c) (hn : SystemCall.AllNested [] cs) :
    s₀.EachCall System.Careful cs :=
  (h₀.ledger inUse).careful_of_nested hH (fun _ _ _ _ _ _ hp => hp.elim) hv hn

/-- In a run of several page tables with flags that are not empty: no page table ever points to a
table that is not allocated exactly if no call frees a table that another page table points to.
Then each table that is freed or accessed is allocated at that time, and none is obtained that is
allocated already. -/
theorem dangling_free_iff (hH : FreshBlocks H inUse) (h₀ : s₀.Blank) (cs : List SystemCall)
    (hv : ∀ c ∈ cs, System.Valid c) :
    (s₀.EachCall System.Careful cs ↔ s₀.EachState System.NoDangling cs) ∧
      (s₀.EachCall System.Careful cs → Safe (s₀.execAll cs).world.trace) := by
  have I := h₀.ledger inUse
  refine ⟨I.careful_iff hH hv, fun hcs => ?_⟩
  obtain ⟨L, I', -⟩ := I.execAll hH hv hcs
  exact I'.safe

theorem dangling_free_iff_run :
    (blocksStart.EachCall System.Careful blocksCalls ↔
        blocksStart.EachState System.NoDangling blocksCalls) ∧
      (blocksStart.EachCall System.Careful blocksCalls →
        Safe (blocksStart.execAll blocksCalls).world.trace) :=
  dangling_free_iff freshBlocks_blockHandler blocksStart_blank blocksCalls (by decide)

/-- If the flags are not empty and no table is dropped, or overwritten by a copy, while others have
borrowed from it, directly or through others, then no page table ever points to a table that is not
allocated, and each table that is freed or accessed is allocated at that time. -/
theorem borrowers_first (hH : FreshBlocks H inUse) (h₀ : s₀.Blank) (cs : List SystemCall)
    (hv : ∀ c ∈ cs, System.Valid c) (hn : SystemCall.AllNested [] cs) :
    s₀.EachState System.NoDangling cs ∧ Safe (s₀.execAll cs).world.trace := by
  have hcareful := h₀.careful hH hv hn
  obtain ⟨L, I, -⟩ := (h₀.ledger inUse).execAll hH hv hcareful
  exact ⟨((h₀.ledger inUse).careful_iff hH hv).mp hcareful, I.safe⟩

theorem borrowers_first_run : blocksStart.EachState System.NoDangling blocksCalls ∧
    Safe (blocksStart.execAll blocksCalls).world.trace :=
  borrowers_first freshBlocks_blockHandler blocksStart_blank blocksCalls (by decide) (by decide)

/-- In a careful run with flags that are not empty, which ends without page tables: every table has
been freed as often as it has been obtained exactly if no call has created a table under a borrowed
entry. -/
theorem nothing_left_iff (hH : FreshBlocks H inUse) (h₀ : s₀.Blank) (cs : List SystemCall)
    (hv : ∀ c ∈ cs, System.Valid c) (hcs : s₀.EachCall System.Careful cs)
    (hgone : ∀ t < (s₀.execAll cs).next, (s₀.execAll cs).tables t = none) :
    (∀ b, (s₀.execAll cs).world.trace.count (.free b) =
      (s₀.execAll cs).world.trace.count (.alloc b)) ↔ s₀.EachCall System.Tidy cs := by
  obtain ⟨L, I, hleaks⟩ := (h₀.ledger inUse).execAll hH hv hcs
  have hno : ¬Ledger.blank.Leaks := by
    rintro ⟨p, hp, -⟩
    exact hp
  rw [or_iff_right hno] at hleaks
  -- what is still allocated has no owner
  have howner : ∀ p ∈ L.subs, L.owner p = none := by
    intro p hp
    by_contra hsome
    obtain ⟨t, ht⟩ := Option.ne_none_iff_exists'.mp hsome
    obtain ⟨x, hx, -⟩ := I.owner hp ht
    rw [hgone t (I.lt_next hx)] at hx
    cases hx
  constructor
  · intro hcount
    by_contra htidy
    obtain ⟨p, hp, -⟩ := hleaks.mpr htidy
    have hlive : pageTable p ∈ live (s₀.execAll cs).world.trace := by
      rw [I.live]
      exact Or.inr ⟨p, hp, rfl⟩
    have hone := (I.safe.count_alloc (pageTable p)).1 hlive
    have hsame := hcount (pageTable p)
    omega
  · intro htidy b
    refine ((I.safe.count_alloc b).2 fun hb => ?_).symm
    rw [I.live] at hb
    obtain ⟨t, x, hx, -⟩ | ⟨p, hp, -⟩ := hb
    · rw [hgone t (I.lt_next hx)] at hx
      cases hx
    · exact hleaks.mp ⟨p, hp, howner p hp⟩ htidy

theorem nothing_left_iff_run :
    (∀ b, (blocksStart.execAll blocksCalls).world.trace.count (.free b) =
      (blocksStart.execAll blocksCalls).world.trace.count (.alloc b)) ↔
      blocksStart.EachCall System.Tidy blocksCalls :=
  nothing_left_iff freshBlocks_blockHandler blocksStart_blank blocksCalls (by decide)
    (blocksStart_blank.careful freshBlocks_blockHandler (by decide) (by decide)) (by decide +kernel)

end PageTableMultiarch.Bits32
