/-
Copying root entries in a system of several page tables.

* `LedgerInv.lend` — the lenders of a copy are recorded before its rounds;
* `LedgerInv.copySlots` — the rounds take the trees under the entries of the destination
  out of the ledger and make the entries borrowed;
* `LedgerInv.copy` — the call.
-/
import PageTableMultiarch.Table64.SystemOps

namespace PageTableMultiarch

open GenericPTE Radix MemEvent

variable {B : Build} {M : PagingMetaData} {PTE σ : Type} {H : PagingHandler 64 σ}
  {inUse : σ → Set PhysAddr} {w w' : World PTE σ}
  {T T' : Members B M PTE H} {n : ℕ} {L : Ledger} {t : ℕ} {x : Member B M PTE H}

/-- A table with more borrowed entries. -/
def Member.borrow (x : Member B M PTE H) (b : Fin ENTRY_COUNT → Bool) : Member B M PTE H :=
  { x with table := x.table.borrow b }

/-- The system with more borrowed entries in one table. -/
def Members.borrow (T : Members B M PTE H) (dst : ℕ) (d : Member B M PTE H)
    (b : Fin ENTRY_COUNT → Bool) : Members B M PTE H :=
  Function.update T dst (some (d.borrow b))

theorem Members.borrow_self (T : Members B M PTE H) (dst : ℕ) (d : Member B M PTE H)
    (b : Fin ENTRY_COUNT → Bool) : T.borrow dst d b dst = some (d.borrow b) :=
  Function.update_self dst _ T

theorem Members.borrow_of_ne {T : Members B M PTE H} {dst : ℕ} {d : Member B M PTE H}
    {b : Fin ENTRY_COUNT → Bool} (h : t ≠ dst) : T.borrow dst d b t = T t :=
  Function.update_of_ne h _ T

/-! ### The tables after a copy -/

section Copied

variable {dst src : ℕ} {d r : Member B M PTE H} {table : PageTable64 B M PTE H}

theorem Members.copied_dst (T : Members B M PTE H) (dst src : ℕ) (d r : Member B M PTE H)
    (table : PageTable64 B M PTE H) : T.copied dst src d r table dst =
      some { d with table := table, lenders := src :: r.lenders ++ d.lenders } :=
  Function.update_self dst _ _

/-- A table other than the destination lends its entries, if it is the source. -/
theorem Members.copied_of_some (hr : T src = some r) (table : PageTable64 B M PTE H)
    (ht : t ≠ dst) (hx : T t = some x) : ∃ x', T.copied dst src d r table t = some x' ∧
      x'.table = x.table ∧ x'.lenders = x.lenders ∧ (x.lent = true → x'.lent = true) ∧
      (t = src → x'.lent = true) := by
  rw [Members.copied, Function.update_of_ne ht]
  by_cases hsrc : t = src
  · subst hsrc
    obtain rfl : x = r := Option.some_inj.mp (hx.symm.trans hr)
    exact ⟨_, Function.update_self _ _ _, rfl, rfl, fun _ => rfl, fun _ => rfl⟩
  · rw [Function.update_of_ne hsrc]
    exact ⟨x, hx, rfl, rfl, fun h => h, fun hc => absurd hc hsrc⟩

theorem Members.copied_isSome_iff (hd : T dst = some d) (hr : T src = some r) :
    (T.copied dst src d r table t).isSome = true ↔ (T t).isSome = true := by
  by_cases ht : t = dst
  · subst ht
    rw [Members.copied_dst, hd]
    rfl
  · rw [Members.copied, Function.update_of_ne ht]
    by_cases hsrc : t = src
    · subst hsrc
      rw [Function.update_self, hr]
      rfl
    · rw [Function.update_of_ne hsrc]

/-- Such a table was there before, with the same entries. -/
theorem Members.of_copied (hd : T dst = some d) (hr : T src = some r) (ht : t ≠ dst)
    (hx : T.copied dst src d r table t = some x) : ∃ x₀, T t = some x₀ ∧ x.table = x₀.table ∧
      x.lenders = x₀.lenders ∧ (x₀.lent = true → x.lent = true) ∧ (t = src → x.lent = true) := by
  obtain ⟨x₀, hx₀⟩ := Option.isSome_iff_exists.mp
    ((Members.copied_isSome_iff hd hr).mp (Option.isSome_of_eq_some hx))
  obtain ⟨x', hx', h⟩ := Members.copied_of_some hr table ht hx₀
  obtain rfl : x' = x := Option.some_inj.mp (hx'.symm.trans hx)
  exact ⟨x₀, hx₀, h⟩

end Copied

/-! ### The rounds -/

variable [GenericPTE 64 PTE]

/-- The trees under the entries to be overwritten are the destination's own. -/
theorem LedgerInv.copySafe (I : LedgerInv inUse w T n L) {dst src : ℕ} {d r : Member B M PTE H}
    (hd : T dst = some d) (hr : T src = some r) {l : List (Fin ENTRY_COUNT)} (hl : l.Nodup) :
    CopySafe d.table r.table l w.mem := by
  have hown := (I.owned_eq hd).1
  refine ⟨fun _ hb hu => hown.forest hb hu, hl.imp hown.disjoint_below,
    fun _ => hown.root_below _, fun {i} _ hc => ?_⟩
  obtain ⟨hb, u, hu, hs⟩ := mem_ownedBelow.mp hc
  have hsub := (I.owned hd hb hu).1
  exact I.root_sub hr (nodes_mono (Set.singleton_subset_iff.mpr hsub) le_rfl hs)

section Copy

variable (hH : FreshFrames M H inUse) {dst src : ℕ} {d r : Member B M PTE H}
  (hne : dst ≠ src)

include hH hne

/-- The rounds of `copy_from`.  What the destination gives back is pointed to by no other
healthy table. -/
theorem LedgerInv.copySlots (I : LedgerInv inUse w T n L) (hd : T dst = some d)
    (hr : T src = some r) (hsrc : src ∈ d.lenders) (hsub : r.lenders ⊆ d.lenders)
    {l : List (Fin ENTRY_COUNT)} (hl : l.Nodup)
    (hspares : ∀ {t x i u}, t ≠ dst → T t = some x → Healthy T x → i ∈ l →
      d.table.borrowedEntries i = false → child (w.mem d.table.rootPaddr i) = some u →
      child (w.mem x.table.rootPaddr i) ≠ some u) :
    ∃ w' L', forEach l (copySlot d.table r.table) w = (.ok (), w') ∧
      LedgerInv inUse w' (T.borrow dst d fun j => decide (j ∈ l)) n L' ∧
      (LedgerExact w T L → LedgerExact w' (T.borrow dst d fun j => decide (j ∈ l)) L') ∧
      ∀ p ∉ nodes child w.mem (L.ownedBy dst) (M.LEVELS - 2),
        w'.trace.count (.free p) = w.trace.count (.free p) := by
  set S : Set PhysAddr := {u | ∃ i ∈ l, d.table.borrowedEntries i = false ∧
    child (w.mem d.table.rootPaddr i) = some u} with hSdef
  set N := nodes child w.mem S (M.LEVELS - 2) with hN
  have hS : S ⊆ L.ownedBy dst := by
    rintro u ⟨i, -, hb, hu⟩
    obtain ⟨husub, -, ho⟩ := I.owned hd hb hu
    exact ⟨husub, ho⟩
  have hSsub : S ⊆ L.subs := fun u hu => (hS hu).1
  have hNsub : N ⊆ nodes child w.mem L.subs (M.LEVELS - 2) := nodes_mono hSsub le_rfl
  have hbelow : (⋃ i ∈ l, d.table.ownedBelow w.mem i) = N := by
    ext s
    simp only [Set.mem_iUnion, mem_ownedBelow, exists_prop]
    constructor
    · rintro ⟨i, hi, hb, u, hu, v, rfl, hs⟩
      exact ⟨v, ⟨i, hi, hb, hu⟩, hs⟩
    · rintro ⟨u, ⟨i, hi, hb, hu⟩, hs⟩
      exact ⟨i, hi, hb, u, hu, u, rfl, hs⟩
  have hroot_ne : ∀ {t x}, t ≠ dst → T t = some x → x.table.rootPaddr ≠ d.table.rootPaddr :=
    fun ht hx hc => ht (I.root_inj hx hd hc)
  -- what the rounds do
  obtain ⟨w', heq, hmem', h⟩ := copySlots_spec (w := w) (hroot_ne hne.symm hr) hl
    (I.copySafe hd hr hl)
  rw [hbelow] at h
  set T' := T.borrow dst d fun j => decide (j ∈ l) with hT'
  obtain ⟨hsafe, hlive⟩ := h.safe I.safe (by
    rintro s (((rfl | rfl) | hs) | hs)
    · exact I.root_live hd
    · exact I.root_live hr
    · exact I.subs_live (hNsub hs)
    · exact I.subs_live (hNsub hs))
  replace hsafe : Safe w'.trace := hsafe
  replace hlive : live w'.trace = live w.trace \ N := hlive
  obtain ⟨tr, htr, -⟩ := h.events
  replace htr : w'.trace = tr ++ w.trace := htr
  have hroot : ∀ {t x}, T t = some x → x.table.rootPaddr ∈ live w'.trace := by
    intro t x hx
    rw [hlive]
    exact ⟨I.root_live hx, fun hc => I.root_sub hx (hNsub hc)⟩
  have hmem : ∀ s, s ≠ d.table.rootPaddr → w'.mem s = w.mem s := by
    intro s hs
    funext j
    rw [hmem', copiedMem, if_neg fun hc => hs hc.1]
  have hnode : ∀ s ∈ nodes child w.mem L.subs (M.LEVELS - 2), w'.mem s = w.mem s := fun s hs =>
    hmem s (I.ne_root hd hs).symm
  have hcopied : ∀ i ∈ l, w'.mem d.table.rootPaddr i = w.mem r.table.rootPaddr i := by
    intro i hi
    rw [hmem', copiedMem, if_pos ⟨rfl, hi⟩]
  have hkept : ∀ i ∉ l, w'.mem d.table.rootPaddr i = w.mem d.table.rootPaddr i := by
    intro i hi
    rw [hmem', copiedMem, if_neg fun hc => hi hc.2]
  -- the tables of the system now, and before
  have hnow : ∀ {t x'}, T' t = some x' →
      t = dst ∧ x' = d.borrow (fun j => decide (j ∈ l)) ∨ t ≠ dst ∧ T t = some x' := by
    intro t x' hx'
    by_cases ht : t = dst
    · rw [hT', ht, Members.borrow_self, Option.some_inj] at hx'
      exact Or.inl ⟨ht, hx'.symm⟩
    · rw [hT', Members.borrow_of_ne ht] at hx'
      exact Or.inr ⟨ht, hx'⟩
  have hsame : SameTables T T' := by
    intro t x' hx'
    obtain ⟨rfl, rfl⟩ | ⟨-, hx'⟩ := hnow hx'
    · exact ⟨d, hd, rfl, rfl, rfl⟩
    · exact ⟨x', hx', rfl, rfl, rfl⟩
  have hev : Evolves w w' := by
    refine ⟨tr, htr, fun s hs => Or.inl ?_⟩
    have : s = d.table.rootPaddr := by
      by_contra hc
      exact hs (hmem s hc)
    exact this ▸ I.root_live hd
  refine ⟨w', L.without S, heq, I.shrink hSsub hsame hev hsafe ?_ hnode ?_ ?_ ?_ ?_ ?_ ?_,
    fun E => E.shrink I.forest hSsub hnode (fun hp => hlive.subset hp)
      fun {t x} hx _ => ?_, fun p hp => h.count_free fun hc => hp (nodes_mono hS le_rfl hc)⟩
  · rw [hlive]
    exact (Set.sdiff_subset_sdiff_left I.inUse).trans (h.os hH)
  · rw [hlive]
    exact Set.sdiff_subset_sdiff_left I.subs_live
  · intro t x' hx'
    obtain ⟨x, hx, hrt, -⟩ := hsame hx'
    rw [hrt]
    exact hroot hx
  · intro t x' j u hx' hb hu
    obtain ⟨rfl, rfl⟩ | ⟨ht, hx'⟩ := hnow hx'
    · rw [Member.borrow, borrow_borrowedEntries, Bool.or_eq_false_iff,
        decide_eq_false_iff_not] at hb
      rw [Member.borrow, borrow_rootPaddr, hkept j hb.2] at hu
      refine ⟨?_, d, hd, hb.1, hu⟩
      rintro ⟨i, hi, hbi, hui⟩
      obtain ⟨-, hindex, -⟩ := I.owned hd hbi hui
      obtain ⟨-, hj, -⟩ := I.owned hd hb.1 hu
      exact hb.2 (hj.symm.trans hindex ▸ hi)
    · rw [hmem _ (hroot_ne ht hx')] at hu
      refine ⟨fun hc => ?_, x', hx', hb, hu⟩
      have ho := (I.owned hx' hb hu).2.2
      rw [(hS hc).2, Option.some_inj] at ho
      exact ht ho.symm
  · intro u t hsub hnotS ho
    obtain ⟨x, hx, hb, hu⟩ := I.owner hsub ho
    by_cases ht : t = dst
    · subst ht
      obtain rfl : x = d := Option.some_inj.mp (hx.symm.trans hd)
      have hi : L.index u ∉ l := fun hc => hnotS ⟨_, hc, hb, hu⟩
      refine ⟨_, Members.borrow_self _ _ _ _, ?_, ?_⟩
      · rw [Member.borrow, borrow_borrowedEntries, hb, decide_eq_false hi]
        rfl
      · rw [Member.borrow, borrow_rootPaddr, hkept _ hi]
        exact hu
    · refine ⟨x, (Members.borrow_of_ne ht).trans hx, hb, ?_⟩
      rw [hmem _ (hroot_ne ht hx)]
      exact hu
  · intro t x' j u hx' hb hu
    obtain ⟨rfl, rfl⟩ | ⟨ht, hx'⟩ := hnow hx'
    · rw [Member.borrow, borrow_rootPaddr] at hu
      by_cases hj : j ∈ l
      · -- an entry copied
        rw [hcopied j hj] at hu
        exact ⟨src, r, hr, hsub, hu, Or.inr hsrc⟩
      · rw [hkept j hj] at hu
        rw [Member.borrow, borrow_borrowedEntries, decide_eq_false hj, Bool.or_false] at hb
        exact ⟨t, d, hd, fun _ hz => hz, hu, Or.inl hb⟩
    · rw [hmem _ (hroot_ne ht hx')] at hu
      exact ⟨t, x', hx', fun _ hz => hz, hu, Or.inl hb⟩
  · intro u huS
    obtain ⟨i, hi, hb, hu⟩ := id huS
    refine ⟨fun _ p hp => ?_, fun {t x' j} hx' hlends hchild hh => ?_⟩
    · have hpN : p ∈ N := by
        rw [nodes_of_agree fun s hs => hnode s
          (nodes_mono (Set.singleton_subset_iff.mpr (hSsub huS)) le_rfl hs)] at hp
        exact nodes_mono (Set.singleton_subset_iff.mpr huS) le_rfl hp
      rw [hlive, htr]
      exact ⟨fun hc => hc.2 hpN,
        List.mem_append_right tr (alloc_mem_of_live (I.subs_live (hNsub hpN)))⟩
    · obtain rfl : i = j := (I.owned hd hb hu).2.1.symm.trans hlends.index
      obtain ⟨rfl, rfl⟩ | ⟨ht, hx⟩ := hnow hx'
      · -- the entry has been copied from the source
        rw [Member.borrow, borrow_rootPaddr, hcopied i hi] at hchild
        exact hspares hne.symm hr (hsame.healthy hsub hh) hi hb hu hchild
      · rw [hmem _ (hroot_ne ht hx)] at hchild
        exact hspares ht hx (hsame.healthy (fun _ hz => hz) hh) hi hb hu hchild
  · by_cases ht : t = dst
    · subst ht
      obtain rfl : x = d := Option.some_inj.mp (hx.symm.trans hd)
      exact ⟨t, _, Members.borrow_self _ _ _ _, rfl⟩
    · exact ⟨t, x, (Members.borrow_of_ne ht).trans hx, rfl⟩

omit hH in
/-- Recording the lenders of a copy. -/
theorem LedgerInv.lend (I : LedgerInv inUse w T n L) (hd : T dst = some d) (hr : T src = some r) :
    LedgerInv inUse w (T.copied dst src d r d.table) n L ∧
      (LedgerExact w T L → LedgerExact w (T.copied dst src d r d.table) L) := by
  -- each table keeps its entries; only the destination has more lenders
  have hnow : ∀ {t x'}, T.copied dst src d r d.table t = some x' → ∃ x, T t = some x ∧
      x'.table = x.table ∧ (x.lent = true → x'.lent = true) ∧ x.lenders ⊆ x'.lenders ∧
      (t = src → x'.lent = true) ∧ (t ≠ dst → x'.lenders = x.lenders) ∧
      (t = dst → x'.lenders = src :: r.lenders ++ d.lenders) := by
    intro t x' hx'
    by_cases ht : t = dst
    · subst ht
      rw [Members.copied_dst, Option.some_inj] at hx'
      subst hx'
      exact ⟨d, hd, rfl, fun h => h, fun z hz => List.mem_append_right _ hz,
        fun hc => absurd hc hne, fun hc => absurd rfl hc, fun _ => rfl⟩
    · obtain ⟨x, hx, htable, hlenders, hlent, hsrc⟩ := Members.of_copied hd hr ht hx'
      exact ⟨x, hx, htable, hlent, fun z hz => hlenders ▸ hz, hsrc, fun _ => hlenders,
        fun hc => absurd hc ht⟩
  have hthen : ∀ {t x}, T t = some x → ∃ x', T.copied dst src d r d.table t = some x' ∧
      x'.table = x.table := by
    intro t x hx
    by_cases ht : t = dst
    · subst ht
      obtain rfl : x = d := Option.some_inj.mp (hx.symm.trans hd)
      exact ⟨_, T.copied_dst t src x r x.table, rfl⟩
    · obtain ⟨x', hx', htable, -⟩ := Members.copied_of_some hr d.table ht hx
      exact ⟨x', hx', htable⟩
  have hhealthy : ∀ {x x' : Member B M PTE H}, x.lenders ⊆ x'.lenders →
      Healthy (T.copied dst src d r d.table) x' → Healthy T x := fun hsub hh z hz =>
    (Members.copied_isSome_iff hd hr).mp (hh z (hsub hz))
  refine ⟨{ I with
    root_live := ?_, root_sub := ?_, root_inj := ?_, owned := ?_, owner := ?_, borrowed := ?_
    stale := ?_, lent := ?_, lt_next := ?_ }, fun E => ⟨fun hp => ?_, E.owned⟩⟩
  · intro t x' hx'
    obtain ⟨x, hx, htable, -⟩ := hnow hx'
    rw [htable]
    exact I.root_live hx
  · intro t x' hx'
    obtain ⟨x, hx, htable, -⟩ := hnow hx'
    rw [htable]
    exact I.root_sub hx
  · intro t t' x' y' hx' hy' heq
    obtain ⟨x, hx, htable, -⟩ := hnow hx'
    obtain ⟨y, hy, htable', -⟩ := hnow hy'
    exact I.root_inj hx hy (by rw [← htable, ← htable', heq])
  · intro t x' i u hx'
    obtain ⟨x, hx, htable, -⟩ := hnow hx'
    rw [htable]
    exact I.owned hx
  · intro u t hu ho
    obtain ⟨x, hx, hb, hchild⟩ := I.owner hu ho
    obtain ⟨x', hx', htable⟩ := hthen hx
    exact ⟨x', hx', by rwa [htable], by rwa [htable]⟩
  · intro t x' i u hx' hh hb hu
    obtain ⟨x, hx, htable, -, hsub, -⟩ := hnow hx'
    rw [htable] at hb hu
    exact (I.borrowed hx (hhealthy hsub hh) hb hu).mono hsub
  · intro t x' i u hx' hb hu
    obtain ⟨x, hx, htable, -, hsub, -⟩ := hnow hx'
    rw [htable] at hb hu
    exact (I.stale hx hb hu).imp_left fun h => h.mono hsub
  · intro t z x' y' hx' hz hy'
    obtain ⟨x, hx, -, -, -, -, hother, hdst⟩ := hnow hx'
    obtain ⟨y, hy, -, hylent, -, hysrc, -⟩ := hnow hy'
    by_cases ht : t = dst
    · rw [hdst ht, List.cons_append, List.mem_cons, List.mem_append] at hz
      obtain rfl | hz | hz := hz
      · exact hysrc rfl
      · exact hylent (I.lent hr hz hy)
      · exact hylent (I.lent hd hz hy)
    · rw [hother ht] at hz
      exact hylent (I.lent hx hz hy)
  · intro t x' hx'
    obtain ⟨x, hx, -, -, -, -, hother, hdst⟩ := hnow hx'
    refine ⟨(I.lt_next hx).1, fun z hz => ?_⟩
    by_cases ht : t = dst
    · rw [hdst ht, List.cons_append, List.mem_cons, List.mem_append] at hz
      obtain rfl | hz | hz := hz
      · exact (I.lt_next hr).1
      · exact (I.lt_next hr).2 z hz
      · exact (I.lt_next hd).2 z hz
    · rw [hother ht] at hz
      exact (I.lt_next hx).2 z hz
  · obtain ⟨t, x, hx, rfl⟩ | hnode := E.live hp
    · obtain ⟨x', hx', htable⟩ := hthen hx
      exact Or.inl ⟨t, x', hx', by rw [htable]⟩
    · exact Or.inr hnode

omit hH hne in
theorem copyRange_of_not_lends {start : VirtAddr} {size : Usize} (h0 : size ≠ 0)
    (h : lends M start size = false) (i : Fin ENTRY_COUNT) : copyRange M start size i = false := by
  rw [lends, decide_eq_true h0, Bool.true_and, decide_eq_false_iff_not] at h
  rw [copyRange, decide_eq_false_iff_not]
  omega

/-- A call of `copy_from` panics at once, copies nothing, or copies the entries of its
range and frees only what the destination owned. -/
theorem LedgerInv.copy (I : LedgerInv inUse w T n L) (hd : T dst = some d) (hr : T src = some r)
    (start : VirtAddr) (size : Usize) (hspares : size ≠ 0 → ∀ {t x}, t ≠ dst → T t = some x →
      Healthy T x → Spares w d.table x.table start size) :
    (∃ fl, d.table.copyFrom r.table start size w = (.panic, { w with flusher := fl }) ∨
      lends M start size = false ∧ ∃ table,
        d.table.copyFrom r.table start size w = (.ok table, { w with flusher := fl })) ∨
    lends M start size = true ∧ ∃ table w' L',
      d.table.copyFrom r.table start size w = (.ok table, w') ∧
      LedgerInv inUse w' (T.copied dst src d r table) n L' ∧
      (LedgerExact w T L → LedgerExact w' (T.copied dst src d r table) L') ∧
      ∀ p ∉ nodes child w.mem (L.ownedBy dst) (M.LEVELS - 2),
        w'.trace.count (.free p) = w.trace.count (.free p) := by
  obtain ⟨-, h⟩ | ⟨h0, h⟩ | ⟨h0, h⟩ := copyFrom_apply d.table r.table start size w
  · exact Or.inl ⟨w.flusher, Or.inl h⟩
  · exact Or.inl ⟨w.flusher, Or.inr ⟨by simp [lends, h0], d.table, h⟩⟩
  cases hl : lends M start size with
  | false =>
    have hnil : entryIndices.filter (copyRange M start size) = [] := by
      refine List.filter_eq_nil_iff.mpr fun i _ => ?_
      simp [copyRange_of_not_lends h0 hl i]
    rw [hnil] at h
    exact Or.inl ⟨.full, Or.inr ⟨rfl, _, h⟩⟩
  | true =>
    refine Or.inr ⟨rfl, ?_⟩
    set d₀ : Member B M PTE H := { d with lenders := src :: r.lenders ++ d.lenders } with hd₀
    obtain ⟨I₀, E₀⟩ := I.lend hne hd hr
    have hd' : T.copied dst src d r d.table dst = some d₀ := T.copied_dst dst src d r d.table
    have hr' : T.copied dst src d r d.table src = some { r with lent := true } := by
      rw [Members.copied, Function.update_of_ne hne.symm, Function.update_self]
    obtain ⟨w', L', heq, I', E', hfree⟩ := I₀.copySlots hH hne hd' hr' List.mem_cons_self
      (fun z hz => List.mem_cons_of_mem _ (List.mem_append_left _ hz))
      (nodup_entryIndices.filter (copyRange M start size)) fun {t x i u} ht hx hh hi hb hu => by
        obtain ⟨x₀, hx₀, htable, hlenders, -⟩ := Members.of_copied hd hr ht hx
        have hhealthy : Healthy T x₀ := fun z hz =>
          (Members.copied_isSome_iff hd hr).mp (hh z (hlenders ▸ hz))
        rw [htable]
        exact hspares h0 ht hx₀ hhealthy i (List.mem_filter.mp hi).2 hb u hu
    have hT : ((T.copied dst src d r d.table).borrow dst d₀ fun j =>
        decide (j ∈ entryIndices.filter (copyRange M start size))) =
          T.copied dst src d r (d.table.borrow (copyRange M start size)) := by
      have : (fun j => decide (j ∈ entryIndices.filter (copyRange M start size))) =
          copyRange M start size := by
        funext j
        simp [List.mem_filter, mem_entryIndices]
      rw [this, Members.borrow, Members.copied, Function.update_idem]
      rfl
    rw [hT] at I' E'
    rw [Op.bind_ok heq] at h
    -- what is left to do is to ask for a full flush
    have hflush := I'.of_walks { w' with flusher := .full } (.of_mem_eq [] rfl rfl) I'.safe
      rfl I'.inUse (fun _ _ _ _ => rfl) fun _ _ => rfl
    exact ⟨_, _, L', h, hflush.1, fun E => hflush.2 (E' (E₀ E)), hfree⟩

end Copy

end PageTableMultiarch
