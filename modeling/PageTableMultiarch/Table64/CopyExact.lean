/-
What `copy_from` does to the answers of `query`.

* `FoundAlong` — what a walk finds: `query` answers by it, and it depends only on the
  entry of the root and on the tables below that entry;
* `LedgerInv.copy_exact` — after a copy the destination answers in the range of root
  indices as the source does, and elsewhere as before; the source answers as before, and
  both tables point to frames in use only;
* `Arch.copyFrom_exact` — in every state of a careful run;
* `copyFrom_changes_source` — a run in which a lender has given back what it had lent.
-/
import PageTableMultiarch.Table64.Lending

namespace PageTableMultiarch

open GenericPTE Radix MemEvent

variable {B : Build} {M : PagingMetaData} {PTE σ : Type} {H : PagingHandler 64 σ}
  [GenericPTE 64 PTE]

/-! ### What a walk finds -/

/-- The entry that the walk along a path finds, and its height. -/
def foundAlong (m : PhysAddr → Fin ENTRY_COUNT → PTE) (t : PhysAddr)
    (π : List (Fin ENTRY_COUNT)) : Except PagingError (PTE × ℕ) :=
  (seek m t π).map fun found => (m found.1.table found.1.index, found.2)

section Found

variable {m m' : PhysAddr → Fin ENTRY_COUNT → PTE} {t t' : PhysAddr} {π : List (Fin ENTRY_COUNT)}
  {i : Fin ENTRY_COUNT} {n : ℕ}

/-- A walk stays in the tables it reaches. -/
theorem foundAlong_agree (hπ : π.length ≤ n + 1)
    (h : ∀ s ∈ nodes child m {t} n, m' s = m s) : foundAlong m' t π = foundAlong m t π := by
  have hnode : ∀ ρ τ (j : Fin ENTRY_COUNT) s, π = ρ ++ j :: τ → resolve child m t ρ = some s →
      m' s = m s := by
    intro ρ τ j s hsplit hs
    have hlen := congrArg List.length hsplit
    rw [List.length_append, List.length_cons] at hlen
    exact h s ⟨t, rfl, ρ, by omega, hs⟩
  have hseek : seek m' t π = seek m t π :=
    seek_congr fun ρ j τ s hsplit _ hs => congrFun (hnode ρ τ j s hsplit hs) j
  rw [foundAlong, foundAlong, hseek]
  cases hs : seek m t π with
  | error e => rfl
  | ok found =>
    obtain ⟨slot, k⟩ := found
    obtain ⟨ρ, τ, hsplit, hres, -, -⟩ := seek_eq_ok hs
    rw [Except.map, Except.map, hnode ρ τ _ _ hsplit hres]

/-- Two walks that start at equal entries and go on in tables that agree. -/
theorem foundAlong_cons (hentry : m' t' i = m t i) (hπ : π.length ≤ n + 1)
    (h : ∀ u, child (m t i) = some u → ∀ s ∈ nodes child m {u} n, m' s = m s) :
    foundAlong m' t' (i :: π) = foundAlong m t (i :: π) := by
  cases π with
  | nil =>
    rw [foundAlong, foundAlong, seek, seek, Except.map, Except.map]
    exact congrArg (fun e => Except.ok (e, 0)) hentry
  | cons j π =>
    rw [foundAlong, foundAlong, seek, seek, hentry]
    split
    · rw [Except.map, Except.map]
      exact congrArg (fun e => Except.ok (e, π.length + 1)) hentry
    · cases hn : PageTable64.nextTable (m t i) with
      | error e => rfl
      | ok u => exact foundAlong_agree hπ (h u (child_of_nextTable hn))

end Found

section Query

variable (hL : M.LEVELS = 3 ∨ M.LEVELS = 4) (self other : PageTable64 B M PTE H)
  {w w' : World PTE σ} {v : VirtAddr}
include hL

/-- `query` answers by what the walk finds. -/
theorem query_eq_of_found (h : foundAlong w'.mem self.rootPaddr (vpath M v) =
    foundAlong w.mem other.rootPaddr (vpath M v)) :
    (self.query v w').1 = (other.query v w).1 := by
  rw [foundAlong, foundAlong] at h
  -- the two descents end alike: in one error, or at equal entries of one height
  cases hs : seek w.mem other.rootPaddr (vpath M v) with
  | error e =>
    cases hs' : seek w'.mem self.rootPaddr (vpath M v) with
    | error e' =>
      rw [hs, hs'] at h
      obtain rfl : e' = e := by simpa [Except.map] using h
      rw [query_of_error hL self hs', query_of_error hL other hs]
    | ok found =>
      rw [hs, hs'] at h
      simp [Except.map] at h
  | ok found =>
    cases hs' : seek w'.mem self.rootPaddr (vpath M v) with
    | error e =>
      rw [hs, hs'] at h
      simp [Except.map] at h
    | ok found' =>
      obtain ⟨slot, k⟩ := found
      obtain ⟨slot', k'⟩ := found'
      rw [hs, hs'] at h
      simp only [Except.map, Except.ok.injEq, Prod.mk.injEq] at h
      obtain ⟨hentry, hk⟩ := h
      rw [query_of_seek hL self hs', query_of_seek hL other hs, hk]
      rw [World.entry, World.entry, hentry]

omit [GenericPTE 64 PTE] in
/-- A walk starts at the index in the root table. -/
theorem vpath_root (v : VirtAddr) : ∃ π : List (Fin ENTRY_COUNT),
    vpath M v = PageTable64.rootIndex M v :: π ∧ π.length = M.LEVELS - 1 := by
  obtain h | h := hL
  · refine ⟨[p2Index v, p1Index v], ?_, by rw [h]; rfl⟩
    rw [vpath_three h, PageTable64.rootIndex, if_pos h]
  · refine ⟨[p3Index v, p2Index v, p1Index v], ?_, by rw [h]; rfl⟩
    rw [vpath_four h, PageTable64.rootIndex, if_neg (by omega)]

/-- In particular by the root entry and the tables below it. -/
theorem query_eq_of_root (hentry : w'.mem self.rootPaddr (PageTable64.rootIndex M v) =
      w.mem other.rootPaddr (PageTable64.rootIndex M v))
    (h : ∀ u, child (w.mem other.rootPaddr (PageTable64.rootIndex M v)) = some u →
      ∀ s ∈ nodes child w.mem {u} (M.LEVELS - 2), w'.mem s = w.mem s) :
    (self.query v w').1 = (other.query v w).1 := by
  obtain ⟨π, hvpath, hlen⟩ := vpath_root (M := M) hL v
  refine query_eq_of_found hL self other ?_
  rw [hvpath]
  exact foundAlong_cons hentry (by omega) h

end Query

/-! ### The copy -/

/-- The root indices from that of `start` to that of the last address, both included. -/
def RootRange (M : PagingMetaData) (start : VirtAddr) (size : Usize) (i : Fin ENTRY_COUNT) : Prop :=
  PageTable64.rootIndex M start ≤ i ∧ i ≤ PageTable64.rootIndex M (start + size - 1)

instance (start : VirtAddr) (size : Usize) (i : Fin ENTRY_COUNT) :
    Decidable (RootRange M start size i) :=
  inferInstanceAs (Decidable (_ ∧ _))

omit [GenericPTE 64 PTE] in
theorem copyRange_iff (M : PagingMetaData) (start : VirtAddr) (size : Usize)
    (i : Fin ENTRY_COUNT) : copyRange M start size i = true ↔ RootRange M start size i := by
  rw [copyRange, decide_eq_true_eq, Nat.lt_succ_iff]
  rfl

/-- After a copy the destination has the translations of the source in the range, and those
of before elsewhere; the source has its own; no other root entry has been written; and
both tables point to frames in use. -/
structure CopiedExactly (d r table : PageTable64 B M PTE H) (start : VirtAddr) (size : Usize)
    (w w' : World PTE σ) : Prop where
  inside (v : VirtAddr) : RootRange M start size (PageTable64.rootIndex M v) →
    (table.query v w').1 = (r.query v w).1
  outside (v : VirtAddr) : ¬RootRange M start size (PageTable64.rootIndex M v) →
    (table.query v w').1 = (d.query v w).1
  source (v : VirtAddr) : (r.query v w').1 = (r.query v w).1
  untouched (i : Fin ENTRY_COUNT) : ¬RootRange M start size i →
    w'.mem d.rootPaddr i = w.mem d.rootPaddr i
  live : nodes child w'.mem {d.rootPaddr, r.rootPaddr} (M.LEVELS - 1) ⊆ live w'.trace

section Copy

variable [LawfulPTE M PTE] {inUse : σ → Set PhysAddr} {w : World PTE σ} {T : Members B M PTE H}
  {n : ℕ} {L : Ledger} {dst src : ℕ} {d r : Member B M PTE H}

omit [LawfulPTE M PTE] in
/-- A table that a table owns below a root entry. -/
theorem LedgerInv.mem_ownedBelow (I : LedgerInv inUse w T n L) (hd : T dst = some d)
    {i : Fin ENTRY_COUNT} {s : PhysAddr} (hs : s ∈ d.table.ownedBelow w.mem i) :
    ∃ u ∈ L.subs, L.index u = i ∧ d.table.borrowedEntries i = false ∧
      child (w.mem d.table.rootPaddr i) = some u ∧ s ∈ nodes child w.mem {u} (M.LEVELS - 2) := by
  obtain ⟨hb, u, hu, hs⟩ := PageTableMultiarch.mem_ownedBelow.mp hs
  obtain ⟨hsub, hindex, -⟩ := I.owned hd hb hu
  exact ⟨u, hsub, hindex, hb, hu, hs⟩

/-- A copy between tables whose lenders exist, where the source points to nothing that the
copy frees. -/
theorem LedgerInv.copy_exact (I : LedgerInv inUse w T n L) (hne : dst ≠ src) (hd : T dst = some d)
    (hr : T src = some r) (hhd : Healthy T d) (hhr : Healthy T r) {start : VirtAddr}
    {size : Usize} (h0 : size ≠ 0) (hsum : start.toNat + size.toNat < 2 ^ 64)
    (hspares : Spares w d.table r.table start size) :
    ∃ table w', d.table.copyFrom r.table start size w = (.ok table, w') ∧
      CopiedExactly d.table r.table table start size w w' := by
  have hL := LawfulPTE.levels (M := M) PTE
  set l := entryIndices.filter (copyRange M start size) with hl
  have hmem_l : ∀ i, i ∈ l ↔ RootRange M start size i := by
    intro i
    rw [hl, List.mem_filter, copyRange_iff]
    exact and_iff_right (mem_entryIndices i)
  have hnodup : l.Nodup := nodup_entryIndices.filter _
  have hroots : r.table.rootPaddr ≠ d.table.rootPaddr := fun hc => hne (I.root_inj hd hr hc.symm)
  -- what the rounds do
  obtain ⟨w₁, heq, hmem₁, hfrees⟩ := copySlots_spec (w := w) hroots hnodup
    (I.copySafe hd hr hnodup)
  have hcall : d.table.copyFrom r.table start size w =
      (.ok (d.table.borrow (copyRange M start size)), { w₁ with flusher := .full }) := by
    obtain ⟨hover, -⟩ | ⟨hzero, -⟩ | ⟨-, h⟩ := copyFrom_apply d.table r.table start size w
    · omega
    · exact absurd hzero h0
    · rw [h, Op.bind_ok heq]
      rfl
  refine ⟨_, _, hcall, ?_⟩
  have hcopied : ∀ i, RootRange M start size i →
      w₁.mem d.table.rootPaddr i = w.mem r.table.rootPaddr i := by
    intro i hi
    rw [hmem₁, copiedMem, if_pos ⟨rfl, (hmem_l i).mpr hi⟩]
  have hkept : ∀ i, ¬RootRange M start size i →
      w₁.mem d.table.rootPaddr i = w.mem d.table.rootPaddr i := by
    intro i hi
    rw [hmem₁, copiedMem, if_neg fun hc => hi ((hmem_l i).mp hc.2)]
  have hmem : ∀ s, s ≠ d.table.rootPaddr → w₁.mem s = w.mem s := by
    intro s hs
    funext i
    rw [hmem₁, copiedMem, if_neg fun hc => hs hc.1]
  -- the tables below the roots are as they were
  have hbelow : ∀ {t x i u}, T t = some x → Healthy T x →
      child (w.mem x.table.rootPaddr i) = some u →
      ∀ s ∈ nodes child w.mem {u} (M.LEVELS - 2), w₁.mem s = w.mem s := by
    intro t x i u hx hh hu s hs
    have hsub := (I.slot hx hh hu).1
    exact hmem s (I.ne_root hd (nodes_mono (Set.singleton_subset_iff.mpr hsub) le_rfl hs)).symm
  refine ⟨fun v hv => ?_, fun v hv => ?_, fun v => ?_, hkept, ?_⟩
  · exact query_eq_of_root hL _ r.table (hcopied _ hv) fun u hu => hbelow hr hhr hu
  · exact query_eq_of_root hL _ d.table (hkept _ hv) fun u hu => hbelow hd hhd hu
  · exact query_eq_of_root hL r.table r.table (congrFun (hmem _ hroots) _)
      fun u hu => hbelow hr hhr hu
  -- the frames that have been freed
  have hfreed : ∀ {p}, p ∈ ⋃ i ∈ l, d.table.ownedBelow w.mem i → ∃ i, RootRange M start size i ∧
      ∃ u ∈ L.subs, L.index u = i ∧ d.table.borrowedEntries i = false ∧
        child (w.mem d.table.rootPaddr i) = some u ∧
        p ∈ nodes child w.mem {u} (M.LEVELS - 2) := by
    intro p hp
    simp only [Set.mem_iUnion, exists_prop] at hp
    obtain ⟨i, hi, hs⟩ := hp
    exact ⟨i, (hmem_l i).mp hi, I.mem_ownedBelow hd hs⟩
  have hfreed_sub : ∀ {p}, p ∈ ⋃ i ∈ l, d.table.ownedBelow w.mem i →
      p ∈ nodes child w.mem L.subs (M.LEVELS - 2) := by
    intro p hp
    obtain ⟨-, -, u, hsub, -, -, -, hs⟩ := hfreed hp
    exact nodes_mono (Set.singleton_subset_iff.mpr hsub) le_rfl hs
  obtain ⟨-, hlive⟩ := hfrees.safe I.safe (by
    rintro s (((rfl | rfl) | hs) | hs)
    · exact I.root_live hd
    · exact I.root_live hr
    · exact I.subs_live (hfreed_sub hs)
    · exact I.subs_live (hfreed_sub hs))
  have hstill : ∀ {p}, p ∈ live w.trace → p ∉ ⋃ i ∈ l, d.table.ownedBelow w.mem i →
      p ∈ live w₁.trace := by
    intro p hp hno
    rw [show live w₁.trace = _ from hlive]
    exact ⟨hp, hno⟩
  -- what is below an entry that is left, or that has been copied, has not
  have hspared : ∀ {t x i u p}, T t = some x → Healthy T x →
      child (w.mem x.table.rootPaddr i) = some u →
      (RootRange M start size i → d.table.borrowedEntries i = false →
        child (w.mem d.table.rootPaddr i) ≠ some u) →
      p ∈ nodes child w₁.mem {u} (M.LEVELS - 2) → p ∈ live w₁.trace := by
    intro t x i u p hx hh hu hno hp
    obtain ⟨hsub, hindex⟩ := I.slot hx hh hu
    rw [nodes_of_agree (hbelow hx hh hu)] at hp
    refine hstill (I.subs_live (nodes_mono (Set.singleton_subset_iff.mpr hsub) le_rfl hp)) ?_
    intro hc
    obtain ⟨j, hj, u', hsub', hindex', hb, hu', hp'⟩ := hfreed hc
    obtain ⟨_, rfl, π, hπ, hs⟩ := hp
    obtain ⟨_, rfl, π', hπ', hs'⟩ := hp'
    obtain ⟨rfl, -⟩ := I.forest hsub hsub' hπ hπ' hs hs'
    obtain rfl : i = j := hindex.symm.trans hindex'
    exact hno hj hb hu'
  rintro p ⟨root, hroot, π, hπ, hp⟩
  have hroot_live : root ∈ live w₁.trace := by
    obtain rfl | rfl := hroot
    · exact hstill (I.root_live hd) fun hc => I.root_sub hd (hfreed_sub hc)
    · exact hstill (I.root_live hr) fun hc => I.root_sub hr (hfreed_sub hc)
  obtain ⟨-, rfl⟩ | ⟨i, u, π', rfl, hu, hp⟩ := resolve_root_cases hp
  · exact hroot_live
  rw [List.length_cons] at hπ
  have hp' : p ∈ nodes child w₁.mem {u} (M.LEVELS - 2) := ⟨u, rfl, π', by omega, hp⟩
  have hsource : child (w.mem r.table.rootPaddr i) = some u → p ∈ live w₁.trace := by
    intro hu
    refine hspared hr hhr hu (fun hi hb hc => ?_) hp'
    exact hspares i ((copyRange_iff M start size i).mpr hi) hb u hc hu
  obtain rfl | rfl := hroot
  · by_cases hi : RootRange M start size i
    · exact hsource (hcopied i hi ▸ hu)
    · exact hspared hd hhd (hkept i hi ▸ hu) (fun hc => absurd hc hi) hp'
  · exact hsource (hmem _ hroots ▸ hu)

end Copy

/-- In every state of a careful run, a copy between two tables whose lenders exist and
whose source points to no table that the copy frees (it does not if it has no root entry of
the destination, see `LedgerInv.spares_of_not_lender`). -/
theorem Arch.copyFrom_exact (arch : Arch) {H : PagingHandler 64 σ} {inUse : σ → Set PhysAddr}
    (hH : FreshFrames arch.metaData H inUse) {s₀ s : System B arch.metaData arch.PTE H}
    (h₀ : s₀.Blank) (h : s₀.Run System.Careful s) {dst src : ℕ} (hne : dst ≠ src)
    {d r : Member B arch.metaData arch.PTE H} (hd : s.tables dst = some d)
    (hr : s.tables src = some r) (hhd : Healthy s.tables d) (hhr : Healthy s.tables r)
    {start : VirtAddr} {size : Usize} (h0 : size ≠ 0)
    (hsum : start.toNat + size.toNat < 2 ^ 64)
    (hspares : Spares s.world d.table r.table start size) :
    ∃ table w', d.table.copyFrom r.table start size s.world = (.ok table, w') ∧
      CopiedExactly d.table r.table table start size s.world w' := by
  obtain ⟨L, I⟩ := h.ledger hH (fun _ _ _ _ hc => hc) h₀
  exact I.copy_exact hne hd hr hhd hhr h0 hsum hspares

/-- Tables 0 and 1 map a huge page each, with the same root index. -/
def copyingCalls : List SystemCall :=
  [.new, .call 0 (.map 0 0x200000 .size2M .empty), .new,
    .call 1 (.map 0x200000 0x400000 .size2M .empty)]

theorem Arch.copyFrom_exact_run : ∃ d r, (lendingStart.execAll copyingCalls).tables 1 = some d ∧
    (lendingStart.execAll copyingCalls).tables 0 = some r ∧ ∃ table w',
      d.table.copyFrom r.table 0x1000 0x1000 (lendingStart.execAll copyingCalls).world =
        (.ok table, w') ∧
      CopiedExactly d.table r.table table 0x1000 0x1000
        (lendingStart.execAll copyingCalls).world w' := by
  obtain ⟨hcareful, h1, h0, hall⟩ : lendingStart.EachCall System.Careful copyingCalls ∧
      ((lendingStart.execAll copyingCalls).tables 1).isSome = true ∧
      ((lendingStart.execAll copyingCalls).tables 0).isSome = true ∧
      ∀ d ∈ (lendingStart.execAll copyingCalls).tables 1,
        ∀ r ∈ (lendingStart.execAll copyingCalls).tables 0,
          Healthy (lendingStart.execAll copyingCalls).tables d ∧
          Healthy (lendingStart.execAll copyingCalls).tables r ∧
          Spares (lendingStart.execAll copyingCalls).world d.table r.table 0x1000 0x1000 := by
    decide +kernel
  obtain ⟨d, hd⟩ := Option.isSome_iff_exists.mp h1
  obtain ⟨r, hr⟩ := Option.isSome_iff_exists.mp h0
  obtain ⟨hhd, hhr, hspares⟩ := hall d hd r hr
  exact ⟨d, r, hd, hr, Arch.copyFrom_exact .x64 (freshFrames_queueHandler (by decide))
    lendingStart_blank (.execAll .start hcareful) (by decide) hd hr hhd hhr (by decide)
    (by decide) hspares⟩

/-- Table 0 overwrites an entry that table 1 has borrowed, and table 4 gets one of the frames
that are given back. -/
def overwritingCalls : List SystemCall :=
  [.new, .call 0 (.map 0 0x7000 .size4K .empty), .new, .copy 1 0 0 0x1000, .new,
    .copy 0 2 0 0x1000, .new, .new]

/-- A copy from table 1 to table 4 then changes what table 1 answers, although its lender
exists and table 4 has lent nothing. -/
theorem copyFrom_changes_source :
    FreshFrames X64PagingMetaData queueHandler queueInUse ∧ lendingStart.Blank ∧
      lendingStart.Run System.Valid (lendingStart.execAll overwritingCalls) ∧
      ∃ d r, (lendingStart.execAll overwritingCalls).tables 4 = some d ∧
        (lendingStart.execAll overwritingCalls).tables 1 = some r ∧
        (Healthy (lendingStart.execAll overwritingCalls).tables d ∧
          Healthy (lendingStart.execAll overwritingCalls).tables r ∧ d.lent = false ∧
          4 ∉ r.lenders) ∧
        ∃ table w', d.table.copyFrom r.table 0 0x1000
            (lendingStart.execAll overwritingCalls).world = (.ok table, w') ∧
          (r.table.query 0 w').1 ≠
            (r.table.query 0 (lendingStart.execAll overwritingCalls).world).1 := by
  obtain ⟨hvalid, h4, h1, hall⟩ : lendingStart.EachCall System.Valid overwritingCalls ∧
      ((lendingStart.execAll overwritingCalls).tables 4).isSome = true ∧
      ((lendingStart.execAll overwritingCalls).tables 1).isSome = true ∧
      ∀ d ∈ (lendingStart.execAll overwritingCalls).tables 4,
        ∀ r ∈ (lendingStart.execAll overwritingCalls).tables 1,
          (Healthy (lendingStart.execAll overwritingCalls).tables d ∧
            Healthy (lendingStart.execAll overwritingCalls).tables r ∧ d.lent = false ∧
            4 ∉ r.lenders) ∧
          ((d.table.copyFrom r.table 0 0x1000 >>= fun _ => pure ())
            (lendingStart.execAll overwritingCalls).world).1 = .ok () ∧
          ((d.table.copyFrom r.table 0 0x1000 >>= fun _ => r.table.query 0)
            (lendingStart.execAll overwritingCalls).world).1 ≠
              (r.table.query 0 (lendingStart.execAll overwritingCalls).world).1 := by
    decide +kernel
  obtain ⟨d, hd⟩ := Option.isSome_iff_exists.mp h4
  obtain ⟨r, hr⟩ := Option.isSome_iff_exists.mp h1
  obtain ⟨hshared, hok, hquery⟩ := hall d hd r hr
  refine ⟨freshFrames_queueHandler (by decide), lendingStart_blank, .execAll .start hvalid,
    d, r, hd, hr, hshared, ?_⟩
  rcases hcopy : d.table.copyFrom r.table 0 0x1000 (lendingStart.execAll overwritingCalls).world
    with ⟨table | e | _, w'⟩
  · rw [Op.bind_ok hcopy] at hquery
    exact ⟨table, w', rfl, hquery⟩
  · rw [Op.bind_err hcopy] at hok
    exact absurd hok (by simp)
  · rw [Op.bind_panic hcopy] at hok
    exact absurd hok (by simp)

end PageTableMultiarch
