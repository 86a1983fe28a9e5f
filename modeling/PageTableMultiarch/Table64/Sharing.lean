/-
What one page table sees of the changes that another one makes.

`copy_from` copies root entries, so that two tables walk through the same lower tables.
A call of one of them is seen in the other exactly there.

* `Shared` — two root entries of one index point to the same table;
* `Elsewhere` — what a change of one table leaves alone in another: its root, and the tables
  under the root entries that the two do not share;
* `LedgerInv.elsewhere` — a call of a table, seen from another one;
* `Arch.call_seen_elsewhere` — in every state of a careful run;
* `Arch.copies_stay_in_sync` — what has been copied stays shared, whatever is called next.
-/
import PageTableMultiarch.Table64.CopyExact

namespace PageTableMultiarch

open GenericPTE Radix MemEvent

variable {B : Build} {M : PagingMetaData} {PTE σ : Type} {H : PagingHandler 64 σ}
  [GenericPTE 64 PTE]

/-! ### Shared root entries -/

/-- The root entries of two tables point to the same table. -/
def Shared (w : World PTE σ) (x y : PageTable64 B M PTE H) (i : Fin ENTRY_COUNT) : Prop :=
  ∃ u, child (w.mem x.rootPaddr i) = some u ∧ child (w.mem y.rootPaddr i) = some u

instance (w : World PTE σ) (x y : PageTable64 B M PTE H) (i : Fin ENTRY_COUNT) :
    Decidable (Shared w x y i) :=
  decidable_of_iff ((child (w.mem x.rootPaddr i)).isSome = true ∧
      child (w.mem y.rootPaddr i) = child (w.mem x.rootPaddr i)) <| by
    rw [Shared]
    cases child (w.mem x.rootPaddr i) <;> simp

/-- Walks of two tables agree under a root entry that they share. -/
theorem Shared.found_eq (hL : M.LEVELS = 3 ∨ M.LEVELS = 4) {w : World PTE σ}
    {x y : PageTable64 B M PTE H} {v : VirtAddr} (h : Shared w x y (PageTable64.rootIndex M v)) :
    foundAlong w.mem y.rootPaddr (vpath M v) = foundAlong w.mem x.rootPaddr (vpath M v) := by
  obtain ⟨u, hx, hy⟩ := h
  obtain ⟨π, hvpath, hlen⟩ := vpath_root (M := M) hL v
  have hπ : π ≠ [] := by
    intro hc
    rw [hc, List.length_nil] at hlen
    omega
  rw [hvpath, foundAlong, foundAlong, seek_cons_of_child hπ hx, seek_cons_of_child hπ hy]

/-- So they answer alike. -/
theorem Shared.query_eq (hL : M.LEVELS = 3 ∨ M.LEVELS = 4) {w : World PTE σ}
    {x y : PageTable64 B M PTE H} {v : VirtAddr} (h : Shared w x y (PageTable64.rootIndex M v)) :
    (y.query v w).1 = (x.query v w).1 :=
  query_eq_of_found hL y x (h.found_eq hL)

/-- A change of table `x`, as it is seen from table `y`. -/
structure Elsewhere (M : PagingMetaData) (x y : PageTable64 B M PTE H) (w w' : World PTE σ) :
    Prop where
  root : w'.mem y.rootPaddr = w.mem y.rootPaddr
  shared (i : Fin ENTRY_COUNT) : Shared w' x y i ↔ Shared w x y i
  below {i : Fin ENTRY_COUNT} {u s : PhysAddr} : ¬Shared w x y i →
    child (w.mem y.rootPaddr i) = some u → s ∈ nodes child w.mem {u} (M.LEVELS - 2) →
    w'.mem s = w.mem s

section Elsewhere

variable {x y : PageTable64 B M PTE H} {w w' w'' : World PTE σ}

theorem Elsewhere.of_mem_eq (hmem : w'.mem = w.mem) : Elsewhere M x y w w' where
  root := by rw [hmem]
  shared i := by rw [Shared, Shared, hmem]
  below _ _ _ := by rw [hmem]

theorem Elsewhere.refl (w : World PTE σ) : Elsewhere M x y w w := .of_mem_eq rfl

theorem Elsewhere.trans (h : Elsewhere M x y w w') (h' : Elsewhere M x y w' w'') :
    Elsewhere M x y w w'' where
  root := h'.root.trans h.root
  shared i := (h'.shared i).trans (h.shared i)
  below {i u s} hno hu hs := by
    have hnodes := nodes_of_agree fun v hv => h.below hno hu hv
    have hroot : w'.mem y.rootPaddr i = w.mem y.rootPaddr i := by rw [h.root]
    rw [← hnodes] at hs
    exact (h'.below (fun hc => hno ((h.shared i).mp hc)) (hroot ▸ hu) hs).trans
      (h.below hno hu (hnodes ▸ hs))

/-- What table `y` finds where nothing is shared. -/
theorem Elsewhere.found_eq (hL : M.LEVELS = 3 ∨ M.LEVELS = 4) (h : Elsewhere M x y w w')
    {v : VirtAddr} (hno : ¬Shared w x y (PageTable64.rootIndex M v)) :
    foundAlong w'.mem y.rootPaddr (vpath M v) = foundAlong w.mem y.rootPaddr (vpath M v) := by
  obtain ⟨π, hvpath, hlen⟩ := vpath_root (M := M) hL v
  rw [hvpath]
  exact foundAlong_cons (n := M.LEVELS - 2) (congrFun h.root _) (by omega) fun u hu s hs =>
    h.below hno hu hs

end Elsewhere

/-! ### One step -/

section Step

variable {inUse : σ → Set PhysAddr} {w w' : World PTE σ} {T : Members B M PTE H} {n : ℕ}
  {L : Ledger} {t t' : ℕ} {x y : Member B M PTE H}

/-- The trees under two root entries that are not shared have no table in common. -/
theorem LedgerInv.disjoint_of_not_shared (I : LedgerInv inUse w T n L) (hx : T t = some x)
    (hhx : Healthy T x) (hy : T t' = some y) (hhy : Healthy T y) {i j : Fin ENTRY_COUNT}
    {u v s : PhysAddr} (hno : ¬Shared w x.table y.table i)
    (hu : child (w.mem y.table.rootPaddr i) = some u)
    (hv : child (w.mem x.table.rootPaddr j) = some v)
    (hsu : s ∈ nodes child w.mem {u} (M.LEVELS - 2)) :
    s ∉ nodes child w.mem {v} (M.LEVELS - 2) := by
  rintro ⟨_, rfl, π', hπ', hs'⟩
  obtain ⟨_, rfl, π, hπ, hs⟩ := hsu
  obtain ⟨hsub, hindex⟩ := I.slot hy hhy hu
  obtain ⟨hsub', hindex'⟩ := I.slot hx hhx hv
  obtain ⟨rfl, -⟩ := I.forest hsub hsub' hπ hπ' hs hs'
  obtain rfl : i = j := hindex.symm.trans hindex'
  exact hno ⟨_, hv, hu⟩

/-- So a table under an entry of `y` that is not shared is none of `x`. -/
theorem LedgerInv.not_mem_of_not_shared [LawfulPTE M PTE] (I : LedgerInv inUse w T n L)
    (hx : T t = some x) (hhx : Healthy T x) (hy : T t' = some y) (hhy : Healthy T y)
    {i : Fin ENTRY_COUNT} {u s : PhysAddr} (hno : ¬Shared w x.table y.table i)
    (hu : child (w.mem y.table.rootPaddr i) = some u)
    (hsu : s ∈ nodes child w.mem {u} (M.LEVELS - 2)) :
    s ∉ nodes child w.mem {x.table.rootPaddr} (M.LEVELS - 1) := by
  have hL := LawfulPTE.levels (M := M) PTE
  rintro ⟨_, rfl, π, hπ, hs⟩
  obtain ⟨-, rfl⟩ | ⟨j, v, π', rfl, hv, hs⟩ := resolve_root_cases hs
  · refine I.ne_root hx ?_ rfl
    exact nodes_mono (Set.singleton_subset_iff.mpr (I.slot hy hhy hu).1) le_rfl hsu
  · rw [List.length_cons] at hπ
    exact I.disjoint_of_not_shared hx hhx hy hhy hno hu hv hsu ⟨v, rfl, π', by omega, hs⟩

variable {A : List (Fin ENTRY_COUNT) → Prop} {W : List (Fin ENTRY_COUNT) → PTE → Prop}

/-- A step writes to a table that is reached, or to a new frame. -/
theorem Step.mem_eq [LawfulPTE M PTE] {root : PhysAddr} (hH : FreshFrames M H inUse)
    (h : Step M H root A W w w') {s : PhysAddr} (hs : s ∈ inUse w.os)
    (hno : s ∉ nodes child w.mem {root} (M.LEVELS - 1)) : w'.mem s = w.mem s := by
  cases h with
  | access u hu => rfl
  | flush fl => rfl
  | allocFail os ha => rfl
  | store ρ slot e h hρ hc hW =>
    refine set_of_ne (fun hc => hno ?_) w.mem slot.index e
    exact hc ▸ h.table_mem (by omega)
  | attach ρ slot p os h hρ hold ha hA =>
    have hnode := h.table_mem (n := M.LEVELS - 1) (by omega)
    have hsp : s ≠ p := fun hc => hH.fresh ha (hc ▸ hs)
    have hss : s ≠ slot.table := fun hc => hno (hc ▸ hnode)
    show set (Function.update w.mem p fun _ => empty) slot.table slot.index (newTable p) s = _
    rw [set_of_ne hss]
    exact Function.update_of_ne hsp _ w.mem

/-- Root entries that point to tables are not changed, and one that comes to point to a
table points to a new one. -/
theorem LedgerInv.root_step [LawfulPTE M PTE] (hH : FreshFrames M H inUse)
    (hW : ∀ ρ e, W ρ e → NoTable M ρ.length e) (I : LedgerInv inUse w T n L) (hx : T t = some x)
    (hhx : Healthy T x) (h : Step M H x.table.rootPaddr A W w w') (i : Fin ENTRY_COUNT) :
    child (w'.mem x.table.rootPaddr i) = child (w.mem x.table.rootPaddr i) ∨
      child (w.mem x.table.rootPaddr i) = none ∧
        ∀ u, child (w'.mem x.table.rootPaddr i) = some u → u ∉ live w.trace := by
  have hL := LawfulPTE.levels (M := M) PTE
  cases h with
  | access u hu => exact Or.inl rfl
  | flush fl => exact Or.inl rfl
  | allocFail os ha => exact Or.inl rfl
  | store ρ slot e h hρ hc hw =>
    left
    rw [World.store_mem, set_apply]
    split
    · next heq =>
      -- no pointer is stored in the root, and none is overwritten
      obtain ⟨rfl, -⟩ | ⟨u, hu, π, hlen, hs⟩ := I.slot_cases hx hhx h
      · have hlen : [slot.index].length ≠ M.LEVELS := by
          rw [List.length_singleton]
          omega
        rw [(hW _ e hw).resolve_left hlen, heq.1, heq.2]
        exact (hc.resolve_left hlen).symm
      · exact absurd heq.1 (I.ne_root hx ⟨u, hu, π, by omega, hs⟩)
    · rfl
  | attach ρ slot p os h hρ hold ha hA =>
    have hnode := h.table_mem (n := M.LEVELS - 1) (by omega)
    have hfresh : p ∉ live w.trace := fun hc => hH.fresh ha (I.inUse hc)
    have hps : p ≠ slot.table := fun hc => hfresh (hc ▸ I.access hx hhx hnode)
    have hne : x.table.rootPaddr ≠ p := fun hc => hfresh (hc ▸ I.root_live hx)
    have hentry := attach_apply (m := w.mem) (i := slot.index) (e := newTable p) (z := empty) hps
      x.table.rootPaddr i
    rw [if_neg hne] at hentry
    by_cases heq : x.table.rootPaddr = slot.table ∧ i = slot.index
    · right
      rw [if_pos heq] at hentry
      refine ⟨?_, fun u hu => ?_⟩
      · rw [heq.1, heq.2]
        exact child_of_entry_eq_empty M hold
      · rw [show (w.hang slot p os).mem x.table.rootPaddr i = newTable p from hentry,
          child_newTable (hH.valid ha), Option.some_inj] at hu
        exact hu ▸ hfresh
    · rw [if_neg heq] at hentry
      exact Or.inl (congrArg child hentry)

/-- A step writes to no root but its own. -/
theorem LedgerInv.other_root_step [LawfulPTE M PTE] (hH : FreshFrames M H inUse)
    (I : LedgerInv inUse w T n L) (hne : t ≠ t') (hx : T t = some x) (hhx : Healthy T x)
    (hy : T t' = some y) (h : Step M H x.table.rootPaddr A W w w') :
    w'.mem y.table.rootPaddr = w.mem y.table.rootPaddr := by
  refine h.mem_eq hH (I.inUse (I.root_live hy)) fun hc => ?_
  obtain hc | hc := I.nodes_subset hx hhx hc
  · exact hne (I.root_inj hy hx hc).symm
  · exact I.root_sub hy hc

/-- A step of a healthy table, seen from another one. -/
theorem LedgerInv.elsewhere_step [LawfulPTE M PTE] (hH : FreshFrames M H inUse)
    (hW : ∀ ρ e, W ρ e → NoTable M ρ.length e) (I : LedgerInv inUse w T n L) (hne : t ≠ t')
    (hx : T t = some x) (hhx : Healthy T x) (hy : T t' = some y) (hhy : Healthy T y)
    (h : Step M H x.table.rootPaddr A W w w') : Elsewhere M x.table y.table w w' := by
  have hL := LawfulPTE.levels (M := M) PTE
  have hroot := I.other_root_step hH hne hx hhx hy h
  refine ⟨hroot, fun i => ?_, fun {i u s} hno hu hs => ?_⟩
  · rw [Shared, Shared, hroot]
    refine exists_congr fun u => and_congr_left fun hu => ?_
    obtain hsame | ⟨hnone, hnew⟩ := I.root_step hH hW hx hhx h i
    · rw [hsame]
    · -- a new table is not one that `y` points to
      rw [hnone]
      refine iff_of_false (fun hc => hnew u hc ?_) (by simp)
      exact I.subs_live (mem_nodes_root (I.slot hy hhy hu).1)
  · refine h.mem_eq hH (I.inUse (I.subs_live ?_))
      (I.not_mem_of_not_shared hx hhx hy hhy hno hu hs)
    exact nodes_mono (Set.singleton_subset_iff.mpr (I.slot hy hhy hu).1) le_rfl hs

end Step

/-! ### The calls -/

theorem System.Run.mono {ok ok' : System B M PTE H → SystemCall → Prop}
    {s₀ s : System B M PTE H} (h : s₀.Run ok s) (hok : ∀ s c, ok s c → ok' s c) :
    s₀.Run ok' s := by
  induction h with
  | start => exact .start
  | step _ c hc ih => exact .step ih c (hok _ c hc)

section Calls

variable [LawfulPTE M PTE] {inUse : σ → Set PhysAddr} {w w' : World PTE σ}
  {T : Members B M PTE H} {n : ℕ} {L : Ledger} {t t' : ℕ} {x y : Member B M PTE H}
  (hH : FreshFrames M H inUse)

include hH

/-- A call of a table, seen from another one. -/
theorem LedgerInv.elsewhere (I : LedgerInv inUse w T n L) (hne : t ≠ t') (hx : T t = some x)
    (hhx : Healthy T x) (hy : T t' = some y) (hhy : Healthy T y) (c : Call)
    (hc : c.FlagsIn (fun f => debugAssert PTE f = true)) :
    Elsewhere M x.table y.table w (c.next x.table w) := by
  have hsteps := Call.steps (P := fun _ => True) hH x.table (I.tree hx hhx) c
    (hc.mono fun _ => allowed_true)
  generalize c.next x.table w = w' at hsteps ⊢
  induction hsteps with
  | refl => exact .refl w
  | tail hsteps hstep ih =>
    obtain ⟨L', I', -⟩ := I.steps hH (fun _ _ h => h) hx hhx hsteps
    exact ih.trans (I'.elsewhere_step hH (fun _ _ h => h.noTable) hne hx hhx hy hhy hstep)

/-- Root entries that point to tables still do. -/
def KeepsPointers (root : PhysAddr) (w w' : World PTE σ) : Prop :=
  ∀ i u, child (w.mem root i) = some u → child (w'.mem root i) = some u

/-- A call keeps the pointers in all roots. -/
theorem LedgerInv.call_keepsPointers (I : LedgerInv inUse w T n L) (hx : T t = some x)
    (hhx : Healthy T x) (hy : T t' = some y) (c : Call)
    (hc : c.FlagsIn (fun f => debugAssert PTE f = true)) :
    KeepsPointers y.table.rootPaddr w (c.next x.table w) := by
  have hsteps := Call.steps (P := fun _ => True) hH x.table (I.tree hx hhx) c
    (hc.mono fun _ => allowed_true)
  generalize c.next x.table w = w' at hsteps ⊢
  induction hsteps with
  | refl => exact fun i u hu => hu
  | tail hsteps hstep ih =>
    intro i u hu
    obtain ⟨L', I', -⟩ := I.steps hH (fun _ _ h => h) hx hhx hsteps
    by_cases hne : t = t'
    · subst hne
      obtain rfl : x = y := Option.some_inj.mp (hx.symm.trans hy)
      obtain hsame | ⟨hnone, -⟩ := I'.root_step hH (fun _ _ h => h.noTable) hx hhx hstep i
      · rw [hsame]
        exact ih i u hu
      · rw [ih i u hu] at hnone
        exact absurd hnone (by simp)
    · rw [I'.other_root_step hH hne hx hhx hy hstep]
      exact ih i u hu

omit [LawfulPTE M PTE] in
/-- A new table is written to a frame that was not in use. -/
theorem LedgerInv.new_mem (I : LedgerInv inUse w T n L) {s : PhysAddr}
    (hlive : s ∈ live w.trace) : (PageTable64.tryNew B M PTE H w).2.mem s = w.mem s := by
  rw [tryNew_apply]
  rcases ha : H.allocFrame w.os with ⟨_ | p, os⟩
  · rfl
  · have hsp : s ≠ p := fun hc => hH.fresh ha (hc ▸ I.inUse hlive)
    exact Function.update_of_ne hsp _ w.mem

omit [LawfulPTE M PTE] in
/-- A table that is dropped is not written to. -/
theorem LedgerInv.drop_mem (I : LedgerInv inUse w T n L) (hx : T t = some x) :
    (x.table.drop w).2.mem = w.mem := by
  obtain ⟨w', heq, hfrees, -⟩ := I.drop hH hx
  rw [heq]
  exact hfrees.mem

omit hH [LawfulPTE M PTE] in
/-- A copy writes to the root of the destination. -/
theorem LedgerInv.copyFrom_mem (I : LedgerInv inUse w T n L) {dst src : ℕ} (hne : dst ≠ src)
    {d r : Member B M PTE H} (hd : T dst = some d) (hr : T src = some r) (start : VirtAddr)
    (size : Usize) :
    (d.table.copyFrom r.table start size w).2.mem = w.mem ∧
        (size = 0 ∨ 2 ^ 64 ≤ start.toNat + size.toNat) ∨
      size ≠ 0 ∧ ∃ w', d.table.copyFrom r.table start size w =
          (.ok (d.table.borrow (copyRange M start size)), w') ∧
        w'.mem = copiedMem d.table r.table (RootRange M start size) w.mem := by
  obtain ⟨hover, h⟩ | ⟨h0, h⟩ | ⟨h0, h⟩ := copyFrom_apply d.table r.table start size w
  · rw [h]
    exact Or.inl ⟨rfl, Or.inr hover⟩
  · rw [h]
    exact Or.inl ⟨rfl, Or.inl h0⟩
  · have hroots : r.table.rootPaddr ≠ d.table.rootPaddr := fun hc => hne (I.root_inj hr hd hc).symm
    have hnodup : (entryIndices.filter (copyRange M start size)).Nodup :=
      nodup_entryIndices.filter _
    obtain ⟨w₁, hrounds, hmem, -⟩ := copySlots_spec hroots hnodup (I.copySafe hd hr hnodup)
    rw [Op.bind_ok hrounds] at h
    refine Or.inr ⟨h0, _, h, ?_⟩
    show w₁.mem = _
    rw [hmem]
    funext s i
    simp only [copiedMem, List.mem_filter, mem_entryIndices, true_and, copyRange_iff]

omit hH [LawfulPTE M PTE] in
theorem LedgerInv.copyFrom_mem_of_ne (I : LedgerInv inUse w T n L) {dst src : ℕ} (hne : dst ≠ src)
    {d r : Member B M PTE H} (hd : T dst = some d) (hr : T src = some r) (start : VirtAddr)
    (size : Usize) {s : PhysAddr} (hs : s ≠ d.table.rootPaddr) :
    (d.table.copyFrom r.table start size w).2.mem s = w.mem s := by
  obtain ⟨h, -⟩ | ⟨-, w', h, hmem⟩ := I.copyFrom_mem hne hd hr start size
  · rw [h]
  · rw [h, hmem]
    funext i
    rw [copiedMem, if_neg fun hc => hs hc.1]

omit hH in
/-- The root of one table is no table of another. -/
theorem LedgerInv.root_apart (I : LedgerInv inUse w T n L) (hne : t ≠ t') (hx : T t = some x)
    (hy : T t' = some y) (hhy : Healthy T y) {s : PhysAddr}
    (hs : s ∈ nodes child w.mem {y.table.rootPaddr} (M.LEVELS - 1)) : s ≠ x.table.rootPaddr := by
  obtain rfl | hs := I.nodes_subset hy hhy hs
  · exact fun hc => hne (I.root_inj hx hy hc.symm)
  · exact (I.ne_root hx hs).symm

end Calls

/-! ### Tables before and after a call -/

section Tables

/-- A copy keeps the root. -/
theorem copyFrom_rootPaddr {d r table : PageTable64 B M PTE H} {start : VirtAddr} {size : Usize}
    {w w' : World PTE σ} (h : d.copyFrom r start size w = (.ok table, w')) :
    table.rootPaddr = d.rootPaddr := by
  obtain ⟨-, heq⟩ | ⟨-, heq⟩ | ⟨-, heq⟩ := copyFrom_apply d r start size w
  · rw [heq] at h
    exact absurd (congrArg Prod.fst h) (by simp)
  · rw [heq] at h
    rw [Prod.mk.injEq, Res.ok.injEq] at h
    rw [← h.1]
  · rw [heq] at h
    rcases hrounds : forEach (entryIndices.filter (copyRange M start size)) (copySlot d r) w
      with ⟨_ | e | _, w₁⟩
    · rw [Op.bind_ok hrounds, Op.bind_ok (Op.modify_apply _ _)] at h
      have htable : Res.ok (d.borrow (copyRange M start size)) = .ok table := congrArg Prod.fst h
      rw [Res.ok.injEq] at htable
      rw [← htable]
      rfl
    · rw [Op.bind_err hrounds] at h
      exact absurd (congrArg Prod.fst h) (by simp)
    · rw [Op.bind_panic hrounds] at h
      exact absurd (congrArg Prod.fst h) (by simp)

variable [LawfulPTE M PTE] {inUse : σ → Set PhysAddr} {s : System B M PTE H} {L : Ledger}
  {t t' : ℕ} {x : Member B M PTE H}

omit [LawfulPTE M PTE] in
/-- What a call does to the tables: nothing, or one is added, or goes, or borrows. -/
theorem System.exec_tables (s : System B M PTE H) (c : SystemCall) :
    (s.exec c).tables = s.tables ∧ (s.exec c).next = s.next ∨
      (∃ x, c = .new ∧ (s.exec c).tables = Function.update s.tables s.next (some x) ∧
        (s.exec c).next = s.next + 1) ∨
      (∃ t, c = .drop t ∧ (s.exec c).tables = Function.update s.tables t none ∧
        (s.exec c).next = s.next) ∨
      ∃ dst src start size d r table, c = .copy dst src start size ∧ s.tables dst = some d ∧
        s.tables src = some r ∧ table.rootPaddr = d.table.rootPaddr ∧
        (s.exec c).tables = s.tables.copied dst src d r table ∧ (s.exec c).next = s.next := by
  cases c with
  | new =>
    rcases heq : PageTable64.tryNew B M PTE H s.world with ⟨table | e | _, w⟩
    · refine Or.inr (Or.inl ⟨⟨table, false, []⟩, rfl, ?_⟩)
      simp only [System.exec, heq, and_self]
    · exact Or.inl (by simp only [System.exec, heq, and_self])
    · exact Or.inl (by simp only [System.exec, heq, and_self])
  | call t c =>
    left
    rw [System.exec]
    cases s.tables t <;> exact ⟨rfl, rfl⟩
  | drop t =>
    cases hx : s.tables t with
    | none => exact Or.inl (by simp only [System.exec, hx, and_self])
    | some x =>
      refine Or.inr (Or.inr (Or.inl ⟨t, rfl, ?_⟩))
      simp only [System.exec, hx, and_self]
  | copy dst src start size =>
    cases hd : s.tables dst with
    | none => exact Or.inl (by simp only [System.exec, hd, and_self])
    | some d =>
    cases hr : s.tables src with
    | none => exact Or.inl (by simp only [System.exec, hd, hr, and_self])
    | some r =>
    rcases heq : d.table.copyFrom r.table start size s.world with ⟨table | e | _, w⟩
    · cases hl : lends M start size with
      | false =>
        left
        simp only [System.exec, hd, hr, heq, hl, Bool.false_eq_true, if_false, and_self]
      | true =>
        refine Or.inr (Or.inr (Or.inr ⟨dst, src, start, size, d, r, table, rfl, hd, hr,
          copyFrom_rootPaddr heq, ?_⟩))
        simp only [System.exec, hd, hr, heq, hl, if_true, and_self]
    · exact Or.inl (by simp only [System.exec, hd, hr, heq, and_self])
    · exact Or.inl (by simp only [System.exec, hd, hr, heq, and_self])

omit [LawfulPTE M PTE] in
/-- Numbers of tables are not used twice. -/
theorem System.le_next_exec (s : System B M PTE H) (c : SystemCall) :
    s.next ≤ (s.exec c).next := by
  obtain ⟨-, h⟩ | ⟨z, -, -, h⟩ | ⟨t', -, -, h⟩ | ⟨-, -, -, -, -, -, -, -, -, -, -, -, h⟩ :=
    s.exec_tables c
  · exact h.ge
  · exact (Nat.le_succ _).trans h.ge
  · exact h.ge
  · exact h.ge

omit [LawfulPTE M PTE] in
/-- A table whose lenders exist after a call, and which is not new, was there before with
its lenders. -/
theorem LedgerInv.exec_before (I : s.Ledgered inUse L) (c : SystemCall) (ht : t < s.next)
    (hx : (s.exec c).tables t = some x) (hhx : Healthy (s.exec c).tables x) :
    ∃ y, s.tables t = some y ∧ Healthy s.tables y ∧
      x.table.rootPaddr = y.table.rootPaddr := by
  obtain ⟨h, -⟩ | ⟨z, -, h, -⟩ | ⟨t', -, h, -⟩ |
    ⟨dst, src, -, -, d, r, table, -, hd, hr, hroot, h, -⟩ := s.exec_tables c
  all_goals rw [h] at hx hhx
  · exact ⟨x, hx, hhx, rfl⟩
  · rw [Function.update_of_ne ht.ne] at hx
    refine ⟨x, hx, fun z hz => ?_, rfl⟩
    have := hhx z hz
    rwa [Function.update_of_ne ((I.lt_next hx).2 z hz).ne] at this
  · refine ⟨x, (Members.of_gone hx).2, fun z hz => ?_, rfl⟩
    obtain ⟨z', hz'⟩ := Option.isSome_iff_exists.mp (hhx z hz)
    exact Option.isSome_of_eq_some (Members.of_gone hz').2
  · have hback : ∀ z, (s.tables.copied dst src d r table z).isSome = true →
        (s.tables z).isSome = true := fun z => (Members.copied_isSome_iff hd hr).mp
    by_cases hdst : t = dst
    · subst hdst
      rw [Members.copied_dst, Option.some_inj] at hx
      subst hx
      exact ⟨d, hd, fun z hz => hback z (hhx z (List.mem_append_right _ hz)), hroot⟩
    · obtain ⟨y, hy, htable, hlenders, -⟩ := Members.of_copied hd hr hdst hx
      exact ⟨y, hy, fun z hz => hback z (hhx z (hlenders ▸ hz)), by rw [htable]⟩

end Tables

/-! ### What a call leaves alone -/

section Exec

theorem System.exec_new_world (s : System B M PTE H) :
    (s.exec .new).world = (PageTable64.tryNew B M PTE H s.world).2 := by
  rw [System.exec]
  rcases PageTable64.tryNew B M PTE H s.world with ⟨table | e | _, w⟩ <;> rfl

theorem System.exec_copy_world {s : System B M PTE H} {dst src : ℕ} {d r : Member B M PTE H}
    (hd : s.tables dst = some d) (hr : s.tables src = some r) (start : VirtAddr) (size : Usize) :
    (s.exec (.copy dst src start size)).world =
      (d.table.copyFrom r.table start size s.world).2 := by
  simp only [System.exec, hd, hr]
  rcases d.table.copyFrom r.table start size s.world with ⟨table | e | _, w⟩
  · simp only
    split <;> rfl
  · rfl
  · rfl

variable [LawfulPTE M PTE] {inUse : σ → Set PhysAddr} {s s' : System B M PTE H} {L : Ledger}
  {t : ℕ} {y : Member B M PTE H} (hH : FreshFrames M H inUse)

include hH

/-- Calls that are no method of a table write to no other table. -/
theorem LedgerInv.exec_apart (I : s.Ledgered inUse L) (hy : s.tables t = some y)
    (hhy : Healthy s.tables y) {c : SystemCall} (hc : s.Careful c) (hactor : c.actor ≠ some t)
    (hno : ∀ t' c', c ≠ .call t' c') {p : PhysAddr}
    (hp : p ∈ nodes child s.world.mem {y.table.rootPaddr} (M.LEVELS - 1)) :
    (s.exec c).world.mem p = s.world.mem p := by
  cases c with
  | new =>
    rw [System.exec_new_world]
    exact I.new_mem hH (I.access hy hhy hp)
  | call t' c' => exact absurd rfl (hno t' c')
  | drop t' =>
    rw [System.exec]
    cases hx : s.tables t' with
    | none => rfl
    | some x => exact congrFun (I.drop_mem hH hx) p
  | copy dst src start size =>
    have hne : dst ≠ t := fun hc => hactor (congrArg some hc)
    cases hd : s.tables dst with
    | none =>
      rw [System.exec, hd]
    | some d =>
      cases hr : s.tables src with
      | none => rw [System.exec, hd, hr]
      | some r =>
        rw [System.exec_copy_world hd hr]
        exact I.copyFrom_mem_of_ne hc.1 hd hr start size (I.root_apart hne hd hy hhy hp)

/-- What a call of a system changes in the answers of a table that is not called. -/
theorem LedgerInv.exec_query (I : s.Ledgered inUse L) (hy : s.tables t = some y)
    (hhy : Healthy s.tables y) {c : SystemCall} (hc : s.Careful c) (hactor : c.actor ≠ some t)
    (v : VirtAddr)
    (hno : ∀ t' c' x, c = .call t' c' → s.tables t' = some x →
      ¬Shared s.world x.table y.table (PageTable64.rootIndex M v)) :
    (y.table.query v (s.exec c).world).1 = (y.table.query v s.world).1 := by
  have hL := LawfulPTE.levels (M := M) PTE
  by_cases hcall : ∃ t' c', c = .call t' c'
  · obtain ⟨t', c', rfl⟩ := hcall
    have hne : t' ≠ t := fun hc => hactor (congrArg some hc)
    rw [System.exec]
    cases hx : s.tables t' with
    | none => rfl
    | some x =>
      have h := I.elsewhere hH hne hx (hc.2 x hx) hy hhy c' hc.1
      exact query_eq_of_found hL y.table y.table (h.found_eq hL (hno t' c' x rfl hx))
  · have hsame := fun p hp => I.exec_apart hH hy hhy hc hactor
      (fun t' c' heq => hcall ⟨t', c', heq⟩) (p := p) hp
    refine query_eq_of_found hL y.table y.table (foundAlong_agree ?_ hsame)
    rw [length_vpath hL]
    omega

/-- The calls that replace root entries of a table. -/
def SystemCall.Rewrites (t : ℕ) : SystemCall → Prop
  | .new | .call _ _ => False
  | .copy dst _ _ _ => dst = t
  | .drop t' => t' = t

instance (t : ℕ) : (c : SystemCall) → Decidable (c.Rewrites t)
  | .new | .call _ _ => inferInstanceAs (Decidable False)
  | .copy dst _ _ _ => inferInstanceAs (Decidable (dst = t))
  | .drop t' => inferInstanceAs (Decidable (t' = t))

/-- All other calls keep its pointers. -/
theorem LedgerInv.exec_keepsPointers (I : s.Ledgered inUse L) (hy : s.tables t = some y)
    {c : SystemCall} (hc : s.Careful c) (hno : ¬c.Rewrites t) :
    ∃ y', (s.exec c).tables t = some y' ∧ y'.table.rootPaddr = y.table.rootPaddr ∧
      KeepsPointers y.table.rootPaddr s.world (s.exec c).world := by
  cases c with
  | new =>
    have hmem := I.new_mem hH (I.root_live hy)
    rw [← System.exec_new_world s] at hmem
    refine ⟨y, ?_, rfl, fun i u hu => by rwa [hmem]⟩
    rw [System.exec]
    rcases PageTable64.tryNew B M PTE H s.world with ⟨table | e | _, w'⟩
    · exact (Function.update_of_ne (I.lt_next hy).1.ne _ s.tables).trans hy
    · exact hy
    · exact hy
  | call t' c' =>
    rw [System.exec]
    cases hx : s.tables t' with
    | none => exact ⟨y, hy, rfl, fun i u hu => hu⟩
    | some x => exact ⟨y, hy, rfl, I.call_keepsPointers hH hx (hc.2 x hx) hy c' hc.1⟩
  | drop t' =>
    rw [System.exec]
    cases hx : s.tables t' with
    | none => exact ⟨y, hy, rfl, fun i u hu => hu⟩
    | some x =>
      refine ⟨y, (Function.update_of_ne (Ne.symm hno) _ s.tables).trans hy, rfl, fun i u hu => ?_⟩
      show child ((x.table.drop s.world).2.mem _ i) = some u
      rw [I.drop_mem hH hx]
      exact hu
  | copy dst src start size =>
    have hne : dst ≠ t := hno
    cases hd : s.tables dst with
    | none =>
      rw [System.exec, hd]
      exact ⟨y, hy, rfl, fun i u hu => hu⟩
    | some d =>
      cases hr : s.tables src with
      | none =>
        rw [System.exec, hd, hr]
        exact ⟨y, hy, rfl, fun i u hu => hu⟩
      | some r =>
        have hroots : y.table.rootPaddr ≠ d.table.rootPaddr := fun heq =>
          hne (I.root_inj hy hd heq).symm
        have hmem := I.copyFrom_mem_of_ne hc.1 hd hr start size hroots
        rw [← System.exec_copy_world hd hr] at hmem
        obtain ⟨y', hy', htable⟩ : ∃ y', (s.exec (.copy dst src start size)).tables t = some y' ∧
            y'.table = y.table := by
          simp only [System.exec, hd, hr]
          rcases d.table.copyFrom r.table start size s.world with ⟨table | e | _, w'⟩
          · simp only
            split
            · obtain ⟨y', hy', htable, -⟩ := Members.copied_of_some (d := d) hr table
                hne.symm hy
              exact ⟨y', hy', htable⟩
            · exact ⟨y, hy, rfl⟩
          · exact ⟨y, hy, rfl⟩
          · exact ⟨y, hy, rfl⟩
        exact ⟨y', hy', by rw [htable], fun i u hu => by rwa [hmem]⟩

/-- So do runs without such calls. -/
theorem LedgerInv.run_keepsPointers (I : s.Ledgered inUse L) (hy : s.tables t = some y)
    (h : s.Run (fun s c => s.Careful c ∧ ¬c.Rewrites t) s') :
    ∃ y' L', s'.Ledgered inUse L' ∧ s'.tables t = some y' ∧
      y'.table.rootPaddr = y.table.rootPaddr ∧
      KeepsPointers y.table.rootPaddr s.world s'.world := by
  induction h with
  | start => exact ⟨y, L, I, hy, rfl, fun i u hu => hu⟩
  | step _ c hc ih =>
    obtain ⟨y', L', I', hy', hroot, hkeeps⟩ := ih
    obtain ⟨L'', I'', -⟩ := I'.exec hH c hc.1
    obtain ⟨y'', hy'', hroot', hkeeps'⟩ := I'.exec_keepsPointers hH hy' hc.1 hc.2
    refine ⟨y'', L'', I'', hy'', hroot'.trans hroot, fun i u hu => ?_⟩
    rw [hroot] at hkeeps'
    exact hkeeps' i u (hkeeps i u hu)

end Exec

/-- After a copy the two tables share the root entries that point to tables. -/
theorem shared_of_copied {w w' : World PTE σ} {d r : PageTable64 B M PTE H}
    {start : VirtAddr} {size : Usize} (hroots : r.rootPaddr ≠ d.rootPaddr)
    (hmem : w'.mem = copiedMem d r (RootRange M start size) w.mem) {i : Fin ENTRY_COUNT}
    (hi : RootRange M start size i) {u : PhysAddr} (hu : child (w.mem r.rootPaddr i) = some u) :
    Shared w' r d i := by
  refine ⟨u, ?_, ?_⟩
  · rwa [hmem, copiedMem, if_neg fun hc => hroots hc.1]
  · rwa [hmem, copiedMem, if_pos ⟨rfl, hi⟩]

/-- In every state of a careful run, and for every table `y` whose lenders exist: a call
that is none of `y` changes an answer of `y` only if it is a method of a table that shares
the root entry of the address with `y`; that table then answers the same. -/
theorem Arch.seen_elsewhere (arch : Arch) {H : PagingHandler 64 σ} {inUse : σ → Set PhysAddr}
    (hH : FreshFrames arch.metaData H inUse) {s₀ s : System B arch.metaData arch.PTE H}
    (h₀ : s₀.Blank) (h : s₀.Run System.Careful s) {t : ℕ} {y : Member B arch.metaData arch.PTE H}
    (hy : s.tables t = some y) (hhy : Healthy s.tables y) {c : SystemCall} (hc : s.Careful c)
    (hactor : c.actor ≠ some t) (v : VirtAddr) :
    ((∀ t' c' x, c = .call t' c' → s.tables t' = some x →
        ¬Shared s.world x.table y.table (PageTable64.rootIndex arch.metaData v)) →
      (y.table.query v (s.exec c).world).1 = (y.table.query v s.world).1) ∧
    ∀ t' c' x, c = .call t' c' → s.tables t' = some x →
      Shared s.world x.table y.table (PageTable64.rootIndex arch.metaData v) →
      Shared (s.exec c).world x.table y.table (PageTable64.rootIndex arch.metaData v) ∧
        (y.table.query v (s.exec c).world).1 = (x.table.query v (s.exec c).world).1 := by
  have hL := LawfulPTE.levels (M := arch.metaData) arch.PTE
  obtain ⟨L, I⟩ := h.ledger hH (fun _ _ _ _ hc => hc) h₀
  refine ⟨I.exec_query hH hy hhy hc hactor v, ?_⟩
  rintro t' c' x rfl hx hshared
  have hne : t' ≠ t := fun hc => hactor (congrArg some hc)
  have hafter : Shared (s.exec (.call t' c')).world x.table y.table
      (PageTable64.rootIndex arch.metaData v) := by
    simp only [System.exec, hx]
    exact ((I.elsewhere hH hne hx (hc.2 x hx) hy hhy c' hc.1).shared _).mpr hshared
  exact ⟨hafter, hafter.query_eq hL⟩

/-- Table 1 has a root entry of table 0. -/
def sharingCalls : List SystemCall :=
  [.new, .call 0 (.map 0 0x7000 .size4K .READ), .new, .copy 1 0 0 0x1000]

theorem Arch.seen_elsewhere_run : ∃ x y, (lendingStart.execAll sharingCalls).tables 0 = some x ∧
    (lendingStart.execAll sharingCalls).tables 1 = some y ∧
    Shared ((lendingStart.execAll sharingCalls).exec (.call 0 (.unmap 0))).world x.table y.table
        (PageTable64.rootIndex X64PagingMetaData 0) ∧
      (y.table.query 0 ((lendingStart.execAll sharingCalls).exec (.call 0 (.unmap 0))).world).1 =
        (x.table.query 0
          ((lendingStart.execAll sharingCalls).exec (.call 0 (.unmap 0))).world).1 := by
  obtain ⟨hcareful, hc, h0, h1, hall⟩ : lendingStart.EachCall System.Careful sharingCalls ∧
      (lendingStart.execAll sharingCalls).Careful (.call 0 (.unmap 0)) ∧
      ((lendingStart.execAll sharingCalls).tables 0).isSome = true ∧
      ((lendingStart.execAll sharingCalls).tables 1).isSome = true ∧
      ∀ x ∈ (lendingStart.execAll sharingCalls).tables 0,
        ∀ y ∈ (lendingStart.execAll sharingCalls).tables 1,
        Healthy (lendingStart.execAll sharingCalls).tables y ∧
        Shared (lendingStart.execAll sharingCalls).world x.table y.table
          (PageTable64.rootIndex X64PagingMetaData 0) := by
    decide +kernel
  obtain ⟨x, hx⟩ := Option.isSome_iff_exists.mp h0
  obtain ⟨y, hy⟩ := Option.isSome_iff_exists.mp h1
  obtain ⟨hhy, hshared⟩ := hall x hx y hy
  exact ⟨x, y, hx, hy, (Arch.seen_elsewhere .x64 (freshFrames_queueHandler (by decide))
    lendingStart_blank (.execAll .start hcareful) hy hhy hc (by decide) 0).2 0 _ x rfl hx hshared⟩

/-- After a copy in a careful run, and until one of the two tables is dropped or copied
onto: whatever is called, the destination answers as the source does wherever in the
copied range the source had a table under its root entry. -/
theorem Arch.copies_stay_in_sync (arch : Arch) {H : PagingHandler 64 σ}
    {inUse : σ → Set PhysAddr} (hH : FreshFrames arch.metaData H inUse)
    {s₀ s s' : System B arch.metaData arch.PTE H} (h₀ : s₀.Blank) (h : s₀.Run System.Careful s)
    {dst src : ℕ} {start : VirtAddr} {size : Usize}
    (hc : s.Careful (.copy dst src start size)) {d r : Member B arch.metaData arch.PTE H}
    (hd : s.tables dst = some d) (hr : s.tables src = some r) (h0 : size ≠ 0)
    (hsum : start.toNat + size.toNat < 2 ^ 64)
    (h' : (s.exec (.copy dst src start size)).Run
      (fun s c => s.Careful c ∧ ¬c.Rewrites dst ∧ ¬c.Rewrites src) s') :
    ∃ d' r', s'.tables dst = some d' ∧ s'.tables src = some r' ∧
      ∀ v, RootRange arch.metaData start size (PageTable64.rootIndex arch.metaData v) →
        (child (s.world.mem r.table.rootPaddr
          (PageTable64.rootIndex arch.metaData v))).isSome = true →
        (d'.table.query v s'.world).1 = (r'.table.query v s'.world).1 := by
  have hL := LawfulPTE.levels (M := arch.metaData) arch.PTE
  obtain ⟨L, I⟩ := h.ledger hH (fun _ _ _ _ hc => hc) h₀
  obtain ⟨L₁, I₁, -⟩ := I.exec hH _ hc
  have hroots : r.table.rootPaddr ≠ d.table.rootPaddr := fun heq => hc.1 (I.root_inj hr hd heq).symm
  obtain ⟨-, h⟩ | ⟨-, w₁, heq, hmem⟩ := I.copyFrom_mem hc.1 hd hr start size
  · obtain h | h := h
    · exact absurd h h0
    · omega
  -- the two tables after the copy
  have hworld : (s.exec (.copy dst src start size)).world = w₁ := by
    rw [System.exec_copy_world hd hr, heq]
  obtain ⟨r₁, hr₁, hrroot, -⟩ := I.exec_keepsPointers hH hr hc (t := src) hc.1
  obtain ⟨d₁, hd₁, hdroot⟩ : ∃ d₁, (s.exec (.copy dst src start size)).tables dst = some d₁ ∧
      d₁.table.rootPaddr = d.table.rootPaddr := by
    simp only [System.exec, hd, hr, heq]
    split
    · exact ⟨_, Members.copied_dst s.tables dst src d r _, rfl⟩
    · exact ⟨d, hd, rfl⟩
  -- they keep what they share
  obtain ⟨d', -, -, hd', hdroot', hdkeeps⟩ := I₁.run_keepsPointers hH hd₁
    (h'.mono fun _ _ hok => ⟨hok.1, hok.2.1⟩)
  obtain ⟨r', -, -, hr', hrroot', hrkeeps⟩ := I₁.run_keepsPointers hH hr₁
    (h'.mono fun _ _ hok => ⟨hok.1, hok.2.2⟩)
  refine ⟨d', r', hd', hr', fun v hv hsome => ?_⟩
  obtain ⟨u, hu⟩ := Option.isSome_iff_exists.mp hsome
  obtain ⟨u', hur, hud⟩ := shared_of_copied hroots hmem hv hu
  rw [hworld, hdroot] at hdkeeps
  rw [hworld, hrroot] at hrkeeps
  refine Shared.query_eq hL ⟨u', ?_, ?_⟩
  · rw [hrroot', hrroot]
    exact hrkeeps _ u' hur
  · rw [hdroot', hdroot]
    exact hdkeeps _ u' hud

/-- After the copy table 0 maps another page and unmaps its first, and a third table comes
and goes. -/
def afterSharing : List SystemCall :=
  [.call 0 (.map 0x1000 0x8000 .size4K .READ), .new, .call 0 (.unmap 0), .drop 2]

theorem Arch.copies_stay_in_sync_run : ∃ r,
    (lendingStart.execAll (sharingCalls.take 3)).tables 0 = some r ∧ ∃ d' r',
    (((lendingStart.execAll (sharingCalls.take 3)).exec (.copy 1 0 0 0x1000)).execAll
      afterSharing).tables 1 = some d' ∧
    (((lendingStart.execAll (sharingCalls.take 3)).exec (.copy 1 0 0 0x1000)).execAll
      afterSharing).tables 0 = some r' ∧
    ∀ v, RootRange X64PagingMetaData 0 0x1000 (PageTable64.rootIndex X64PagingMetaData v) →
      (child ((lendingStart.execAll (sharingCalls.take 3)).world.mem r.table.rootPaddr
        (PageTable64.rootIndex X64PagingMetaData v))).isSome = true →
      (d'.table.query v (((lendingStart.execAll (sharingCalls.take 3)).exec
        (.copy 1 0 0 0x1000)).execAll afterSharing).world).1 =
      (r'.table.query v (((lendingStart.execAll (sharingCalls.take 3)).exec
        (.copy 1 0 0 0x1000)).execAll afterSharing).world).1 := by
  obtain ⟨hcareful, hc, h0, h1, hafter⟩ :
      lendingStart.EachCall System.Careful (sharingCalls.take 3) ∧
      (lendingStart.execAll (sharingCalls.take 3)).Careful (.copy 1 0 0 0x1000) ∧
      ((lendingStart.execAll (sharingCalls.take 3)).tables 0).isSome = true ∧
      ((lendingStart.execAll (sharingCalls.take 3)).tables 1).isSome = true ∧
      ((lendingStart.execAll (sharingCalls.take 3)).exec (.copy 1 0 0 0x1000)).EachCall
        (fun s c => s.Careful c ∧ ¬c.Rewrites 1 ∧ ¬c.Rewrites 0) afterSharing := by
    decide +kernel
  obtain ⟨r, hr⟩ := Option.isSome_iff_exists.mp h0
  obtain ⟨d, hd⟩ := Option.isSome_iff_exists.mp h1
  exact ⟨r, hr, Arch.copies_stay_in_sync .x64 (freshFrames_queueHandler (by decide))
    lendingStart_blank (.execAll .start hcareful) hc hd hr (by decide) (by decide)
    (.execAll .start hafter)⟩

end PageTableMultiarch
