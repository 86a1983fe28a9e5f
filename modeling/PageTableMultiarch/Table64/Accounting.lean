/-
Frame accounting of one `PageTable64`.

While a table is in use its tables are exactly the frames allocated so far
(`Account`); dropping it gives each of them back once.

* `Steps.account` — the elementary steps keep the account;
* `Arch.drop_returns_frames` — after any run and the drop, each frame obtained has been
  freed exactly once, and no table was accessed after its frame had been freed.
-/
import PageTableMultiarch.Table64.Run
import PageTableMultiarch.Table64.Drop
import PageTableMultiarch.Entry.Arch

namespace PageTableMultiarch

open GenericPTE Radix MemEvent

variable {B : Build} {M : PagingMetaData} {PTE σ : Type} {H : PagingHandler 64 σ}
  [GenericPTE 64 PTE] {P : PTE → Prop} {inUse : σ → Set PhysAddr} {root : PhysAddr}
  {A : List (Fin ENTRY_COUNT) → Prop} {W : List (Fin ENTRY_COUNT) → PTE → Prop}
  {w w' : World PTE σ}

/-- The trace is safe, frees nothing, and its live frames are the tables. -/
structure Account (M : PagingMetaData) (root : PhysAddr) (w : World PTE σ) : Prop where
  safe : Safe w.trace
  live : live w.trace = nodes child w.mem {root} (M.LEVELS - 1)
  no_free (p : PhysAddr) : .free p ∉ w.trace

variable [LawfulPTE M PTE]

/-- Each step keeps the account. -/
theorem Step.account (hH : FreshFrames M H inUse) (hW : ∀ ρ e, W ρ e → NoTable M ρ.length e)
    (T : Tree M inUse root w) (a : Account M root w) (h : Step M H root A W w w') :
    Account M root w' := by
  cases h with
  | access t ht =>
    refine ⟨⟨a.live ▸ ht, a.safe⟩, a.live, fun p hp => ?_⟩
    exact a.no_free p (by simpa using hp)
  | flush fl => exact ⟨a.safe, a.live, a.no_free⟩
  | allocFail os h => exact ⟨a.safe, a.live, a.no_free⟩
  | store ρ slot e h hρ hc hw =>
    have hmem := h.table_mem (n := M.LEVELS - 1) (by omega)
    have hnodes := nodes_of_resolve_eq (T.resolve_store h hρ hc (hW ρ e hw))
    refine ⟨⟨a.live ▸ hmem, a.safe⟩, ?_, fun p hp => ?_⟩
    · rw [hnodes]
      exact a.live
    · exact a.no_free p (by simpa using hp)
  | attach ρ slot p os h hρ hold ha _ =>
    -- the new node is the only one that was not there
    have hmem := h.table_mem (n := M.LEVELS - 1) (by omega)
    have hp : p ∉ nodes child w.mem {root} (M.LEVELS - 1) := fun hc =>
      hH.fresh ha (T.inUse hc)
    obtain ⟨π, rfl, hs⟩ := h
    rw [List.length_append, List.length_singleton] at hρ
    have hnew : child (newTable p : PTE) = some p := child_newTable (hH.valid ha)
    have hnodes := T.forest.nodes_attach rfl (by omega) hs (child_of_entry_eq_empty M hold) hp hnew
      (child_empty M)
    refine ⟨⟨Or.inr (a.live ▸ hmem), Or.inl rfl, a.live ▸ hp, a.safe⟩, ?_, fun q hq => ?_⟩
    · exact (congrArg (insert p) a.live).trans hnodes.symm
    · refine a.no_free q ?_
      simpa [World.hang] using hq

theorem Steps.account (hH : FreshFrames M H inUse)
    (hW : ∀ ρ e, W ρ e → NoTable M ρ.length e) (T : Tree M inUse root w)
    (a : Account M root w) (h : Steps M H root A W w w') : Account M root w' := by
  induction h with
  | refl => exact a
  | tail hsteps hstep ih => exact hstep.account hH hW (Steps.tree hH hW T hsteps) ih

/-- A new table, made before anything else, has its account. -/
theorem tryNew_account {self : PageTable64 B M PTE H} {w₀ : World PTE σ} (h₀ : w₀.trace = [])
    (h : PageTable64.tryNew B M PTE H w₀ = (.ok self, w)) : Account M self.rootPaddr w := by
  rw [tryNew_apply] at h
  obtain ⟨frame, os, ha⟩ : ∃ frame os, H.allocFrame w₀.os = (frame, os) := ⟨_, _, rfl⟩
  rw [ha] at h
  rcases frame with _ | p
  · exact absurd (congrArg Prod.fst h) (by simp)
  simp only [Prod.mk.injEq, Res.ok.injEq, h₀] at h
  obtain ⟨rfl, rfl⟩ := h
  refine ⟨⟨Or.inl rfl, Set.notMem_empty p, trivial⟩, ?_, fun q hq => ?_⟩
  · rw [nodes_of_no_child]
    · simp
    · rintro r rfl i
      simp only [Function.update_self]
      exact child_empty M
  · simp at hq

/-- A table without borrowed entries owns all its tables. -/
theorem ownsTrees_of_forest {self : PageTable64 B M PTE H}
    (hb : ∀ i, self.borrowedEntries i = false)
    (F : Forest child w.mem {self.rootPaddr} (M.LEVELS - 1)) :
    OwnsTrees self w.mem ∧
      self.owned w.mem = nodes child w.mem {self.rootPaddr} (M.LEVELS - 1) := by
  have hL := LawfulPTE.levels (M := M) PTE
  obtain ⟨n, hn⟩ : ∃ n, M.LEVELS = n + 2 := ⟨M.LEVELS - 2, by omega⟩
  have hpred : M.LEVELS - 1 = n + 1 := by omega
  have hpred' : M.LEVELS - 2 = n := by omega
  rw [hpred] at F ⊢
  refine ⟨⟨fun _ hu => ?_, fun _ _ hij => ?_, fun _ => ?_⟩, ?_⟩
  · rw [hpred']
    exact F.child_forest hu
  · rw [hpred', Set.disjoint_left]
    rintro s ⟨u, hu, hsu⟩ ⟨v, hv, hsv⟩
    exact hij (F.child_disjoint hu hv hsu hsv)
  · rw [hpred']
    rintro ⟨u, hu, hmem⟩
    exact F.root_not_mem hu hmem
  · rw [nodes_eq_subtrees, PageTable64.owned, hpred']
    congr 1
    ext s
    simp only [Set.mem_ofPred_eq, Set.mem_iUnion, mem_entryIndices, exists_const, hb, true_and]

/-- The states after a list of calls. -/
def Call.nextAll (self : PageTable64 B M PTE H) (cs : List Call) (w : World PTE σ) :
    World PTE σ :=
  cs.foldl (Call.next self) w

omit [LawfulPTE M PTE] in
@[simp] theorem Call.nextAll_nil (self : PageTable64 B M PTE H) (w : World PTE σ) :
    Call.nextAll self [] w = w := rfl

omit [LawfulPTE M PTE] in
@[simp] theorem Call.nextAll_cons (self : PageTable64 B M PTE H) (c : Call) (cs : List Call)
    (w : World PTE σ) :
    Call.nextAll self (c :: cs) w = Call.nextAll self cs (c.next self w) := rfl

theorem nextAll_account {self : PageTable64 B M PTE H} (hH : FreshFrames M H inUse)
    (cs : List Call) (hcs : ∀ c ∈ cs, c.FlagsIn (Allowed P)) (T : Tree M inUse self.rootPaddr w)
    (a : Account M self.rootPaddr w) :
    Tree M inUse self.rootPaddr (Call.nextAll self cs w) ∧
      Account M self.rootPaddr (Call.nextAll self cs w) := by
  induction cs generalizing w with
  | nil => exact ⟨T, a⟩
  | cons c cs ih =>
    have hsteps := Call.steps hH self T c (hcs c List.mem_cons_self)
    exact ih (fun d hd => hcs d (List.mem_cons_of_mem _ hd))
      (Steps.tree hH (fun _ _ h => h.noTable) T hsteps)
      (Steps.account hH (fun _ _ h => h.noTable) T a hsteps)

/-- Dropping a table whose account is right gives every frame back once, and no table is
accessed after its frame has been given back. -/
theorem drop_account {self : PageTable64 B M PTE H} (hb : ∀ i, self.borrowedEntries i = false)
    (F : Forest child w.mem {self.rootPaddr} (M.LEVELS - 1)) (a : Account M self.rootPaddr w) :
    (self.drop w).1 = .ok () ∧
      (∀ p, (self.drop w).2.trace.count (.free p) =
        if .alloc p ∈ (self.drop w).2.trace then 1 else 0) ∧
      ∀ p before, .access p :: before <:+ (self.drop w).2.trace →
        .alloc p ∈ before ∧ .free p ∉ before := by
  obtain ⟨hown, howned⟩ := ownsTrees_of_forest hb F
  obtain ⟨w', heq, h⟩ := drop_spec self hown
  rw [howned] at h
  obtain ⟨hsafe, hlive⟩ := h.safe a.safe (by rw [Set.union_self, a.live])
  obtain ⟨tr, htr, hev⟩ := h.events
  rw [heq]
  dsimp only
  -- the drop allocates nothing
  have hcount : ∀ p, w'.trace.count (.alloc p) ≤ 1 := by
    intro p
    have hzero : tr.count (.alloc p) = 0 := by
      refine List.count_eq_zero.mpr fun hmem => ?_
      rcases hev _ hmem with ⟨q, -, hq⟩ | ⟨q, -, hq⟩ <;> exact absurd hq (by simp)
    rw [htr, List.count_append, hzero, Nat.zero_add]
    exact a.safe.count_alloc_le a.no_free p
  exact ⟨rfl, hsafe.returned (by rw [hlive, a.live, Set.sdiff_self]) hcount⟩

omit [LawfulPTE M PTE] in
/-- `debug_assert!` restricts the flags on RISC-V only. -/
theorem Arch.debugAssert_eq (arch : Arch) (f : MappingFlags 64) :
    debugAssert arch.PTE f = match arch with
      | .sv39 _ | .sv48 _ => !f.isEmpty && (f.contains .READ || f.contains .EXECUTE)
      | _ => true := by
  cases arch with
  | x64 => rfl
  | a64 armEl2 => rfl
  | sv39 xuantie => exact Rv64PTE.debugAssert_eq f
  | sv48 xuantie => exact Rv64PTE.debugAssert_eq f
  | la64 => rfl

/-- After any run of calls with accepted flags, dropping the table frees each frame
obtained exactly once and no other frame, and at no time was a table accessed that had
not been obtained or had been freed. -/
theorem Arch.drop_returns_frames (arch : Arch) {H : PagingHandler 64 σ}
    {inUse : σ → Set PhysAddr} (hH : FreshFrames arch.metaData H inUse)
    {self : PageTable64 B arch.metaData arch.PTE H} {w₀ w : World arch.PTE σ}
    (h₀ : w₀.trace = [])
    (hnew : PageTable64.tryNew B arch.metaData arch.PTE H w₀ = (.ok self, w))
    (cs : List Call) (hcs : ∀ c ∈ cs, c.FlagsIn fun f => debugAssert arch.PTE f = true) :
    (self.drop (Call.nextAll self cs w)).1 = .ok () ∧
      (∀ p, (self.drop (Call.nextAll self cs w)).2.trace.count (.free p) =
        if .alloc p ∈ (self.drop (Call.nextAll self cs w)).2.trace then 1 else 0) ∧
      ∀ p before, .access p :: before <:+ (self.drop (Call.nextAll self cs w)).2.trace →
        .alloc p ∈ before ∧ .free p ∉ before := by
  have hallowed : ∀ c ∈ cs, c.FlagsIn (Allowed fun _ : arch.PTE => True) := fun c hc =>
    (hcs c hc).mono fun _ => allowed_true
  obtain ⟨T, a⟩ := nextAll_account hH cs hallowed (tryNew_inv (P := fun _ => True) hH self
    hnew).toTree (tryNew_account h₀ hnew)
  exact drop_account (tryNew_borrowedEntries hnew) T.forest a

/-- A run in which the third table cannot be allocated, followed by the drop. -/
theorem Arch.drop_returns_frames_run :
    ((firstTable ⟨true, true⟩ X64PagingMetaData X64PTE 3).drop (Call.nextAll
        (firstTable ⟨true, true⟩ X64PagingMetaData X64PTE 3)
        [.map 0 0x5000 .size4K .empty, .unmapRegion 0 0x2000] (firstWorld X64PTE))).1 = .ok () ∧
      (∀ p, ((firstTable ⟨true, true⟩ X64PagingMetaData X64PTE 3).drop (Call.nextAll
          (firstTable ⟨true, true⟩ X64PagingMetaData X64PTE 3)
          [.map 0 0x5000 .size4K .empty, .unmapRegion 0 0x2000]
          (firstWorld X64PTE))).2.trace.count (.free p) =
        if .alloc p ∈ ((firstTable ⟨true, true⟩ X64PagingMetaData X64PTE 3).drop (Call.nextAll
          (firstTable ⟨true, true⟩ X64PagingMetaData X64PTE 3)
          [.map 0 0x5000 .size4K .empty, .unmapRegion 0 0x2000]
          (firstWorld X64PTE))).2.trace then 1 else 0) ∧
      ∀ p before, .access p :: before <:+ ((firstTable ⟨true, true⟩ X64PagingMetaData
          X64PTE 3).drop (Call.nextAll (firstTable ⟨true, true⟩ X64PagingMetaData X64PTE 3)
          [.map 0 0x5000 .size4K .empty, .unmapRegion 0 0x2000]
          (firstWorld X64PTE))).2.trace →
        .alloc p ∈ before ∧ .free p ∉ before :=
  Arch.drop_returns_frames .x64 (freshFrames_bumpHandler (by decide) (by decide))
    (rfl : (blankWorld X64PTE).trace = []) (tryNew_blankWorld 2) _
    (by simp [Call.FlagsIn]; rfl)

end PageTableMultiarch
