/-
The pending flushes of a cursor.

A call that changes what some address is mapped to pushes an address of its page, before
or after the change, or asks for a full flush; and nothing but a flush takes a pushed
address away.

* `query_eq_leafAt` — `query` answers by the leaf of the address; without one its error
  depends on the root entry only;
* `Tracked` — between two states each change of a leaf has been recorded; the calls keep it
  by themselves, one page at a time (`Tracked.store`, `map_tracked`), and in a loop;
* `Arch.flush_covers` — every change is covered by the next flush;
* `flush_misses_page` — which fails when a table is copied from one that has borrowed from
  it.
-/
import PageTableMultiarch.Table64.Lending
import PageTableMultiarch.Table64.Region

namespace PageTableMultiarch

open GenericPTE Radix MemEvent

variable {B : Build} {M : PagingMetaData} {PTE σ : Type} {H : PagingHandler 64 σ}

/-! ### Pending addresses -/

/-- A flush of the page of height `k` of an address is pending. -/
def Pending (M : PagingMetaData) (flusher : TlbFlusher 64) (k : ℕ) (v : VirtAddr) : Prop :=
  match flusher with
  | .none => False
  | .array addrs => ∃ a ∈ addrs, SamePage M k a v
  | .full => True

theorem Pending.push_self (flusher : TlbFlusher 64) {k : ℕ} {a v : VirtAddr}
    (h : SamePage M k a v) : Pending M (flusher.push a) k v := by
  cases flusher with
  | none => exact ⟨a, List.mem_singleton.mpr rfl, h⟩
  | full => trivial
  | array addrs =>
    rw [TlbFlusher.push]
    split
    · exact ⟨a, List.mem_append_right addrs (List.mem_singleton.mpr rfl), h⟩
    · trivial

theorem Pending.push {flusher : TlbFlusher 64} {k : ℕ} {v : VirtAddr}
    (h : Pending M flusher k v) (a : VirtAddr) : Pending M (flusher.push a) k v := by
  cases flusher with
  | none => exact h.elim
  | full => trivial
  | array addrs =>
    obtain ⟨b, hb, hsame⟩ := h
    rw [TlbFlusher.push]
    split
    · exact ⟨b, List.mem_append_left _ hb, hsame⟩
    · trivial

/-- The flush that follows. -/
theorem Pending.calls {flusher : TlbFlusher 64} {k : ℕ} {v : VirtAddr}
    (h : Pending M flusher k v) :
    none ∈ flusher.calls ∨ ∃ a, some a ∈ flusher.calls ∧ SamePage M k a v := by
  cases flusher with
  | none => exact h.elim
  | full => exact Or.inl (List.mem_singleton.mpr rfl)
  | array addrs =>
    obtain ⟨a, ha, hsame⟩ := h
    exact Or.inr ⟨a, List.mem_map.mpr ⟨a, ha, rfl⟩, hsame⟩

/-! ### Errors of `query` -/

variable [GenericPTE 64 PTE]

/-- The walk meets a huge entry above the levels that have huge pages. -/
def HugeRoot (M : PagingMetaData) (m : PhysAddr → Fin ENTRY_COUNT → PTE) (root : PhysAddr)
    (v : VirtAddr) : Prop :=
  M.LEVELS = 4 ∧ paddr (m root (p4Index v)) ≠ 0 ∧ isHuge (m root (p4Index v)) = true

instance (m : PhysAddr → Fin ENTRY_COUNT → PTE) (root : PhysAddr) (v : VirtAddr) :
    Decidable (HugeRoot M m root v) :=
  inferInstanceAs (Decidable (_ ∧ _ ∧ _))

theorem seek_error_iff (hL : M.LEVELS = 3 ∨ M.LEVELS = 4)
    {m : PhysAddr → Fin ENTRY_COUNT → PTE} {root : PhysAddr} {v : VirtAddr} :
    (HugeRoot M m root v → seek m root (vpath M v) = .error .mappedToHugePage) ∧
      ∀ e, seek m root (vpath M v) = .error e → ¬HugeRoot M m root v → e = .notMapped := by
  constructor
  · rintro ⟨h4, hp, hh⟩
    rw [vpath_four h4, seek, if_neg (by simp), PageTable64.nextTable, if_neg (by simpa using hp),
      if_pos hh]
  · intro e he hno
    have hne : vpath M v ≠ [] := by
      intro hc
      have := length_vpath hL v
      rw [hc, List.length_nil] at this
      omega
    obtain ⟨ρ, i, τ, s, hsplit, -, hs, hn, hhuge⟩ := seek_eq_error hne he
    rw [PageTable64.nextTable] at hn
    split at hn
    · exact (Except.error.inj hn).symm
    · next hp =>
      split at hn
      · next hh =>
        -- a huge entry stops the walk on the lower levels
        refine absurd ?_ hno
        have hτ : 2 < τ.length := by
          by_contra hc
          rw [hhuge (by omega)] at hh
          exact absurd hh (by simp)
        have hlen := congrArg List.length hsplit
        rw [length_vpath hL, List.length_append, List.length_cons] at hlen
        have hρ : ρ = [] := List.length_eq_zero_iff.mp (by omega)
        subst hρ
        have h4 : M.LEVELS = 4 := by
          rw [List.length_nil] at hlen
          omega
        obtain rfl : root = s := Option.some_inj.mp hs
        rw [vpath_four h4, List.nil_append, List.cons.injEq] at hsplit
        rw [← hsplit.1] at hp hh
        exact ⟨h4, by simpa using hp, hh⟩
      · exact absurd hn (by simp)

/-- `query` answers by the leaf of the address, and without one by the root entry. -/
theorem query_eq_leafAt (hL : M.LEVELS = 3 ∨ M.LEVELS = 4) (self : PageTable64 B M PTE H)
    (v : VirtAddr) (w : World PTE σ) :
    (self.query v w).1 = match leafAt M w.mem self.rootPaddr v with
      | some (e, k) => .ok (paddr e + (heightSize k).alignOffset v, flags e, heightSize k)
      | none => .err (if HugeRoot M w.mem self.rootPaddr v then .mappedToHugePage
          else .notMapped) := by
  have hhuge : HugeRoot M w.mem self.rootPaddr v → _ := (seek_error_iff hL).1
  have herror : ∀ e, seek w.mem self.rootPaddr (vpath M v) = .error e → _ := (seek_error_iff hL).2
  rcases hs : seek w.mem self.rootPaddr (vpath M v) with e | ⟨slot, k⟩
  · rw [query_of_error hL self hs, leafAt, leaf_of_seek_error hs]
    by_cases h : HugeRoot M w.mem self.rootPaddr v
    · obtain rfl := Except.error.inj (hs.symm.trans (hhuge h))
      rw [if_pos h]
    · rw [herror e hs h, if_neg h]
  · rw [query_of_seek hL self hs, leafAt, leaf_of_seek_ok hs]
    have hno : ¬HugeRoot M w.mem self.rootPaddr v := by
      intro h
      rw [hhuge h] at hs
      exact absurd hs (by simp)
    by_cases hp : isPresent (w.entry slot) = true
    · rw [if_pos hp, show isPresent (w.mem slot.table slot.index) = true from hp]
      rfl
    · rw [if_neg hp, if_neg (show ¬isPresent (w.mem slot.table slot.index) = true from hp)]
      rw [if_neg hno]

/-! ### Recorded changes -/

/-- A flush of the page of a leaf is pending. -/
def Recorded (M : PagingMetaData) (flusher : TlbFlusher 64) (v : VirtAddr)
    (leaf : Option (PTE × ℕ)) : Prop :=
  ∀ e k, leaf = some (e, k) → Pending M flusher k v

/-- Between two states, a flush of each leaf that has changed has been recorded. -/
structure Tracked (M : PagingMetaData) (root : PhysAddr) (w w' : World PTE σ) : Prop where
  leaf (v : VirtAddr) : leafAt M w'.mem root v = leafAt M w.mem root v ∨
    Recorded M w'.flusher v (leafAt M w.mem root v) ∧
      Recorded M w'.flusher v (leafAt M w'.mem root v)
  error (v : VirtAddr) : HugeRoot M w'.mem root v ↔ HugeRoot M w.mem root v
  keeps {k : ℕ} {v : VirtAddr} : Pending M w.flusher k v → Pending M w'.flusher k v
  full : w.flusher = .full → w'.flusher = .full

section Tracked

variable {root : PhysAddr} {w w' w'' : World PTE σ} {inUse : σ → Set PhysAddr}

theorem Tracked.of_mem_eq (hmem : w'.mem = w.mem) (hfl : w'.flusher = w.flusher) :
    Tracked M root w w' := by
  refine ⟨fun v => Or.inl (by rw [hmem]), fun v => by rw [hmem], fun h => ?_, hfl.trans⟩
  rw [hfl]
  exact h

theorem Tracked.refl (w : World PTE σ) : Tracked M root w w := .of_mem_eq rfl rfl

/-- Of a leaf that changes twice, the first change has recorded what it was before and the
second what it is after. -/
theorem Tracked.trans (h : Tracked M root w w') (h' : Tracked M root w' w'') :
    Tracked M root w w'' := by
  refine ⟨fun v => ?_, fun v => (h'.error v).trans (h.error v), fun hp => h'.keeps (h.keeps hp),
    fun hf => h'.full (h.full hf)⟩
  obtain hsame | ⟨hbefore, hafter⟩ := h.leaf v
  · obtain hsame' | ⟨hbefore', hafter'⟩ := h'.leaf v
    · exact Or.inl (hsame'.trans hsame)
    · rw [hsame] at hbefore'
      exact Or.inr ⟨hbefore', hafter'⟩
  · have hbefore : Recorded M w''.flusher v (leafAt M w.mem root v) := fun e k hk =>
      h'.keeps (hbefore e k hk)
    obtain hsame' | ⟨-, hafter'⟩ := h'.leaf v
    · rw [hsame']
      exact Or.inr ⟨hbefore, fun e k hk => h'.keeps (hafter e k hk)⟩
    · exact Or.inr ⟨hbefore, hafter'⟩

/-- What `query` answers differently has been recorded. -/
theorem Tracked.changed (hL : M.LEVELS = 3 ∨ M.LEVELS = 4) (self self' : PageTable64 B M PTE H)
    (hroot : self'.rootPaddr = self.rootPaddr) (h : Tracked M self.rootPaddr w w') {v : VirtAddr}
    (hchange : (self'.query v w').1 ≠ (self.query v w).1) :
    ∃ e k, (leafAt M w.mem self.rootPaddr v = some (e, k) ∨
      leafAt M w'.mem self.rootPaddr v = some (e, k)) ∧ Pending M w'.flusher k v := by
  rw [query_eq_leafAt hL, query_eq_leafAt hL, hroot] at hchange
  obtain hsame | ⟨hbefore, hafter⟩ := h.leaf v
  · refine absurd ?_ hchange
    simp only [hsame, h.error v]
  · cases hb : leafAt M w.mem self.rootPaddr v with
    | some found => exact ⟨found.1, found.2, Or.inl rfl, hbefore _ _ hb⟩
    | none =>
      cases ha : leafAt M w'.mem self.rootPaddr v with
      | some found => exact ⟨found.1, found.2, Or.inr rfl, hafter _ _ ha⟩
      | none =>
        refine absurd ?_ hchange
        simp only [ha, hb, h.error v]

variable [LawfulPTE M PTE]

/-- A store on the lower levels does not touch the root of four levels. -/
theorem Tree.hugeRoot_store (T : Tree M inUse root w) {v : VirtAddr} {k : ℕ} (hk : k ≤ 2)
    {slot : Slot} (hslot : SlotAt w.mem root (pathTo M k v) slot) (e : PTE) (u : VirtAddr) :
    HugeRoot M (Radix.set w.mem slot.table slot.index e) root u ↔ HugeRoot M w.mem root u := by
  have hL := LawfulPTE.levels (M := M) PTE
  refine and_congr_right fun h4 => ?_
  obtain ⟨π, hπ, hs⟩ := hslot
  have hlen := congrArg List.length hπ
  rw [length_pathTo hL, List.length_append, List.length_singleton] at hlen
  have hne : root ≠ slot.table := by
    intro hc
    have hself : resolve child w.mem root [] = some slot.table := congrArg some hc
    have hnil := (T.forest rfl rfl (by omega) (Nat.zero_le _) hs hself).2
    rw [hnil, List.length_nil] at hlen
    omega
  rw [set_of_ne hne]

/-- A store on the path of an address, of an entry that is no pointer over one that is
none, with a push of the address. -/
theorem Tree.tracked_store (T : Tree M inUse root w) {v : VirtAddr} {k : ℕ} (hk : k ≤ 2)
    {slot : Slot} (hslot : SlotAt w.mem root (pathTo M k v) slot)
    (hold : k = 0 ∨ child (w.entry slot) = none) {e : PTE} (he : k = 0 ∨ child e = none)
    (hmem : w'.mem = Radix.set w.mem slot.table slot.index e)
    (hfl : w'.flusher = w.flusher.push v) : Tracked M root w w' := by
  have hL := LawfulPTE.levels (M := M) PTE
  refine ⟨fun u => ?_, fun u => ?_, fun h => ?_, fun h => ?_⟩
  · rw [hmem, leafAt_set hL T.forest hk hslot he u]
    by_cases hu : SamePage M k v u
    · -- the leaves of the page have its height, before and after
      refine Or.inr ⟨fun e' k' h' => ?_, fun e' k' h' => ?_⟩
      · rw [hslot.leafAt_samePage hL hk hold hu] at h'
        split at h'
        · simp only [Option.some.injEq, Prod.mk.injEq] at h'
          rw [← h'.2, hfl]
          exact .push_self w.flusher hu
        · exact absurd h' (by simp)
      · rw [if_pos hu] at h'
        split at h'
        · simp only [Option.some.injEq, Prod.mk.injEq] at h'
          rw [← h'.2, hfl]
          exact .push_self w.flusher hu
        · exact absurd h' (by simp)
    · -- elsewhere the leaves are as they were
      rw [if_neg hu]
      exact Or.inl rfl
  · rw [hmem]
    exact T.hugeRoot_store hk hslot e u
  · rw [hfl]
    exact h.push v
  · rw [hfl, h]
    rfl

/-- Removing an entry that maps nothing. -/
theorem Tree.tracked_clear (T : Tree M inUse root w) {v : VirtAddr} {k : ℕ} {slot : Slot}
    (hs : seek w.mem root (vpath M v) = .ok (slot, k)) (hp : ¬isPresent (w.entry slot) = true)
    (hmem : w'.mem = Radix.set w.mem slot.table slot.index empty)
    (hfl : w'.flusher = w.flusher) : Tracked M root w w' := by
  have hL := LawfulPTE.levels (M := M) PTE
  obtain ⟨hslot, hk, -⟩ := slotAt_of_seek hL hs
  refine ⟨fun u => Or.inl ?_, fun u => ?_, fun h => ?_, hfl.trans⟩
  · rw [hmem, leafAt_set hL T.forest hk hslot (Or.inr (child_empty M)) u]
    by_cases hu : SamePage M k v u
    · rw [if_pos hu, leafAt_samePage hs hu, leafAt_of_seek hs, if_neg hp,
        LawfulPTE.isPresent_empty M]
      simp
    · rw [if_neg hu]
  · rw [hmem]
    exact T.hugeRoot_store hk hslot empty u
  · rw [hfl]
    exact h

/-- Creating tables changes no answer. -/
theorem Grow.hugeRoot (hH : FreshFrames M H inUse) (T : Tree M inUse root w)
    {A : List (Fin ENTRY_COUNT) → Prop} (h : Grow M H root A w w') (v : VirtAddr) :
    HugeRoot M w'.mem root v ↔ HugeRoot M w.mem root v := by
  induction h with
  | refl => rfl
  | tail hsteps hstep ih =>
    rw [← ih]
    have T' := Grow.tree hH T hsteps
    cases hstep with
    | access t ht => rfl
    | flush fl => rfl
    | allocFail os h => rfl
    | store ρ slot e h hρ hc hw => exact hw.elim
    | attach ρ slot p os h hρ hold ha _ =>
      have hnode := h.table_mem (n := M.LEVELS - 1) (by omega)
      have hfresh := fun hc => hH.fresh ha (T'.inUse hc)
      have hps : p ≠ slot.table := fun hc => hfresh (hc ▸ hnode)
      have hroot : root ≠ p := fun hc => hfresh (hc ▸ mem_nodes_root rfl)
      refine and_congr_right fun _ => ?_
      simp only [World.hang, attach_apply hps, if_neg hroot]
      split
      · next heq =>
        -- the unused entry is no huge page, nor is the new table
        have hnew := (child_eq_some.mp
          (child_newTable (hH.valid ha) : child (newTable p : PTE) = _)).2.1
        obtain ⟨htable, hindex⟩ := heq
        rw [htable, hindex]
        simp only [hnew, Bool.false_eq_true, and_false, false_iff, not_and]
        exact fun h0 => absurd ((congrArg paddr hold).trans (LawfulPTE.paddr_empty M)) h0
      · rfl

theorem Grow.tracked (hH : FreshFrames M H inUse) (T : Tree M inUse root w)
    {A : List (Fin ENTRY_COUNT) → Prop} (h : Grow M H root A w w')
    (hfl : w'.flusher = w.flusher) : Tracked M root w w' := by
  refine ⟨fun v => Or.inl (Grow.leafAt hH T h v), Grow.hugeRoot hH T h, fun hp => ?_, hfl.trans⟩
  rw [hfl]
  exact hp

end Tracked

/-! ### The calls -/

/-- Code that leaves the pending flushes alone. -/
def KeepsFlusher {α : Type} (x : Op (World PTE σ) α) : Prop :=
  ∀ w, (x w).2.flusher = w.flusher

omit [GenericPTE 64 PTE] in
theorem KeepsFlusher.bind {α β : Type} {x : Op (World PTE σ) α} {f : α → Op (World PTE σ) β}
    (hx : KeepsFlusher x) (hf : ∀ a, KeepsFlusher (f a)) : KeepsFlusher (x >>= f) := by
  intro w
  refine Op.bind_rel (r := fun a b : World PTE σ => b.flusher = a.flusher)
    (fun h h' => h'.trans h) (hx w) fun a w' _ => hf a w'

theorem nextTableMutOrCreate_keepsFlusher (slot : Slot) :
    KeepsFlusher (PageTable64.nextTableMutOrCreate H slot : Op (World PTE σ) PhysAddr) := by
  intro w
  rw [nextTableMutOrCreate_apply]
  split
  · split <;> rfl
  · split <;> rfl

theorem createFrom_keepsFlusher (p3 : PhysAddr) (v : VirtAddr) (size : PageSize) :
    KeepsFlusher (createFrom H p3 v size : Op (World PTE σ) Slot) := by
  rw [createFrom]
  by_cases h1G : size = .size1G
  · rw [if_pos h1G]
    exact fun w => rfl
  · rw [if_neg h1G]
    refine (nextTableMutOrCreate_keepsFlusher _).bind fun p2 => ?_
    by_cases h2M : size = .size2M
    · rw [if_pos h2M]
      exact fun w => rfl
    · rw [if_neg h2M]
      exact (nextTableMutOrCreate_keepsFlusher _).bind fun p1 w => rfl

/-- Finding or making an entry records nothing. -/
theorem getEntryMutOrCreate_keepsFlusher (hL : M.LEVELS = 3 ∨ M.LEVELS = 4)
    (self : PageTable64 B M PTE H) (v : VirtAddr) (size : PageSize) :
    KeepsFlusher (self.getEntryMutOrCreate v size) := by
  rw [PageTable64.getEntryMutOrCreate]
  obtain h | h := hL
  · rw [if_pos h]
    exact createFrom_keepsFlusher self.rootPaddr v size
  · rw [if_neg (by omega), if_pos h]
    exact (nextTableMutOrCreate_keepsFlusher _).bind fun p3 => createFrom_keepsFlusher p3 v size

/-- `map` pushes the address if it succeeds. -/
theorem map_flusher (hL : M.LEVELS = 3 ∨ M.LEVELS = 4) (self : PageTable64 B M PTE H)
    (v : VirtAddr) (target : PhysAddr) (size : PageSize)
    (f : MappingFlags 64) (w : World PTE σ) : (self.map v target size f w).2.flusher =
      if (self.map v target size f w).1 = .ok () then w.flusher.push v else w.flusher := by
  have hcreate := getEntryMutOrCreate_keepsFlusher hL self v size w
  rw [PageTable64.map]
  rcases hget : self.getEntryMutOrCreate v size w with ⟨slot | e | _, w₁⟩
  · rw [hget] at hcreate
    rw [Op.bind_ok hget, Op.bind_ok (readEntry_eq slot w₁)]
    split
    · exact hcreate
    · by_cases hf : flagsPass B PTE f = true
      · rw [Op.bind_ok (assertFlags_of_pass hf _)]
        exact congrArg (fun fl => fl.push v) hcreate
      · rw [Op.bind_panic (assertFlags_of_not_pass hf _)]
        exact hcreate
  · rw [hget] at hcreate
    rw [Op.bind_err hget]
    exact hcreate
  · rw [hget] at hcreate
    rw [Op.bind_panic hget]
    exact hcreate

section Calls

variable [LawfulPTE M PTE] {inUse : σ → Set PhysAddr} (hH : FreshFrames M H inUse)
  (self : PageTable64 B M PTE H) {w : World PTE σ} (T : Tree M inUse self.rootPaddr w)
  {f : MappingFlags 64}

include T

theorem unmap_tracked (v : VirtAddr) : Tracked M self.rootPaddr w (self.unmap v w).2 := by
  have hL := LawfulPTE.levels (M := M) PTE
  obtain ⟨acc, -, heq⟩ := unmap_apply hL self v w
  rcases hs : seek w.mem self.rootPaddr (vpath M v) with e | ⟨slot, k⟩
  · simp only [hs] at heq
    rw [heq]
    exact .of_mem_eq rfl rfl
  · obtain ⟨hslot, hk, hh⟩ := slotAt_of_seek hL hs
    have hold : k = 0 ∨ child (w.entry slot) = none :=
      (Nat.eq_zero_or_pos k).imp_right fun h => child_of_isHuge (hh h)
    simp only [hs, LawfulPTE.clear_eq M] at heq
    rw [heq]
    split
    · exact T.tracked_store hk hslot hold (Or.inr (child_empty M)) rfl rfl
    · next hp => exact T.tracked_clear hs hp rfl rfl

/-- A store of flags over the entry that the walk finds. -/
theorem setFlags_tracked (hf : debugAssert PTE f = true) {v : VirtAddr} {slot : Slot} {k : ℕ}
    (hs : seek w.mem self.rootPaddr (vpath M v) = .ok (slot, k)) (acc : List PhysAddr) (e : PTE) :
    Tracked M self.rootPaddr w
      (((w.touch acc).store slot (setFlags e f (heightSize k).isHuge)).queue v) := by
  have hL := LawfulPTE.levels (M := M) PTE
  obtain ⟨hslot, hk, hh⟩ := slotAt_of_seek hL hs
  have hold : k = 0 ∨ child (w.entry slot) = none :=
    (Nat.eq_zero_or_pos k).imp_right fun h => child_of_isHuge (hh h)
  have hnew : k = 0 ∨ child (setFlags e f (heightSize k).isHuge) = none := by
    refine (Nat.eq_zero_or_pos k).imp_right fun h => ?_
    exact (setFlags_leafEntry (M := M) (allowed_true hf) e hk).child_eq_none (by omega)
  exact T.tracked_store hk hslot hold hnew rfl rfl

theorem protect_tracked (hf : debugAssert PTE f = true) (v : VirtAddr) :
    Tracked M self.rootPaddr w (self.protect v f w).2 := by
  have hL := LawfulPTE.levels (M := M) PTE
  obtain ⟨acc, -, heq⟩ := protect_apply hL self v w f
  rcases hs : seek w.mem self.rootPaddr (vpath M v) with e | ⟨slot, k⟩
  · simp only [hs] at heq
    rw [heq]
    exact .of_mem_eq rfl rfl
  · simp only [hs, flagsPass_of_accepted hf, if_true] at heq
    rw [heq]
    split
    · exact setFlags_tracked self T hf hs acc _
    · exact .of_mem_eq rfl rfl

theorem remap_tracked (hf : debugAssert PTE f = true) (v : VirtAddr) (target : PhysAddr) :
    Tracked M self.rootPaddr w (self.remap v target f w).2 := by
  have hL := LawfulPTE.levels (M := M) PTE
  obtain ⟨acc, -, heq⟩ := remap_apply hL self v w target f
  rcases hs : seek w.mem self.rootPaddr (vpath M v) with e | ⟨slot, k⟩
  · simp only [hs] at heq
    rw [heq]
    exact .of_mem_eq rfl rfl
  · simp only [hs, flagsPass_of_accepted hf, if_true] at heq
    rw [heq]
    exact setFlags_tracked self T hf hs acc _

theorem protectRegionStep_tracked (hf : debugAssert PTE f = true) (v : VirtAddr) (size : Usize) :
    Tracked M self.rootPaddr w (self.protectRegionStep f v size w).2 := by
  have hL := LawfulPTE.levels (M := M) PTE
  obtain ⟨acc, -, heq⟩ := protectRegionStep_apply hL self v w f size
  rcases hs : seek w.mem self.rootPaddr (vpath M v) with e | ⟨slot, k⟩
  · have htouch : (self.protectRegionStep f v size w).2 = w.touch acc := by
      rw [heq, hs]
      cases e <;> first | rfl | exact assertStep_snd _ _ _ _
    rw [htouch]
    exact .of_mem_eq rfl rfl
  · simp only [hs, flagsPass_of_accepted hf, if_true] at heq
    rw [heq]
    split
    · rw [assertStep_snd]
      exact setFlags_tracked self T hf hs acc _
    · rw [assertStep_snd]
      exact .of_mem_eq rfl rfl

include hH

theorem map_tracked (hf : debugAssert PTE f = true) (v : VirtAddr) (target : PhysAddr)
    (size : PageSize) : Tracked M self.rootPaddr w (self.map v target size f w).2 := by
  have hL := LawfulPTE.levels (M := M) PTE
  have hfl := map_flusher hL self v target size f w
  obtain ⟨w', hgrow, ⟨e, heq, -⟩ | ⟨slot, hslot, hold, heq⟩⟩ := map_spec hH self v target size hf T
  · rw [heq] at hfl ⊢
    exact hgrow.tracked hH T (by simpa using hfl)
  · rw [heq, if_pos rfl] at hfl
    -- the state after the creation of tables, with the flushes of before
    have hgrow' : Grow M H self.rootPaddr (CreatePath M H self.rootPaddr w v size.height) w
        { w' with flusher := w.flusher } := hgrow.tail (.flush w.flusher)
    have T' := Grow.tree hH T hgrow'
    have hchild := child_of_entry_eq_empty M hold
    have hnew : size.height = 0 ∨ child (newPage (MemoryAddr.alignDown target (size.toUsize 64)) f
        size.isHuge : PTE) = none := by
      refine (Nat.eq_zero_or_pos _).imp_right fun h => ?_
      exact (newPage_leafEntry (M := M) (allowed_true hf) _ size).child_eq_none (by
        have := size.height_le
        omega)
    rw [heq]
    exact (hgrow'.tracked hH T rfl).trans
      (T'.tracked_store size.height_le hslot (Or.inr hchild) hnew rfl hfl)

/-- A loop records what its rounds change. -/
theorem regionLoop_tracked {body : VirtAddr → Usize → Op (World PTE σ) PageSize}
    (hbody : ∀ v size w', Tree M inUse self.rootPaddr w' →
      Tracked M self.rootPaddr w' (body v size w').2 ∧
        Steps M H self.rootPaddr (fun _ => True) (LeafStore (fun _ => True) M) w'
          (body v size w').2) (fuel : ℕ) (v : VirtAddr) (size : Usize) :
    Tracked M self.rootPaddr w (regionLoop B body fuel v size w).2 := by
  refine regionLoop_rel (J := Tree M inUse self.rootPaddr) (r := Tracked M self.rootPaddr)
    Tracked.refl Tracked.trans (fun v size w' T' => ?_) fuel v size T
  obtain ⟨htracked, hsteps⟩ := hbody v size w' T'
  exact ⟨htracked, hsteps.tree hH (fun _ _ h => h.noTable) T'⟩

/-- Every call records what it changes. -/
theorem Call.tracked (c : Call) (hc : c.FlagsIn (fun f => debugAssert PTE f = true)) :
    Tracked M self.rootPaddr w (c.next self w) := by
  have hL := LawfulPTE.levels (M := M) PTE
  cases c with
  | query v =>
    obtain ⟨acc, -, heq⟩ := query_apply hL self v w
    rw [Call.next, heq]
    -- `query` reads only
    split
    · split <;> exact .of_mem_eq rfl rfl
    · exact .of_mem_eq rfl rfl
  | map v target size f => exact map_tracked hH self T hc v target size
  | remap v target f => exact remap_tracked self T hc v target
  | protect v f => exact protect_tracked self T hc v
  | unmap v => exact unmap_tracked self T v
  | mapRegion v getPaddr size f allowHuge =>
    rw [Call.next, PageTable64.mapRegion]
    split
    · exact .refl w
    · refine regionLoop_tracked hH self T (fun v size w' T' => ?_) _ v size
      rw [mapRegionStep_snd]
      have hsteps := map_steps self hH T' (allowed_true hc) v (getPaddr v)
        (PageTable64.regionPageSize v (getPaddr v) size allowHuge)
      exact ⟨map_tracked hH self T' hc v _ _, hsteps.mono (fun _ _ => trivial) fun _ _ h => h⟩
  | unmapRegion v size =>
    refine regionLoop_tracked hH self T (fun v size w' T' => ?_) _ v size
    rw [unmapRegionStep_snd]
    exact ⟨unmap_tracked self T' v, unmap_steps self v⟩
  | protectRegion v size f =>
    refine regionLoop_tracked hH self T (fun v size w' T' => ?_) _ v size
    exact ⟨protectRegionStep_tracked self T' hc v size,
      protectRegionStep_steps self (allowed_true hc) v size⟩

end Calls

/-! ### Cursors -/

/-- A call of a method of a cursor. -/
inductive CursorCall where
  | call (c : Call)
  | copyFrom (src : ℕ) (start : VirtAddr) (size : Usize)
  | flush

/-- The system with a new cursor. -/
def System.cursor (s : System B M PTE H) : System B M PTE H :=
  { s with world := { s.world with flusher := .none } }

/-- The state after a call of a cursor of table `t`. -/
def System.cursorExec (s : System B M PTE H) (t : ℕ) : CursorCall → System B M PTE H
  | .call c => s.exec (.call t c)
  | .copyFrom src start size => s.exec (.copy t src start size)
  | .flush => { s with world := (PageTable64.flush s.world).2 }

/-- The state after a list of calls of a cursor. -/
def System.cursorAll (s : System B M PTE H) (t : ℕ) (cs : List CursorCall) : System B M PTE H :=
  cs.foldl (fun s c => s.cursorExec t c) s

/-- The condition on a call. -/
def System.CursorOk (ok : System B M PTE H → SystemCall → Prop) (s : System B M PTE H) (t : ℕ) :
    CursorCall → Prop
  | .call c => ok s (.call t c)
  | .copyFrom src start size => ok s (.copy t src start size)
  | .flush => True

/-- Each call of a list satisfies a condition when it is made. -/
def System.EachCursor (ok : System B M PTE H → SystemCall → Prop) (s : System B M PTE H) (t : ℕ) :
    List CursorCall → Prop
  | [] => True
  | c :: cs => s.CursorOk ok t c ∧ EachCursor ok (s.cursorExec t c) t cs

instance (ok : System B M PTE H → SystemCall → Prop) [∀ s c, Decidable (ok s c)]
    (s : System B M PTE H) (t : ℕ) : (c : CursorCall) → Decidable (s.CursorOk ok t c)
  | .call c => inferInstanceAs (Decidable (ok s (.call t c)))
  | .copyFrom src start size => inferInstanceAs (Decidable (ok s (.copy t src start size)))
  | .flush => inferInstanceAs (Decidable True)

instance (ok : System B M PTE H → SystemCall → Prop) [∀ s c, Decidable (ok s c)] (t : ℕ) :
    (cs : List CursorCall) → (s : System B M PTE H) → Decidable (s.EachCursor ok t cs)
  | [], _ => inferInstanceAs (Decidable True)
  | c :: cs, s =>
    have := instDecidableEachCursor ok t cs (s.cursorExec t c)
    inferInstanceAs (Decidable (s.CursorOk ok t c ∧ (s.cursorExec t c).EachCursor ok t cs))

section Cursor

variable {s : System B M PTE H} {inUse : σ → Set PhysAddr} {L : Ledger} {t : ℕ}
  {x : Member B M PTE H}

theorem System.cursorAll_append (s : System B M PTE H) (t : ℕ) (cs cs' : List CursorCall) :
    s.cursorAll t (cs ++ cs') = (s.cursorAll t cs).cursorAll t cs' :=
  List.foldl_append

theorem System.EachCursor.append {ok : System B M PTE H → SystemCall → Prop}
    {cs cs' : List CursorCall} (h : s.EachCursor ok t (cs ++ cs')) :
    s.EachCursor ok t cs ∧ (s.cursorAll t cs).EachCursor ok t cs' := by
  induction cs generalizing s with
  | nil => exact ⟨trivial, h⟩
  | cons c cs ih =>
    obtain ⟨hc, hrest⟩ := h
    obtain ⟨hcs, hcs'⟩ := ih hrest
    exact ⟨⟨hc, hcs⟩, hcs'⟩

/-- What is pending in one state is pending in another. -/
structure KeepsPending (M : PagingMetaData) (w w' : World PTE σ) : Prop where
  pending {k : ℕ} {v : VirtAddr} : Pending M w.flusher k v → Pending M w'.flusher k v
  full : w.flusher = .full → w'.flusher = .full

omit [GenericPTE 64 PTE] in
theorem KeepsPending.of_full {w w' : World PTE σ} (h : w'.flusher = .full) :
    KeepsPending M w w' := by
  refine ⟨fun _ => ?_, fun _ => h⟩
  rw [h]
  trivial

variable [LawfulPTE M PTE]

omit [LawfulPTE M PTE] in
/-- A flush changes no table, nor does a new cursor. -/
theorem LedgerInv.setFlusher (I : s.Ledgered inUse L) (fl : TlbFlusher 64) :
    LedgerInv inUse { s.world with flusher := fl } s.tables s.next L := by
  refine (I.of_walks { s.world with flusher := fl } (.of_mem_eq [] rfl rfl) I.safe rfl I.inUse
    ?_ ?_).1
  · intro u hu π hπ
    rfl
  · intro t x hx i
    rfl

omit [LawfulPTE M PTE] in
/-- `copy_from` does nothing, or it asks for a full flush. -/
theorem LedgerInv.copyFrom_flusher (I : s.Ledgered inUse L) {dst src : ℕ} (hne : dst ≠ src)
    {d r : Member B M PTE H} (hd : s.tables dst = some d) (hr : s.tables src = some r)
    (start : VirtAddr) (size : Usize) :
    d.table.copyFrom r.table start size s.world = (.panic, s.world) ∨
      ∃ table w', d.table.copyFrom r.table start size s.world = (.ok table, w') ∧
        table.rootPaddr = d.table.rootPaddr ∧ (w' = s.world ∨ w'.flusher = .full) := by
  obtain ⟨-, h⟩ | ⟨-, h⟩ | ⟨-, h⟩ := copyFrom_apply d.table r.table start size s.world
  · exact Or.inl h
  · exact Or.inr ⟨d.table, s.world, h, rfl, Or.inl rfl⟩
  · have hroots : r.table.rootPaddr ≠ d.table.rootPaddr := fun hc => hne (I.root_inj hr hd hc).symm
    have hnodup : (entryIndices.filter (copyRange M start size)).Nodup :=
      nodup_entryIndices.filter _
    obtain ⟨w', hrounds, -, -⟩ := copySlots_spec hroots hnodup (I.copySafe hd hr hnodup)
    rw [Op.bind_ok hrounds, Op.bind_ok (Op.modify_apply _ _)] at h
    exact Or.inr ⟨_, _, h, rfl, Or.inr rfl⟩

variable (hH : FreshFrames M H inUse)

include hH

/-- A call of a cursor keeps the ledger right. -/
theorem LedgerInv.cursorExec (I : s.Ledgered inUse L) {c : CursorCall}
    (hc : s.CursorOk System.Careful t c) : ∃ L', (s.cursorExec t c).Ledgered inUse L' := by
  cases c with
  | call c =>
    obtain ⟨L', I', -⟩ := I.exec hH (.call t c) hc
    exact ⟨L', I'⟩
  | copyFrom src start size =>
    obtain ⟨L', I', -⟩ := I.exec hH (.copy t src start size) hc
    exact ⟨L', I'⟩
  | flush => exact ⟨L, I.setFlusher .none⟩

theorem LedgerInv.cursorAll (I : s.Ledgered inUse L) {cs : List CursorCall}
    (hcs : s.EachCursor System.Careful t cs) : ∃ L', (s.cursorAll t cs).Ledgered inUse L' := by
  induction cs generalizing s L with
  | nil => exact ⟨L, I⟩
  | cons c cs ih =>
    obtain ⟨hc, hcs⟩ := hcs
    obtain ⟨L', I'⟩ := I.cursorExec hH hc
    exact ih I' hcs

/-- A call of a cursor other than a flush keeps the root of its table, and it records the
leaves that it changes or asks for a full flush. -/
theorem LedgerInv.cursor_tracked (I : s.Ledgered inUse L) (hx : s.tables t = some x)
    {c : CursorCall} (hc : s.CursorOk System.Careful t c) (hflush : c ≠ .flush) :
    ∃ y, (s.cursorExec t c).tables t = some y ∧ y.table.rootPaddr = x.table.rootPaddr ∧
      (Tracked M x.table.rootPaddr s.world (s.cursorExec t c).world ∨
        (s.cursorExec t c).world.flusher = .full) := by
  cases c with
  | call c =>
    obtain ⟨hflags, hhealthy⟩ := hc
    have hexec : s.cursorExec t (.call c) = { s with world := c.next x.table s.world } := by
      simp only [System.cursorExec, System.exec, hx]
    rw [hexec]
    exact ⟨x, hx, rfl, Or.inl (c.tracked hH x.table (I.tree hx (hhealthy x hx)) hflags)⟩
  | copyFrom src start size =>
    have hexec : s.cursorExec t (.copyFrom src start size) = s.exec (.copy t src start size) := rfl
    rw [hexec, System.exec, hx]
    cases hr : s.tables src with
    | none => exact ⟨x, hx, rfl, Or.inl (.refl s.world)⟩
    | some r =>
      obtain h | ⟨table, w', h, hroot, hw'⟩ := I.copyFrom_flusher hc.1 hx hr start size
      · simp only [h]
        exact ⟨x, hx, rfl, Or.inl (.refl s.world)⟩
      · -- the copy leaves the cursor alone, or a shared root entry flushes all
        have htracked : Tracked M x.table.rootPaddr s.world w' ∨ w'.flusher = .full := by
          refine hw'.imp_left ?_
          rintro rfl
          exact .refl _
        simp only [h]
        split
        · exact ⟨_, Members.copied_dst s.tables t src x r table, hroot, htracked⟩
        · exact ⟨x, hx, rfl, htracked⟩
  | flush => exact absurd rfl hflush

/-- What is pending stays pending until the next flush. -/
theorem LedgerInv.cursor_keepsPending (I : s.Ledgered inUse L) (hx : s.tables t = some x)
    {cs : List CursorCall} (hcs : s.EachCursor System.Careful t cs) (hflush : .flush ∉ cs) :
    KeepsPending M s.world (s.cursorAll t cs).world := by
  induction cs generalizing s L x with
  | nil => exact ⟨id, id⟩
  | cons c cs ih =>
    obtain ⟨hc, hcs⟩ := hcs
    rw [List.mem_cons, not_or] at hflush
    obtain ⟨y, hy, -, hstep⟩ := I.cursor_tracked hH hx hc (Ne.symm hflush.1)
    obtain ⟨L', I'⟩ := I.cursorExec hH hc
    have hrest := ih I' hy hcs hflush.2
    have hfirst : KeepsPending M s.world (s.cursorExec t c).world := by
      obtain htracked | hfull := hstep
      · exact ⟨htracked.keeps, htracked.full⟩
      · exact .of_full hfull
    exact ⟨fun h => hrest.pending (hfirst.pending h), fun h => hrest.full (hfirst.full h)⟩

/-- What a call of a cursor makes `query` answer differently is pending when the next
flush comes. -/
theorem LedgerInv.cursor_covers (I : s.Ledgered inUse L) (hx : s.tables t = some x)
    {c : CursorCall} {cs : List CursorCall} (hcs : s.EachCursor System.Careful t (c :: cs))
    (hflush : .flush ∉ cs) {y : Member B M PTE H} (hy : (s.cursorExec t c).tables t = some y)
    {v : VirtAddr}
    (hchange : (y.table.query v (s.cursorExec t c).world).1 ≠ (x.table.query v s.world).1) :
    (s.cursorAll t (c :: cs)).world.flusher = .full ∨ ∃ e k,
      (leafAt M s.world.mem x.table.rootPaddr v = some (e, k) ∨
        leafAt M (s.cursorExec t c).world.mem y.table.rootPaddr v = some (e, k)) ∧
      Pending M (s.cursorAll t (c :: cs)).world.flusher k v := by
  have hL := LawfulPTE.levels (M := M) PTE
  obtain ⟨hc, hcs⟩ := hcs
  obtain ⟨L', I'⟩ := I.cursorExec hH hc
  have hkeeps := I'.cursor_keepsPending hH hy hcs hflush
  by_cases hc' : c = .flush
  · -- a flush changes no answer
    subst hc'
    refine absurd ?_ hchange
    obtain rfl : x = y := Option.some_inj.mp (hx.symm.trans hy)
    rw [query_eq_leafAt hL, query_eq_leafAt hL]
    rfl
  · obtain ⟨y', hy', hroot, htracked | hfull⟩ := I.cursor_tracked hH hx hc hc'
    · obtain rfl : y' = y := Option.some_inj.mp (hy'.symm.trans hy)
      obtain ⟨e, k, hleaf, hpending⟩ := htracked.changed hL x.table y'.table hroot hchange
      refine Or.inr ⟨e, k, ?_, hkeeps.pending hpending⟩
      rw [hroot]
      exact hleaf
    · exact Or.inl (hkeeps.full hfull)

end Cursor

/-- The size of the page of a leaf is the one that `query` answers. -/
theorem query_of_leafAt (hL : M.LEVELS = 3 ∨ M.LEVELS = 4) (self : PageTable64 B M PTE H)
    {v : VirtAddr} {w : World PTE σ} {e : PTE} {k : ℕ}
    (h : leafAt M w.mem self.rootPaddr v = some (e, k)) :
    ∃ p g, (self.query v w).1 = .ok (p, g, heightSize k) := by
  rw [query_eq_leafAt hL, h]
  exact ⟨_, _, rfl⟩

/-- In every state of a careful run, whatever a cursor of a table is called for: if a call
changes what `query` answers for an address, then the next flush is a full one or one of an
address of the page that the address belonged to, before the call or after it. -/
theorem Arch.flush_covers (arch : Arch) {H : PagingHandler 64 σ} {inUse : σ → Set PhysAddr}
    (hH : FreshFrames arch.metaData H inUse) {s₀ s : System B arch.metaData arch.PTE H}
    (h₀ : s₀.Blank) (h : s₀.Run System.Careful s) {t : ℕ} {pre mid : List CursorCall}
    {op : CursorCall} (hcs : s.cursor.EachCursor System.Careful t (pre ++ op :: mid))
    (hflush : .flush ∉ mid) {x y : Member B arch.metaData arch.PTE H}
    (hx : (s.cursor.cursorAll t pre).tables t = some x)
    (hy : (s.cursor.cursorAll t (pre ++ [op])).tables t = some y) {v : VirtAddr}
    (hchange : (y.table.query v (s.cursor.cursorAll t (pre ++ [op])).world).1 ≠
      (x.table.query v (s.cursor.cursorAll t pre).world).1) :
    ∃ calls w', PageTable64.flush (s.cursor.cursorAll t (pre ++ op :: mid)).world =
        (.ok calls, w') ∧
      (none ∈ calls ∨ ∃ p g size,
        ((x.table.query v (s.cursor.cursorAll t pre).world).1 = .ok (p, g, size) ∨
          (y.table.query v (s.cursor.cursorAll t (pre ++ [op])).world).1 = .ok (p, g, size)) ∧
        ∃ addr, some addr ∈ calls ∧ addr.toNat % arch.metaData.space / size.bytes =
          v.toNat % arch.metaData.space / size.bytes) := by
  have hL := LawfulPTE.levels (M := arch.metaData) arch.PTE
  obtain ⟨L, I⟩ := h.ledger hH (fun _ _ _ _ hc => hc) h₀
  have I₀ : s.cursor.Ledgered inUse L := I.setFlusher .none
  obtain ⟨hpre, hrest⟩ := hcs.append
  obtain ⟨L', I'⟩ := I₀.cursorAll hH hpre
  have hafter : s.cursor.cursorAll t (pre ++ [op]) =
      (s.cursor.cursorAll t pre).cursorExec t op := System.cursorAll_append _ _ _ _
  have hend : s.cursor.cursorAll t (pre ++ op :: mid) =
      (s.cursor.cursorAll t pre).cursorAll t (op :: mid) := System.cursorAll_append _ _ _ _
  rw [hafter] at hy hchange ⊢
  rw [hend]
  refine ⟨_, _, rfl, ?_⟩
  obtain hfull | ⟨e, k, hleaf, hpending⟩ := I'.cursor_covers hH hx hrest hflush hy hchange
  · left
    rw [hfull]
    exact List.mem_singleton.mpr rfl
  · obtain hall | ⟨addr, haddr, hsame⟩ := hpending.calls
    · exact Or.inl hall
    · -- the leaf is the page of the address, before or after
      have hk : k ≤ 2 := hleaf.elim leafAt_height_le leafAt_height_le
      have hquery : ∃ p g, (x.table.query v (s.cursor.cursorAll t pre).world).1 =
            .ok (p, g, heightSize k) ∨
          (y.table.query v ((s.cursor.cursorAll t pre).cursorExec t op).world).1 =
            .ok (p, g, heightSize k) := by
        obtain hbefore | hafter := hleaf
        · obtain ⟨p, g, hquery⟩ := query_of_leafAt hL x.table hbefore
          exact ⟨p, g, Or.inl hquery⟩
        · obtain ⟨p, g, hquery⟩ := query_of_leafAt hL y.table hafter
          exact ⟨p, g, Or.inr hquery⟩
      obtain ⟨p, g, hquery⟩ := hquery
      refine Or.inr ⟨p, g, heightSize k, hquery, addr, haddr, ?_⟩
      rw [bytes_heightSize hk]
      exact (samePage_iff hL hk).mp hsame

/-- A table that maps a page, its cursor makes room for another one. -/
def flushingCalls : List SystemCall := [.new, .call 0 (.map 0 0x7000 .size4K .READ)]

theorem Arch.flush_covers_run : ∃ x y, (lendingStart.execAll flushingCalls).tables 0 = some x ∧
    ((lendingStart.execAll flushingCalls).cursor.cursorAll 0 [.call (.unmap 0)]).tables 0 =
      some y ∧ ∃ calls w',
    PageTable64.flush ((lendingStart.execAll flushingCalls).cursor.cursorAll 0
      [.call (.unmap 0), .call (.map 0x1000 0x7000 .size4K .READ)]).world = (.ok calls, w') ∧
    (none ∈ calls ∨ ∃ p g size,
      ((x.table.query 0x123 (lendingStart.execAll flushingCalls).cursor.world).1 =
          .ok (p, g, size) ∨
        (y.table.query 0x123 ((lendingStart.execAll flushingCalls).cursor.cursorAll 0
          [.call (.unmap 0)]).world).1 = .ok (p, g, size)) ∧
      ∃ addr, some addr ∈ calls ∧ addr.toNat % X64PagingMetaData.space / size.bytes =
        (0x123 : VirtAddr).toNat % X64PagingMetaData.space / size.bytes) := by
  obtain ⟨hcareful, hcs, h0, h0', hall⟩ : lendingStart.EachCall System.Careful flushingCalls ∧
      (lendingStart.execAll flushingCalls).cursor.EachCursor System.Careful 0
        [.call (.unmap 0), .call (.map 0x1000 0x7000 .size4K .READ)] ∧
      ((lendingStart.execAll flushingCalls).tables 0).isSome = true ∧
      (((lendingStart.execAll flushingCalls).cursor.cursorAll 0 [.call (.unmap 0)]).tables
        0).isSome = true ∧
      ∀ x ∈ (lendingStart.execAll flushingCalls).tables 0,
        ∀ y ∈ ((lendingStart.execAll flushingCalls).cursor.cursorAll 0
          [.call (.unmap 0)]).tables 0,
        (y.table.query 0x123 ((lendingStart.execAll flushingCalls).cursor.cursorAll 0
          [.call (.unmap 0)]).world).1 ≠
        (x.table.query 0x123 (lendingStart.execAll flushingCalls).cursor.world).1 := by
    decide +kernel
  obtain ⟨x, hx⟩ := Option.isSome_iff_exists.mp h0
  obtain ⟨y, hy⟩ := Option.isSome_iff_exists.mp h0'
  have hcs' : (lendingStart.execAll flushingCalls).cursor.EachCursor System.Careful 0
      ([] ++ .call (.unmap 0) :: [.call (.map 0x1000 0x7000 .size4K .READ)]) := hcs
  exact ⟨x, y, hx, hy, Arch.flush_covers .x64 (freshFrames_queueHandler (by decide))
    lendingStart_blank (.execAll .start hcareful) hcs' (by simp) hx hy (hall x hx y hy)⟩

/-! ### A table that is freed while it is still in use -/

/-- Table 1 borrows from table 0. -/
def borrowingCalls : List SystemCall :=
  [.new, .call 0 (.map 0 0x7000 .size4K .READ), .new, .copy 1 0 0 0x1000]

/-- A cursor of table 0 copies the entry back, which frees the tables that both point to,
and flushes. -/
def copyBack : List CursorCall := [.copyFrom 1 0 0x1000, .flush]

/-- Mapping another page then gets one of the freed frames, and changes what the table
answers for a page whose address is not flushed. -/
theorem flush_misses_page :
    FreshFrames X64PagingMetaData queueHandler queueInUse ∧ lendingStart.Blank ∧
      lendingStart.Run System.Valid (lendingStart.execAll borrowingCalls) ∧
      (lendingStart.execAll borrowingCalls).cursor.EachCursor System.Valid 0
        (copyBack ++ [.call (.map 0x8000000000 0x6000 .size4K .READ)]) ∧
      ∃ x y, ((lendingStart.execAll borrowingCalls).cursor.cursorAll 0 copyBack).tables 0 =
          some x ∧
        ((lendingStart.execAll borrowingCalls).cursor.cursorAll 0
          (copyBack ++ [.call (.map 0x8000000000 0x6000 .size4K .READ)])).tables 0 = some y ∧
        (y.table.query 0 ((lendingStart.execAll borrowingCalls).cursor.cursorAll 0
            (copyBack ++ [.call (.map 0x8000000000 0x6000 .size4K .READ)])).world).1 ≠
          (x.table.query 0 ((lendingStart.execAll borrowingCalls).cursor.cursorAll 0
            copyBack).world).1 ∧
        (PageTable64.flush ((lendingStart.execAll borrowingCalls).cursor.cursorAll 0
          (copyBack ++ [.call (.map 0x8000000000 0x6000 .size4K .READ)])).world).1 =
          .ok [some 0x8000000000] ∧
        ∀ size : PageSize, (0x8000000000 : VirtAddr).toNat % X64PagingMetaData.space / size.bytes ≠
          (0 : VirtAddr).toNat % X64PagingMetaData.space / size.bytes := by
  obtain ⟨hvalid, hcs, h0, h0', hflush, hall⟩ :
      lendingStart.EachCall System.Valid borrowingCalls ∧
      (lendingStart.execAll borrowingCalls).cursor.EachCursor System.Valid 0
        (copyBack ++ [.call (.map 0x8000000000 0x6000 .size4K .READ)]) ∧
      (((lendingStart.execAll borrowingCalls).cursor.cursorAll 0 copyBack).tables 0).isSome =
        true ∧
      (((lendingStart.execAll borrowingCalls).cursor.cursorAll 0
        (copyBack ++ [.call (.map 0x8000000000 0x6000 .size4K .READ)])).tables 0).isSome = true ∧
      (PageTable64.flush ((lendingStart.execAll borrowingCalls).cursor.cursorAll 0
        (copyBack ++ [.call (.map 0x8000000000 0x6000 .size4K .READ)])).world).1 =
        .ok [some 0x8000000000] ∧
      ∀ x ∈ ((lendingStart.execAll borrowingCalls).cursor.cursorAll 0 copyBack).tables 0,
        ∀ y ∈ ((lendingStart.execAll borrowingCalls).cursor.cursorAll 0
          (copyBack ++ [.call (.map 0x8000000000 0x6000 .size4K .READ)])).tables 0,
        (y.table.query 0 ((lendingStart.execAll borrowingCalls).cursor.cursorAll 0
            (copyBack ++ [.call (.map 0x8000000000 0x6000 .size4K .READ)])).world).1 ≠
          (x.table.query 0 ((lendingStart.execAll borrowingCalls).cursor.cursorAll 0
            copyBack).world).1 := by
    decide +kernel
  obtain ⟨x, hx⟩ := Option.isSome_iff_exists.mp h0
  obtain ⟨y, hy⟩ := Option.isSome_iff_exists.mp h0'
  refine ⟨freshFrames_queueHandler (by decide), lendingStart_blank, .execAll .start hvalid, hcs,
    x, y, hx, hy, hall x hx y hy, hflush, fun size => ?_⟩
  cases size <;> decide

end PageTableMultiarch
