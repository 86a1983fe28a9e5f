/-
What the entries of page tables may grant.

A policy says which pages may be mapped where and with which flags.  If the calls comply with
it, every entry that can be reached is a table, unused, or made for a page and with flags of
the policy: in every table, also where entries are copied or shared.

* `Policy.Made` — an entry made for a page of the policy;
* `Call.policy` — a call of one table;
* `rootEntries_iff` — the entries of a table are those of its root and those below;
* `LedgerInv.exec_policy`, `System.Run.policy` — a system of page tables.
-/
import PageTableMultiarch.Entry.Fields
import PageTableMultiarch.Table64.Remap
import PageTableMultiarch.Table64.Sharing

namespace PageTableMultiarch

open GenericPTE Radix MemEvent

variable {B : Build} {M : PagingMetaData} {PTE σ : Type} {H : PagingHandler 64 σ}
  [GenericPTE 64 PTE]

/-- The frames that pages of each height may be mapped to, and the flags they may get. -/
structure Policy where
  page : ℕ → PhysAddr → Prop
  flags : MappingFlags 64 → Prop

/-- Every page may be mapped, with readable flags. -/
def Policy.readable : Policy := ⟨fun _ _ => True, Readable⟩

/-- An entry made for a page of a height, which is aligned to its size. -/
def Policy.Made (pol : Policy) (k : ℕ) (e : PTE) : Prop :=
  ∃ p f, pol.page k p ∧ pol.flags f ∧ p.toNat % 2 ^ (12 + 9 * k) = 0 ∧
    e = newPage p f (decide (0 < k))

/-- An entry at the end of a path of `len` indices that is unused or made for a page. -/
def Policy.Entry (pol : Policy) (M : PagingMetaData) (len : ℕ) (e : PTE) : Prop :=
  e = empty ∨ ∃ k ≤ 2, len + k = M.LEVELS ∧ pol.Made k e

/-- The pages that a call maps are pages of the policy: their sizes are those of this page
table, and `remap` is given an address aligned to the size that `get_entry_mut` finds. -/
def Call.Complies (pol : Policy) (self : PageTable64 B M PTE H) (w : World PTE σ) : Call → Prop
  | .map _ target size _ =>
    size ≠ .size1M ∧ pol.page size.height (MemoryAddr.alignDown target (size.toUsize 64))
  | .remap v target _ => ∀ slot size, (self.getEntryMut v w).1 = .ok (slot, size) →
    size.isAligned target = true ∧ pol.page size.height target
  | .mapRegion v getPaddr size f allowHuge =>
    PageSize.size4K.isAligned v = true → PageSize.size4K.isAligned size = true →
      Rounds B (self.mapRegionStep getPaddr f allowHuge)
        (fun v size _ =>
          let pageSize := PageTable64.regionPageSize v (getPaddr v) size allowHuge
          pol.page pageSize.height (MemoryAddr.alignDown (getPaddr v) (pageSize.toUsize 64)))
        (regionFuel size) v size w
  | _ => True

/-! ### One page table -/

section Store

variable [LawfulPTE M PTE] {pol : Policy} {w : World PTE σ} {root : PhysAddr} {v : VirtAddr}
  {k : ℕ} {e : PTE}

/-- The entries that complying calls store. -/
def Policy.Store (pol : Policy) (M : PagingMetaData) (ρ : List (Fin ENTRY_COUNT)) (e : PTE) :
    Prop :=
  NoTable M ρ.length e ∧ pol.Entry M ρ.length e

theorem Policy.store_empty (ρ : List (Fin ENTRY_COUNT)) : pol.Store M ρ (empty : PTE) :=
  ⟨Or.inr (child_empty M), Or.inl rfl⟩

/-- What is made for a page of height `k` may be stored at that height. -/
theorem Policy.Made.store (hpol : ∀ f, pol.flags f → Readable f) (h : pol.Made k e)
    (hk : k ≤ 2) (v : VirtAddr) : pol.Store M (pathTo M k v) e := by
  have hL := LawfulPTE.levels (M := M) PTE
  have hlen := length_pathTo hL k v
  rw [Policy.Store, hlen]
  refine ⟨?_, Or.inr ⟨k, hk, by omega, h⟩⟩
  obtain ⟨p, f, -, hf, -, rfl⟩ := h
  rcases Nat.eq_zero_or_pos k with h0 | h0
  · exact Or.inl (by omega)
  · right
    rw [decide_eq_true h0]
    exact child_of_isHuge (LawfulPTE.isHuge_newPage M p (LawfulPTE.read_accepted M (hpol f hf)))

/-- The entry that a walk finds is unused, or made for a page of its height. -/
theorem Policy.found (h : Entries (pol.Entry M) M root w) {slot : Slot}
    (hs : seek w.mem root (vpath M v) = .ok (slot, k)) :
    w.entry slot = empty ∨ pol.Made k (w.entry slot) := by
  have hL := LawfulPTE.levels (M := M) PTE
  obtain ⟨hslot, hk, hhuge⟩ := slotAt_of_seek hL hs
  have hlen := length_pathTo hL k v
  obtain ⟨hlt, p, -, hnew⟩ | hempty | ⟨j, -, hj, hmade⟩ := h hslot (by omega)
  · -- a table is passed
    have hhuge := hhuge (by omega)
    rw [show w.mem slot.table slot.index = newTable p from hnew,
      LawfulPTE.isHuge_newTable M] at hhuge
    exact absurd hhuge Bool.false_ne_true
  · exact Or.inl hempty
  · obtain rfl : j = k := by omega
    exact Or.inr hmade

variable [FieldEncoded PTE]

omit [LawfulPTE M PTE] in
/-- Setting both fields of an entry leaves nothing of it. -/
theorem setFlags_setPaddr (e : PTE) (p : PhysAddr) (f : MappingFlags 64) (h : Bool) :
    setFlags (setPaddr e p) f h = newPage p f h := by
  rw [FieldEncoded.setPaddr_eq, FieldEncoded.setFlags_eq, FieldEncoded.bits_ofBits,
    Mask.set_rest (Mask.and_not_and _ _), FieldEncoded.newPage_eq]

omit [LawfulPTE M PTE] in
/-- Other flags of the policy. -/
theorem Policy.Made.setFlags (h : pol.Made k e) {f : MappingFlags 64} (hf : pol.flags f) :
    pol.Made k (setFlags e f (heightSize k).isHuge) := by
  obtain ⟨p, f₀, hp, -, haligned, rfl⟩ := h
  rw [isHuge_heightSize]
  exact ⟨p, f, hp, hf, haligned, FieldEncoded.setFlags_newPage p f₀ f _ _⟩

end Store

/-- The tables of a page table form a tree, and its entries are those of the policy. -/
structure Policy.Kept (pol : Policy) (M : PagingMetaData) (inUse : σ → Set PhysAddr)
    (root : PhysAddr) (w : World PTE σ) : Prop extends Tree M inUse root w where
  entries : Entries (pol.Entry M) M root w

section Calls

variable [LawfulPTE M PTE] {pol : Policy} {inUse : σ → Set PhysAddr} {w w' : World PTE σ}

/-- Steps that store entries of the policy. -/
theorem Policy.Kept.steps {root : PhysAddr} {A : List (Fin ENTRY_COUNT) → Prop}
    (hH : FreshFrames M H inUse) (K : pol.Kept M inUse root w)
    (h : Steps M H root A (pol.Store M) w w') : pol.Kept M inUse root w' :=
  ⟨h.tree hH (fun _ _ he => he.1) K.toTree,
    h.entries (Q := pol.Entry M) hH (fun _ => Or.inl rfl) (fun _ _ he => he) K.toTree K.entries⟩

omit [LawfulPTE M PTE] in
/-- A loop keeps what its rounds keep. -/
theorem Policy.Kept.regionLoop {root : PhysAddr}
    {body : VirtAddr → Usize → Op (World PTE σ) PageSize}
    {ok : VirtAddr → Usize → World PTE σ → Prop}
    (hbody : ∀ v size w, pol.Kept M inUse root w → ok v size w →
      pol.Kept M inUse root (body v size w).2)
    {fuel : ℕ} {v : VirtAddr} {size : Usize} (K : pol.Kept M inUse root w)
    (hrounds : Rounds B body ok fuel v size w) :
    pol.Kept M inUse root (regionLoop B body fuel v size w).2 := by
  have hkeeps := regionLoop_rounds (B := B) (J := pol.Kept M inUse root)
    (r := fun a b => pol.Kept M inUse root a → pol.Kept M inUse root b) (fun _ h => h)
    (fun h h' ha => h' (h ha)) (fun v size w K hok => ⟨fun _ => hbody v size w K hok,
      hbody v size w K hok⟩) fuel v size K hrounds
  exact hkeeps K

omit [GenericPTE 64 PTE] [LawfulPTE M PTE] in
/-- `map_region` picks sizes of this page table. -/
theorem regionPageSize_ne (v : VirtAddr) (p : PhysAddr) (size : Usize) (allowHuge : Bool) :
    PageTable64.regionPageSize v p size allowHuge ≠ .size1M := by
  rw [PageTable64.regionPageSize]
  repeat' split
  all_goals simp

variable [FieldEncoded PTE] (hH : FreshFrames M H inUse) (hpol : ∀ f, pol.flags f → Readable f)
  (self : PageTable64 B M PTE H)
include hH hpol

omit [FieldEncoded PTE] in
theorem Policy.Kept.map (K : pol.Kept M inUse self.rootPaddr w) (v : VirtAddr)
    {target : PhysAddr} {size : PageSize} {f : MappingFlags 64} (hsize : size ≠ .size1M)
    (hpage : pol.page size.height (MemoryAddr.alignDown target (size.toUsize 64)))
    (hf : pol.flags f) : pol.Kept M inUse self.rootPaddr (self.map v target size f w).2 := by
  refine K.steps hH (Steps.map self hH K.toTree v target size f fun _ _ => ?_)
  have hheight : heightSize size.height = size := heightSize_height hsize
  refine Policy.Made.store hpol ⟨_, f, hpage, hf, ?_, ?_⟩ size.height_le v
  · rw [PageSize.toNat_alignDown (by decide), ← bytes_heightSize size.height_le, hheight,
      Nat.sub_mod_eq_zero_of_mod_eq (Nat.mod_mod _ _).symm]
  · rw [← isHuge_heightSize, hheight]

theorem Policy.Kept.remap (K : pol.Kept M inUse self.rootPaddr w) (v : VirtAddr)
    {target : PhysAddr} {f : MappingFlags 64} (hf : pol.flags f)
    (hc : (Call.remap v target f).Complies pol self w) :
    pol.Kept M inUse self.rootPaddr (self.remap v target f w).2 := by
  have hL := LawfulPTE.levels (M := M) PTE
  have hread : debugAssert PTE f = true := LawfulPTE.read_accepted M (hpol f hf)
  refine K.steps hH (A := fun _ => True) (Steps.remap self v target f (fun slot k hs _ => ?_)
    fun _ _ _ hno => absurd (flagsPass_of_accepted hread) hno)
  have hk := (slotAt_of_seek hL hs).2.1
  obtain ⟨acc, -, hget⟩ := getEntry_apply hL self v w
  obtain ⟨haligned, hpage⟩ := hc slot (heightSize k) (by
    rw [PageTable64.getEntryMut, hget, hs]
    rfl)
  rw [PageSize.isAligned_iff (by decide), bytes_heightSize hk] at haligned
  rw [height_heightSize hk] at hpage
  rw [setFlags_setPaddr, isHuge_heightSize]
  exact Policy.Made.store hpol ⟨target, f, hpage, hf, haligned, rfl⟩ hk v

omit hH in
/-- The entry of a mapped page may get other flags of the policy. -/
theorem Policy.Kept.store_setFlags (K : pol.Kept M inUse self.rootPaddr w) {v : VirtAddr}
    {f : MappingFlags 64} (hf : pol.flags f) {slot : Slot} {k : ℕ}
    (hs : seek w.mem self.rootPaddr (vpath M v) = .ok (slot, k))
    (hpresent : isPresent (w.entry slot) = true) :
    pol.Store M (pathTo M k v) (setFlags (w.entry slot) f (heightSize k).isHuge) := by
  obtain hempty | hmade := Policy.found K.entries hs
  · rw [hempty, LawfulPTE.isPresent_empty M] at hpresent
    exact absurd hpresent Bool.false_ne_true
  · exact (hmade.setFlags hf).store hpol (slotAt_of_seek (LawfulPTE.levels PTE) hs).2.1 v

/-- A call that complies with the policy. -/
theorem Call.policy (K : pol.Kept M inUse self.rootPaddr w) (c : Call)
    (hf : c.FlagsIn pol.flags) (hc : c.Complies pol self w) :
    pol.Kept M inUse self.rootPaddr (c.next self w) := by
  cases c with
  | query v => exact K.steps hH (A := fun _ => True) (query_steps self v)
  | map v target size f => exact K.map hH hpol self v hc.1 hc.2 hf
  | remap v target f => exact K.remap hH hpol self v hf hc
  | protect v f =>
    exact K.steps hH (A := fun _ => True) (Steps.protect self v f fun _ _ hs hpresent _ =>
      K.store_setFlags hpol self hf hs hpresent)
  | unmap v =>
    exact K.steps hH (A := fun _ => True) (Steps.unmap self v fun _ => Policy.store_empty _)
  | mapRegion v getPaddr size f allowHuge =>
    rw [Call.Complies] at hc
    rw [Call.next]
    obtain h | ⟨hv, hsize, h⟩ := mapRegion_cases self v getPaddr size f allowHuge w
    · rw [h]
      exact K
    · rw [h]
      refine K.regionLoop (fun v size w K hpage => ?_) (hc hv hsize)
      rw [mapRegionStep_snd]
      exact K.map hH hpol self v (regionPageSize_ne v (getPaddr v) size allowHuge) hpage hf
  | unmapRegion v size =>
    refine K.regionLoop (fun v size w K _ => ?_) (.of_forall (fun _ _ _ => trivial) _ v size w)
    rw [unmapRegionStep_snd]
    exact K.steps hH (A := fun _ => True) (Steps.unmap self v fun _ => Policy.store_empty _)
  | protectRegion v size f =>
    refine K.regionLoop (fun v size w K _ => ?_) (.of_forall (fun _ _ _ => trivial) _ v size w)
    exact K.steps hH (A := fun _ => True) (Steps.protectRegionStep self v size f
      fun _ _ hs hpresent _ => K.store_setFlags hpol self hf hs hpresent)

end Calls

/-! ### Several page tables -/

section Roots

variable {Q : ℕ → PTE → Prop} {w w' : World PTE σ} {root root' u : PhysAddr}

/-- The entries of a table of the second level and of those below it. -/
def EntriesBelow (Q : ℕ → PTE → Prop) (M : PagingMetaData) (u : PhysAddr) (w : World PTE σ) :
    Prop :=
  ∀ (ρ : List (Fin ENTRY_COUNT)) (slot : Slot), SlotAt w.mem u ρ slot → ρ.length + 1 ≤ M.LEVELS →
    TableEntry M (ρ.length + 1) (w.entry slot) ∨ Q (ρ.length + 1) (w.entry slot)

/-- The entries of a page table, from its root. -/
def RootEntries (Q : ℕ → PTE → Prop) (M : PagingMetaData) (root : PhysAddr) (w : World PTE σ) :
    Prop :=
  ∀ i, (TableEntry M 1 (w.mem root i) ∨ Q 1 (w.mem root i)) ∧
    ∀ u, child (w.mem root i) = some u → EntriesBelow Q M u w

theorem rootEntries_iff (h1 : 1 ≤ M.LEVELS) : RootEntries Q M root w ↔ Entries Q M root w := by
  constructor
  · rintro h ρ slot ⟨π, rfl, hs⟩ hρ
    obtain ⟨rfl, htable⟩ | ⟨i, u, π', rfl, hu, hs⟩ := resolve_root_cases hs
    · have hentry := (h slot.index).1
      rw [← htable] at hentry
      exact hentry
    · exact (h i).2 u hu _ slot ⟨π', rfl, hs⟩ hρ
  · intro h i
    have hroot : SlotAt w.mem root [i] ⟨root, i⟩ := ⟨[], rfl, rfl⟩
    refine ⟨h hroot h1, fun u hu ρ slot hslot hρ => ?_⟩
    obtain ⟨π, rfl, hs⟩ := hslot
    refine h (ρ := i :: (π ++ [slot.index])) ⟨i :: π, rfl, ?_⟩ hρ
    rw [resolve_cons, hu]
    exact hs

theorem EntriesBelow.of_agree (h : EntriesBelow Q M u w)
    (hmem : ∀ s ∈ nodes child w.mem {u} (M.LEVELS - 2), w'.mem s = w.mem s) :
    EntriesBelow Q M u w' := by
  rintro ρ slot ⟨π, rfl, hs⟩ hρ
  have hlen := hρ
  rw [List.length_append, List.length_singleton] at hlen
  rw [resolve_of_agree (n := M.LEVELS - 2) (Set.mem_singleton u) hmem (by omega)] at hs
  have hentry : w'.entry slot = w.entry slot :=
    congrFun (hmem slot.table ⟨u, rfl, π, by omega, hs⟩) slot.index
  rw [hentry]
  exact h _ slot ⟨π, rfl, hs⟩ hρ

/-- Each root entry is one of a page table whose tables are the same as before. -/
theorem RootEntries.of_roots (h : ∀ i, ∃ root, RootEntries Q M root w ∧
      w'.mem root' i = w.mem root i ∧ ∀ u, child (w.mem root i) = some u →
        ∀ s ∈ nodes child w.mem {u} (M.LEVELS - 2), w'.mem s = w.mem s) :
    RootEntries Q M root' w' := by
  intro i
  obtain ⟨root, hentries, hentry, hmem⟩ := h i
  obtain ⟨hroot, hbelow⟩ := hentries i
  rw [hentry]
  exact ⟨hroot, fun u hu => (hbelow u hu).of_agree (hmem u hu)⟩

/-- A call of a table, seen from another one: entries that are shared are entries of the table
that is called. -/
theorem Elsewhere.rootEntries {x y : PageTable64 B M PTE H} (h : Elsewhere M x y w w')
    (hx : RootEntries Q M x.rootPaddr w') (hy : RootEntries Q M y.rootPaddr w) :
    RootEntries Q M y.rootPaddr w' := by
  intro i
  obtain ⟨hroot, hbelow⟩ := hy i
  rw [h.root]
  refine ⟨hroot, fun u hu => ?_⟩
  by_cases hshared : Shared w x y i
  · obtain ⟨u', hux, huy⟩ := (h.shared i).mpr hshared
    obtain rfl : u' = u := by
      rw [h.root, hu] at huy
      exact (Option.some_inj.mp huy).symm
    exact (hx i).2 _ hux
  · exact (hbelow u hu).of_agree fun s hs => h.below hshared hu hs

end Roots

/-- Flags and pages of a call comply with a policy. -/
def System.Complies (pol : Policy) (s : System B M PTE H) : SystemCall → Prop
  | .call t c => c.FlagsIn pol.flags ∧ ∀ x ∈ s.tables t, c.Complies pol x.table s.world
  | _ => True

/-- The entries of the tables whose lenders exist are those of a policy. -/
def System.Policed (pol : Policy) (s : System B M PTE H) : Prop :=
  ∀ t x, s.tables t = some x → Healthy s.tables x →
    RootEntries (pol.Entry M) M x.table.rootPaddr s.world

section System

variable [LawfulPTE M PTE] {pol : Policy} {inUse : σ → Set PhysAddr} {s s₀ : System B M PTE H}
  {L : Ledger} {t : ℕ} {x y : Member B M PTE H}

/-- A table that a copy has been made into. -/
theorem LedgerInv.copy_policy (I : s.Ledgered inUse L) (hP : s.Policed pol) {src : ℕ}
    {start : VirtAddr} {size : Usize} (hne : t ≠ src) (hy : s.tables t = some y)
    (hhy : Healthy s.tables y) (hx : (s.exec (.copy t src start size)).tables t = some x)
    (hhx : Healthy (s.exec (.copy t src start size)).tables x) :
    RootEntries (pol.Entry M) M y.table.rootPaddr (s.exec (.copy t src start size)).world := by
  have hL := LawfulPTE.levels (M := M) PTE
  have hpy : RootEntries (pol.Entry M) M y.table.rootPaddr s.world := hP t y hy hhy
  cases hr : s.tables src with
  | none =>
    rw [System.exec, hy, hr]
    exact hpy
  | some r =>
    rw [System.exec_copy_world hy hr]
    obtain ⟨hsame, -⟩ | ⟨h0, w', heq, hmem⟩ := I.copyFrom_mem hne hy hr start size
    · exact .of_roots fun i => ⟨_, hpy, by rw [hsame], fun u hu s hs => by rw [hsame]⟩
    rw [heq]
    -- the tables below the roots are as they were
    have hbelow : ∀ {t' z i u}, s.tables t' = some z → Healthy s.tables z →
        child (s.world.mem z.table.rootPaddr i) = some u →
        ∀ v ∈ nodes child s.world.mem {u} (M.LEVELS - 2), w'.mem v = s.world.mem v := by
      intro t' z i u hz hhz hu v hv
      have hsub := (I.slot hz hhz hu).1
      have hne := I.ne_root hy (nodes_mono (Set.singleton_subset_iff.mpr hsub) le_rfl hv)
      rw [hmem]
      funext j
      rw [copiedMem, if_neg fun hc => hne hc.1.symm]
    refine .of_roots (w := s.world) fun i => ?_
    by_cases hi : RootRange M start size i
    · -- an entry of the source, which is a lender now
      have hlends : lends M start size = true := by
        rw [lends, decide_eq_true h0, Bool.true_and, decide_eq_true_eq]
        exact Fin.le_def.mp (hi.1.trans hi.2)
      have hhr : Healthy s.tables r := by
        intro z hz
        simp only [System.exec, hy, hr, heq, hlends, if_true] at hx hhx
        rw [Members.copied_dst, Option.some_inj] at hx
        subst hx
        exact (Members.copied_isSome_iff hy hr).mp
          (hhx z (List.mem_append_left _ (List.mem_cons_of_mem _ hz)))
      refine ⟨r.table.rootPaddr, hP src r hr hhr, ?_, fun u hu => hbelow hr hhr hu⟩
      rw [hmem, copiedMem, if_pos ⟨rfl, hi⟩]
    · refine ⟨y.table.rootPaddr, hpy, ?_, fun u hu => hbelow hy hhy hu⟩
      rw [hmem, copiedMem, if_neg fun hc => hi hc.2]

variable (hH : FreshFrames M H inUse)
include hH

/-- A table that has just been made. -/
theorem LedgerInv.new_policy (I : s.Ledgered inUse L) (ht : ¬t < s.next)
    (hx : (s.exec .new).tables t = some x) :
    RootEntries (pol.Entry M) M x.table.rootPaddr (s.exec .new).world := by
  have hL := LawfulPTE.levels (M := M) PTE
  rw [System.exec] at hx ⊢
  rcases heq : PageTable64.tryNew B M PTE H s.world with ⟨table | e | _, w⟩
  · simp only [heq] at hx ⊢
    obtain rfl : t = s.next := by
      by_contra hne
      rw [Function.update_of_ne hne] at hx
      exact ht (I.lt_next hx).1
    rw [Function.update_self, Option.some_inj] at hx
    subst hx
    have I' : Inv (fun _ => False) M inUse table.rootPaddr w := tryNew_inv hH table heq
    refine (rootEntries_iff (by omega)).mpr fun {ρ slot} hslot hρ => ?_
    exact (I'.entries hslot hρ).imp_right fun hleaf => Or.inl (hleaf.resolve_right fun hc => hc.1)
  · simp only [heq] at hx
    exact absurd (I.lt_next hx).1 ht
  · simp only [heq] at hx
    exact absurd (I.lt_next hx).1 ht

variable [FieldEncoded PTE] (hpol : ∀ f, pol.flags f → Readable f)
include hpol

/-- A method of one table. -/
theorem LedgerInv.call_policy (I : s.Ledgered inUse L) (hP : s.Policed pol) {t' : ℕ} {c : Call}
    (hc : s.Careful (.call t' c)) (hcomp : s.Complies pol (.call t' c))
    (hy : s.tables t = some y) (hhy : Healthy s.tables y) :
    RootEntries (pol.Entry M) M y.table.rootPaddr (s.exec (.call t' c)).world := by
  have hL := LawfulPTE.levels (M := M) PTE
  have hpy : RootEntries (pol.Entry M) M y.table.rootPaddr s.world := hP t y hy hhy
  rw [System.exec]
  cases hz : s.tables t' with
  | none => exact hpy
  | some z =>
    have hhz := hc.2 z hz
    have K : pol.Kept M inUse z.table.rootPaddr s.world :=
      ⟨I.tree hz hhz, (rootEntries_iff (by omega)).mp (hP t' z hz hhz)⟩
    have hown : RootEntries (pol.Entry M) M z.table.rootPaddr (c.next z.table s.world) :=
      (rootEntries_iff (by omega)).mpr
        (Call.policy hH hpol z.table K c hcomp.1 (hcomp.2 z hz)).entries
    by_cases htt : t' = t
    · subst htt
      obtain rfl : z = y := Option.some_inj.mp (hz.symm.trans hy)
      exact hown
    · exact (I.elsewhere hH htt hz hhz hy hhy c hc.1).rootEntries hown hpy

/-- Each call keeps the entries of all tables within the policy. -/
theorem LedgerInv.exec_policy (I : s.Ledgered inUse L) (hP : s.Policed pol) (c : SystemCall)
    (hc : s.Careful c) (hcomp : s.Complies pol c) : (s.exec c).Policed pol := by
  have hL := LawfulPTE.levels (M := M) PTE
  intro t x hx hhx
  by_cases ht : t < s.next
  · obtain ⟨y, hy, hhy, hroot⟩ := I.exec_before c ht hx hhx
    rw [hroot]
    have hpy : RootEntries (pol.Entry M) M y.table.rootPaddr s.world := hP t y hy hhy
    by_cases hcall : ∃ t' c', c = .call t' c'
    · obtain ⟨t', c', rfl⟩ := hcall
      exact I.call_policy hH hpol hP hc hcomp hy hhy
    have hno : ∀ t' c', c ≠ .call t' c' := fun t' c' heq => hcall ⟨t', c', heq⟩
    by_cases hactor : c.actor = some t
    · cases c with
      | new => exact absurd hactor (by simp [SystemCall.actor])
      | call t' c' => exact absurd rfl (hno t' c')
      | copy dst src start size =>
        obtain rfl : dst = t := Option.some_inj.mp hactor
        exact I.copy_policy hP hc.1 hy hhy hx hhx
      | drop t' =>
        -- the table is gone
        obtain rfl : t' = t := Option.some_inj.mp hactor
        simp only [System.exec, hy, Function.update_self] at hx
        exact absurd hx (by simp)
    · have hsame := fun p hp => I.exec_apart hH hy hhy hc hactor hno (p := p) hp
      refine .of_roots fun i => ⟨y.table.rootPaddr, hpy, ?_, fun u hu s hs => hsame s ?_⟩
      · rw [hsame _ (mem_nodes_root rfl)]
      · obtain ⟨v, rfl, π, hπ, hs⟩ := hs
        refine ⟨_, rfl, i :: π, ?_, ?_⟩
        · rw [List.length_cons]
          omega
        · rw [resolve_cons, hu]
          exact hs
  · obtain ⟨h, -⟩ | ⟨z, rfl, -, -⟩ | ⟨t', -, h, -⟩ | ⟨dst, src, -, -, d, r, table, -, hd, hr, -,
      h, -⟩ := s.exec_tables c
    · rw [h] at hx
      exact absurd (I.lt_next hx).1 ht
    · exact I.new_policy hH ht hx
    · rw [h] at hx
      exact absurd (I.lt_next (Members.of_gone hx).2).1 ht
    · rw [h] at hx
      obtain ⟨y, hy⟩ := Option.isSome_iff_exists.mp
        ((Members.copied_isSome_iff hd hr).mp (Option.isSome_of_eq_some hx))
      exact absurd (I.lt_next hy).1 ht

/-- The entries stay within the policy in every careful run that complies with it. -/
theorem System.Run.policy (h₀ : s₀.Blank)
    (h : s₀.Run (fun s c => s.Careful c ∧ s.Complies pol c) s) :
    ∃ L, s.Ledgered inUse L ∧ s.Policed pol := by
  induction h with
  | start =>
    refine ⟨_, h₀.ledger.1, fun t x hx => ?_⟩
    rw [h₀.1 t] at hx
    exact absurd hx (by simp)
  | step _ c hc ih =>
    obtain ⟨L, I, hP⟩ := ih
    obtain ⟨L', I', -⟩ := I.exec hH c hc.1
    exact ⟨L', I', I.exec_policy hH hpol hP c hc.1 hc.2⟩

end System

end PageTableMultiarch
