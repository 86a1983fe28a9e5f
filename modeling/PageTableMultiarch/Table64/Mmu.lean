/-
The address translation of the processor.

`Arch.access` walks the tables as the processor does: it starts at the root and decodes one
entry of each table on the path of the address.

* `Arch.path_eq_vpath` — the processor takes the same indices as the page table;
* `Policy.Met` — the entries that a walk meets under a policy;
* `readsAlong`, `lookup_eq_leaf` — the processor reads them as the methods of a page table do;
* `Arch.mmu_translates` — the processor translates an address as `query` does, with the rights
  that the flags tell;
* `Arch.mmu_confined` — so it reaches only pages that were mapped, with rights that were given.
-/
import PageTableMultiarch.Entry.Hardware
import PageTableMultiarch.Table64.Policy
import PageTableMultiarch.Table64.Flush

namespace PageTableMultiarch

open GenericPTE Radix PageWalk

/-- The offset of an address in its page of a height. -/
def blockOffset (k : ℕ) (v : VirtAddr) : BitVec 64 := BitVec.ofNat 64 (v.toNat % 2 ^ (12 + 9 * k))

theorem alignOffset_heightSize {k : ℕ} (hk : k ≤ 2) (v : VirtAddr) :
    (heightSize k).alignOffset v = blockOffset k v := by
  apply BitVec.eq_of_toNat_eq
  have := (Nat.mod_le v.toNat (2 ^ (12 + 9 * k))).trans_lt v.isLt
  rw [PageSize.toNat_alignOffset (by decide), bytes_heightSize hk, blockOffset,
    BitVec.toNat_ofNat, Nat.mod_eq_of_lt this]

/-! ### The path of an address -/

/-- The index of `width` bits of an address from bit `base` on. -/
def walkIndex (v : VirtAddr) (base width : ℕ) : Fin ENTRY_COUNT :=
  ⟨v.toNat / 2 ^ base % 2 ^ width % ENTRY_COUNT, Nat.mod_lt _ (by decide)⟩

/-- The page walk controllers of LoongArch64 for the lower and the higher half of the address. -/
def LA64MetaData.PWCL_VALUE : BitVec 32 :=
  12 ||| (9 <<< 5) ||| (21 <<< 10) ||| (9 <<< 15) ||| (30 <<< 20) ||| (9 <<< 25)

def LA64MetaData.PWCH_VALUE : BitVec 32 := 39 ||| (9 <<< 6)

/-- Where the indices of an address are, from the root on, with their widths: three levels of
`PWCL` and two of `PWCH`. -/
def LA64MetaData.walkLevels : List (ℕ × ℕ) :=
  [((PWCH_VALUE.extractLsb' 12 6).toNat, (PWCH_VALUE.extractLsb' 18 6).toNat),
    ((PWCH_VALUE.extractLsb' 0 6).toNat, (PWCH_VALUE.extractLsb' 6 6).toNat),
    ((PWCL_VALUE.extractLsb' 20 5).toNat, (PWCL_VALUE.extractLsb' 25 5).toNat),
    ((PWCL_VALUE.extractLsb' 10 5).toNat, (PWCL_VALUE.extractLsb' 15 5).toNat),
    ((PWCL_VALUE.extractLsb' 0 5).toNat, (PWCL_VALUE.extractLsb' 5 5).toNat)]

/-- The indices that the processor takes; a level of LoongArch64 without width is left out. -/
def Arch.path (arch : Arch) (v : VirtAddr) : List (Fin ENTRY_COUNT) :=
  let levels := match arch with
    | .sv39 _ => [(30, 9), (21, 9), (12, 9)]
    | .x64 | .a64 _ | .sv48 _ => [(39, 9), (30, 9), (21, 9), (12, 9)]
    | .la64 => LA64MetaData.walkLevels.filter fun level => level.2 ≠ 0
  levels.map fun level => walkIndex v level.1 level.2

theorem walkIndex_eq (v : VirtAddr) (k : ℕ) : walkIndex v k 9 = tableIndex k v := by
  apply Fin.ext
  rw [val_tableIndex]
  exact Nat.mod_mod _ _

/-- They are those of the page table. -/
theorem Arch.path_eq_vpath (arch : Arch) (v : VirtAddr) : arch.path v = vpath arch.metaData v := by
  have hlevels : LA64MetaData.walkLevels.filter (fun level => level.2 ≠ 0) =
      [(39, 9), (30, 9), (21, 9), (12, 9)] := by
    decide
  cases arch with
  | sv39 xuantie => simp only [path, List.map_cons, List.map_nil, walkIndex_eq]; rfl
  | la64 => simp only [path, hlevels, List.map_cons, List.map_nil, walkIndex_eq]; rfl
  | _ => simp only [path, List.map_cons, List.map_nil, walkIndex_eq]; rfl

/-- The address and the rights that the processor finds for an address. -/
def Arch.access (arch : Arch) (m : PhysAddr → Fin ENTRY_COUNT → arch.PTE) (root : PhysAddr)
    (v : VirtAddr) : Option (PhysAddr × Rights) :=
  (translate arch.decode m ⊤ root (arch.path v)).map fun found =>
    (found.1 + blockOffset found.2.2 v, found.2.1)

/-! ### The entries on a path -/

/-- The table that an entry points to; at the last level there is none. -/
def childAt {PTE : Type} [GenericPTE 64 PTE] (k : ℕ) (e : PTE) : Option PhysAddr :=
  if k = 0 then none else child e

/-- The page that an entry maps, with the rights that its flags tell. -/
def Arch.pageOf (arch : Arch) (_ : ℕ) (e : arch.PTE) : Option (PhysAddr × Rights) :=
  if isPresent e then some (paddr e, arch.permits (flags e)) else none

/-- An entry of a height that a walk may meet. -/
def Policy.Met {PTE : Type} [GenericPTE 64 PTE] (pol : Policy) (M : PagingMetaData) (k : ℕ)
    (e : PTE) : Prop :=
  (0 < k ∧ ∃ p, ValidFrame M p ∧ e = newTable p) ∨ e = empty ∨ k ≤ 2 ∧ pol.Made k e

section Path

variable {arch : Arch} {pol : Policy} {m : PhysAddr → Fin ENTRY_COUNT → arch.PTE}
  {t : PhysAddr} {π : List (Fin ENTRY_COUNT)} {k : ℕ} {e : arch.PTE}

/-- What is met, with what is known of it: a table, an unused entry, or a page. -/
theorem met_cases (hpol : ∀ f, pol.flags f → Readable f) (h : pol.Met arch.metaData k e) :
    (0 < k ∧ ∃ p, childAt k e = some p ∧ arch.decode k e = .table p ⊤) ∨
      (childAt k e = none ∧ isPresent e = false ∧
        (arch ≠ .la64 ∨ k = 0 → arch.decode k e = .fault)) ∨
      (childAt k e = none ∧ isPresent e = true ∧ (k = 0 ∨ k ≤ 2 ∧ isHuge e = true) ∧
        arch.decode k e = .page (paddr e) (arch.permits (flags e))) := by
  obtain ⟨hk, p, hp, rfl⟩ | rfl | ⟨hk, p, f, -, hf, haligned, rfl⟩ := h
  · refine Or.inl ⟨hk, p, ?_, ?_⟩
    · rw [childAt, if_neg hk.ne']
      exact child_newTable hp
    · rw [Arch.decode_newTable arch hk, LawfulPTE.paddr_newTable hp]
  · refine Or.inr (Or.inl ⟨?_, LawfulPTE.isPresent_empty arch.metaData, Arch.decode_empty arch⟩)
    rw [childAt]
    split
    · rfl
    · exact child_empty arch.metaData
  · have hread := hpol f hf
    have hhuge : 0 < k → isHuge (newPage p f (decide (0 < k)) : arch.PTE) = true := by
      intro h0
      rw [decide_eq_true h0]
      exact LawfulPTE.isHuge_newPage arch.metaData p
        (LawfulPTE.read_accepted arch.metaData hread)
    refine Or.inr (Or.inr ⟨?_, ?_, ?_, Arch.decode_newPage arch hk haligned hread⟩)
    · rw [childAt]
      split
      · rfl
      · exact child_of_isHuge (hhuge (by omega))
    · rw [LawfulPTE.isPresent_newPage arch.metaData]
      exact LawfulPTE.presentWith_read arch.metaData hread
    · rcases Nat.eq_zero_or_pos k with h0 | h0
      · exact Or.inl h0
      · exact Or.inr ⟨hk, hhuge h0⟩

/-- The entries along a path are such entries. -/
def Policy.MetAlong (pol : Policy) (arch : Arch) (m : PhysAddr → Fin ENTRY_COUNT → arch.PTE) :
    PhysAddr → List (Fin ENTRY_COUNT) → Prop
  | _, [] => True
  | t, i :: π => pol.Met arch.metaData π.length (m t i) ∧
    ∀ u, childAt π.length (m t i) = some u → MetAlong pol arch m u π

theorem childAt_eq_some {u : PhysAddr} (h : childAt k e = some u) : 0 < k ∧ child e = some u := by
  rw [childAt] at h
  split at h
  · exact absurd h (by simp)
  · exact ⟨by omega, h⟩

/-- A leaf is found behind a table, or is the first entry. -/
theorem leaf_cons_of_childAt {i : Fin ENTRY_COUNT} {u : PhysAddr}
    (h : childAt π.length (m t i) = some u) : leaf m t (i :: π) = leaf m u π := by
  obtain ⟨hpos, hchild⟩ := childAt_eq_some h
  rw [leaf, leaf, seek_cons_of_child (List.ne_nil_of_length_pos hpos) hchild]

theorem leaf_cons_of_none {i : Fin ENTRY_COUNT} (h : childAt π.length (m t i) = none) :
    leaf m t (i :: π) = if isPresent (m t i) = true ∧
        (π = [] ∨ π.length ≤ 2 ∧ isHuge (m t i) = true)
      then some (m t i, π.length) else none := by
  have hslot : SlotAt m t [i] ⟨t, i⟩ := ⟨[], rfl, rfl⟩
  refine hslot.leaf_append ?_
  rw [childAt] at h
  split at h
  · exact Or.inl (List.eq_nil_of_length_eq_zero ‹_›)
  · exact Or.inr h

/-- The walk in the tree finds the leaf. -/
theorem lookup_eq_leaf (hpol : ∀ f, pol.flags f → Readable f) (h : pol.MetAlong arch m t π) :
    lookup childAt arch.pageOf m t π = (leaf m t π).map fun found =>
      (paddr found.1, arch.permits (flags found.1), found.2) := by
  induction π generalizing t with
  | nil => rfl
  | cons i π ih =>
    obtain ⟨hmet, hbelow⟩ := h
    rw [lookup]
    obtain ⟨-, u, hchild, -⟩ | ⟨hchild, hpresent, -⟩ | ⟨hchild, hpresent, hheight, -⟩ :=
      met_cases hpol hmet
    · rw [hchild, leaf_cons_of_childAt hchild]
      exact ih (hbelow u hchild)
    · rw [hchild, leaf_cons_of_none hchild, Arch.pageOf, hpresent]
      simp
    · rw [List.length_eq_zero_iff] at hheight
      rw [hchild, leaf_cons_of_none hchild, if_pos ⟨hpresent, hheight⟩, Arch.pageOf,
        if_pos hpresent]
      rfl

/-- The processor reads the entries as the methods do; on LoongArch64 as far as the address is
mapped. -/
theorem readsAlong (hpol : ∀ f, pol.flags f → Readable f) (h : pol.MetAlong arch m t π)
    (hmapped : arch ≠ .la64 ∨ leaf m t π ≠ none) :
    ReadsAlong arch.decode childAt arch.pageOf m t π := by
  induction π generalizing t with
  | nil => trivial
  | cons i π ih =>
    obtain ⟨hmet, hbelow⟩ := h
    obtain ⟨-, u, hchild, hdecode⟩ | ⟨hchild, hpresent, hdecode⟩ |
      ⟨hchild, hpresent, -, hdecode⟩ := met_cases hpol hmet
    · refine ⟨hdecode.trans (expected_of_child hchild).symm, fun u' hu' => ?_⟩
      obtain rfl : u' = u := Option.some_inj.mp (hu'.symm.trans hchild)
      rw [leaf_cons_of_childAt hchild] at hmapped
      exact ih (hbelow u' hchild) hmapped
    · refine ⟨?_, fun u hu => absurd (hu.symm.trans hchild) (by simp)⟩
      rw [expected_of_none hchild (by rw [Arch.pageOf, hpresent]; rfl)]
      refine hdecode (hmapped.imp_right fun hleaf => ?_)
      -- an unused entry maps nothing
      rw [leaf_cons_of_none hchild, hpresent] at hleaf
      simp at hleaf
    · refine ⟨?_, fun u hu => absurd (hu.symm.trans hchild) (by simp)⟩
      rw [expected_of_page hchild (by rw [Arch.pageOf, hpresent]; rfl)]
      exact hdecode

/-- The walk of the processor finds the leaf. -/
theorem translate_eq_leaf (hpol : ∀ f, pol.flags f → Readable f) (h : pol.MetAlong arch m t π)
    (hmapped : arch ≠ .la64 ∨ leaf m t π ≠ none) :
    translate arch.decode m ⊤ t π = (leaf m t π).map fun found =>
      (paddr found.1, arch.permits (flags found.1), found.2) := by
  rw [translate_eq_lookup ⊤ (readsAlong hpol h hmapped), lookup_eq_leaf hpol h, Option.map_map]
  refine Option.map_congr fun found _ => ?_
  simp only [Function.comp_apply, top_inf_eq]

/-- What is met along the path of an address, in a table with entries of the policy. -/
theorem Policy.metAlong {σ : Type} {w : World arch.PTE σ} {root : PhysAddr}
    (h : Entries (pol.Entry arch.metaData) arch.metaData root w) (v : VirtAddr) :
    pol.MetAlong arch w.mem root (vpath arch.metaData v) := by
  have hL := LawfulPTE.levels (M := arch.metaData) arch.PTE
  -- the same below any table on the path
  suffices hbelow : ∀ ρ π t, vpath arch.metaData v = ρ ++ π →
      resolve child w.mem root ρ = some t → pol.MetAlong arch w.mem t π from
    hbelow [] _ root rfl rfl
  intro ρ π
  induction π generalizing ρ with
  | nil => exact fun _ _ _ => trivial
  | cons i π ih =>
    intro t hsplit hres
    have hlen := congrArg List.length hsplit
    rw [length_vpath hL, List.length_append, List.length_cons] at hlen
    have hslot : SlotAt w.mem root (ρ ++ [i]) ⟨t, i⟩ := ⟨ρ, rfl, hres⟩
    have hentry := h hslot (by rw [List.length_append, List.length_singleton]; omega)
    rw [List.length_append, List.length_singleton] at hentry
    refine ⟨?_, fun u hu => ih (ρ ++ [i]) u ?_ ?_⟩
    · obtain ⟨hlt, p, hp, hnew⟩ | hempty | ⟨k, hk, hsum, hmade⟩ := hentry
      · exact Or.inl ⟨by omega, p, hp, hnew⟩
      · exact Or.inr (Or.inl hempty)
      · obtain rfl : k = π.length := by omega
        exact Or.inr (Or.inr ⟨hk, hmade⟩)
    · rw [hsplit, List.append_assoc, List.singleton_append]
    · rw [resolve_append, hres]
      simp only [Option.bind_some, resolve_cons, (childAt_eq_some hu).2, resolve_nil]

end Path

/-! ### The results -/

section Results

variable {B : Build} {σ : Type} (arch : Arch) {H : PagingHandler 64 σ} {inUse : σ → Set PhysAddr}
  (hH : FreshFrames arch.metaData H inUse) {pol : Policy}
  (hpol : ∀ f, pol.flags f → Readable f) {s₀ s : System B arch.metaData arch.PTE H}
  (h₀ : s₀.Blank) (h : s₀.Run (fun s c => s.Careful c ∧ s.Complies pol c) s) {t : ℕ}
  {x : Member B arch.metaData arch.PTE H} (hx : s.tables t = some x)
  (hhx : Healthy s.tables x)
include hH hpol h₀ h hx hhx

/-- In every state of such a run, the walk of the processor finds the leaf of the address. -/
theorem Arch.access_eq_leaf (v : VirtAddr) (hmapped : arch ≠ .la64 ∨
      leafAt arch.metaData s.world.mem x.table.rootPaddr v ≠ none) :
    arch.access s.world.mem x.table.rootPaddr v =
      (leafAt arch.metaData s.world.mem x.table.rootPaddr v).map fun found =>
        (paddr found.1 + blockOffset found.2 v, arch.permits (flags found.1)) := by
  have hL := LawfulPTE.levels (M := arch.metaData) arch.PTE
  obtain ⟨L, -, hP⟩ := h.policy hH hpol h₀
  have hmet := Policy.metAlong ((rootEntries_iff (by omega)).mp (hP t x hx hhx)) v
  rw [Arch.access, arch.path_eq_vpath, translate_eq_leaf hpol hmet hmapped, Option.map_map]
  rfl

/-- In every state of a careful run that complies with a policy of readable flags, and for
every table whose lenders exist: the processor translates an address as `query` does, with the
rights that the flags tell, and faults where `query` fails; on LoongArch64, where an unused
entry of a directory is taken for a table at address zero, only the former. -/
theorem Arch.mmu_translates (v : VirtAddr) :
    (∀ p g size, (x.table.query v s.world).1 = .ok (p, g, size) →
      arch.access s.world.mem x.table.rootPaddr v = some (p, arch.permits g)) ∧
    ∀ err, arch ≠ .la64 → (x.table.query v s.world).1 = .err err →
      arch.access s.world.mem x.table.rootPaddr v = none := by
  have hL := LawfulPTE.levels (M := arch.metaData) arch.PTE
  rw [query_eq_leafAt hL]
  cases hleaf : leafAt arch.metaData s.world.mem x.table.rootPaddr v with
  | none =>
    refine ⟨fun p g size hq => absurd hq (by simp), fun err hne _ => ?_⟩
    rw [arch.access_eq_leaf hH hpol h₀ h hx hhx v (Or.inl hne), hleaf]
    rfl
  | some found =>
    refine ⟨fun p g size hq => ?_, fun err _ hq => absurd hq (by simp)⟩
    simp only [Res.ok.injEq, Prod.mk.injEq] at hq
    obtain ⟨rfl, rfl, -⟩ := hq
    rw [arch.access_eq_leaf hH hpol h₀ h hx hhx v (Or.inr (by simp [hleaf])), hleaf,
      alignOffset_heightSize (leafAt_height_le hleaf)]
    rfl

end Results

/-- The second table, which has a root entry of the first one. -/
theorem Arch.mmu_translates_run : ∃ y, (lendingStart.execAll sharingCalls).tables 1 = some y ∧
    (∀ p g size,
      (y.table.query 0x123 (lendingStart.execAll sharingCalls).world).1 = .ok (p, g, size) →
      Arch.x64.access (lendingStart.execAll sharingCalls).world.mem y.table.rootPaddr 0x123 =
        some (p, Arch.x64.permits g)) ∧
    ∀ err, Arch.x64 ≠ .la64 →
      (y.table.query 0x123 (lendingStart.execAll sharingCalls).world).1 = .err err →
      Arch.x64.access (lendingStart.execAll sharingCalls).world.mem y.table.rootPaddr 0x123 =
        none := by
  obtain ⟨hcareful, h1, hhealthy⟩ : lendingStart.EachCall System.Careful sharingCalls ∧
      ((lendingStart.execAll sharingCalls).tables 1).isSome = true ∧
      ∀ y ∈ (lendingStart.execAll sharingCalls).tables 1,
        Healthy (lendingStart.execAll sharingCalls).tables y := by
    decide +kernel
  have hcomplies : lendingStart.EachCall (System.Complies .readable) sharingCalls :=
    ⟨trivial, ⟨rfl, fun _ _ => ⟨by decide, trivial⟩⟩, trivial, trivial, trivial⟩
  obtain ⟨y, hy⟩ := Option.isSome_iff_exists.mp h1
  exact ⟨y, hy, Arch.mmu_translates .x64 (freshFrames_queueHandler (by decide)) (fun _ hf => hf)
    lendingStart_blank (.execAll .start (hcareful.and hcomplies)) hy (hhealthy y hy) 0x123⟩

/-- In every state of a careful run that complies with a policy of readable flags and of pages
up to the largest address, for every table whose lenders exist, but on LoongArch64: what the
processor reaches through the table lies in a page that the policy allows, and is permitted with
flags that the policy allows. -/
theorem Arch.mmu_confined {B : Build} {σ : Type} (arch : Arch) {H : PagingHandler 64 σ}
    {inUse : σ → Set PhysAddr} (hH : FreshFrames arch.metaData H inUse) {pol : Policy}
    (hpol : ∀ f, pol.flags f → Readable f) {s₀ s : System B arch.metaData arch.PTE H}
    (h₀ : s₀.Blank) (h : s₀.Run (fun s c => s.Careful c ∧ s.Complies pol c) s) {t : ℕ}
    {x : Member B arch.metaData arch.PTE H} (hx : s.tables t = some x)
    (hhx : Healthy s.tables x) (hne : arch ≠ .la64)
    (hpage : ∀ k p, pol.page k p → p.toNat ≤ arch.metaData.PA_MAX_ADDR) {v : VirtAddr}
    {p : PhysAddr} {r : Rights}
    (ha : arch.access s.world.mem x.table.rootPaddr v = some (p, r)) :
    ∃ k q f, k ≤ 2 ∧ pol.page k q ∧ pol.flags f ∧ p = q + blockOffset k v ∧
      q.toNat % 2 ^ (12 + 9 * k) = 0 ∧ ∀ a, r a = true → f.permits arch.apart a = true := by
  have hL := LawfulPTE.levels (M := arch.metaData) arch.PTE
  rw [arch.access_eq_leaf hH hpol h₀ h hx hhx v (Or.inl hne), Option.map_eq_some_iff] at ha
  obtain ⟨⟨e, k⟩, hleaf, ha⟩ := ha
  obtain ⟨slot, hs, rfl, hpresent⟩ := leaf_eq_some hleaf
  obtain ⟨L, -, hP⟩ := h.policy hH hpol h₀
  obtain hempty | ⟨q, f, hq, hf, haligned, hmade⟩ :=
    Policy.found ((rootEntries_iff (by omega)).mp (hP t x hx hhx)) hs
  · rw [World.entry] at hempty
    rw [hempty, LawfulPTE.isPresent_empty arch.metaData] at hpresent
    exact absurd hpresent Bool.false_ne_true
  rw [World.entry] at hmade
  rw [hmade, Prod.mk.injEq] at ha
  obtain ⟨rfl, rfl⟩ := ha
  refine ⟨k, q, f, leafAt_height_le hleaf, hq, hf, ?_, haligned, fun a hpermits => ?_⟩
  · -- the page is aligned, so the entry keeps its address
    rw [LawfulPTE.paddr_newPage f _ (hpage k q hq)]
    congr 1
    apply BitVec.eq_of_toNat_eq
    rw [PageSize.toNat_alignDown (by decide)]
    have hdvd : 0x1000 ∣ 2 ^ (12 + 9 * k) := ⟨2 ^ (9 * k), by rw [Nat.pow_add]⟩
    have := Nat.mod_eq_zero_of_dvd (hdvd.trans (Nat.dvd_of_mod_eq_zero haligned))
    simp only [PageSize.bytes]
    omega
  · rw [LawfulPTE.flags_newPage arch.metaData] at hpermits
    exact arch.permits_normalise (hpol f hf) hpermits

/-- One page may be mapped, to be read. -/
def onePage : Policy := ⟨fun k p => k = 0 ∧ p = 0x7000, fun f => f = .READ⟩

theorem Arch.mmu_confined_run : ∃ y p r,
    (lendingStart.execAll sharingCalls).tables 1 = some y ∧
    Arch.x64.access (lendingStart.execAll sharingCalls).world.mem y.table.rootPaddr 0x123 =
      some (p, r) ∧
    ∃ k q f, k ≤ 2 ∧ onePage.page k q ∧ onePage.flags f ∧ p = q + blockOffset k 0x123 ∧
      q.toNat % 2 ^ (12 + 9 * k) = 0 ∧
      ∀ a, r a = true → f.permits Arch.x64.apart a = true := by
  obtain ⟨hcareful, h1, hall⟩ : lendingStart.EachCall System.Careful sharingCalls ∧
      ((lendingStart.execAll sharingCalls).tables 1).isSome = true ∧
      ∀ y ∈ (lendingStart.execAll sharingCalls).tables 1,
        Healthy (lendingStart.execAll sharingCalls).tables y ∧
        (Arch.x64.access (lendingStart.execAll sharingCalls).world.mem y.table.rootPaddr
          0x123).isSome = true := by
    decide +kernel
  have hcomplies : lendingStart.EachCall (System.Complies onePage) sharingCalls :=
    ⟨trivial, ⟨rfl, fun _ _ => ⟨by decide, rfl, by decide⟩⟩, trivial, trivial, trivial⟩
  have hread : ∀ f, onePage.flags f → Readable f := by
    rintro f rfl
    decide
  have hpage : ∀ k p, onePage.page k p → p.toNat ≤ X64PagingMetaData.PA_MAX_ADDR := by
    rintro k p ⟨-, rfl⟩
    decide
  obtain ⟨y, hy⟩ := Option.isSome_iff_exists.mp h1
  obtain ⟨hhy, haccess⟩ := hall y hy
  obtain ⟨⟨p, r⟩, ha⟩ := Option.isSome_iff_exists.mp haccess
  exact ⟨y, p, r, hy, ha, Arch.mmu_confined .x64 (freshFrames_queueHandler (by decide)) hread
    lendingStart_blank (.execAll .start (hcareful.and hcomplies)) hy hhy (by decide) hpage ha⟩

end PageTableMultiarch
