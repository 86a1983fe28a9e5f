/-
What `unmap_region` and `protect_region` do outside their region.

Both loops clear or rewrite the entry of a block before they assert that the block is
aligned and fits in the rest of the region.  So they change nothing outside the region
exactly when no block that sticks out of it is reached and changed.

* `Written` — walks and entries in a memory in which only some entries have been written;
* `DoneUpTo` — the loops after `x` bytes, when all blocks so far lie in the region;
* `DoneUpTo.advance` — a block inside the region starts where the one before ends, and fits;
* `unmapRegion_frame_iff`, `protectRegion_frame_iff` — the exact conditions;
* `Arch.regionCalls_stay_inside_iff` — both for every architecture and every run that keeps
  the leaves.
-/
import PageTableMultiarch.Table64.HugeLeaves
import PageTableMultiarch.Table64.UnmapRegion

namespace PageTableMultiarch

open GenericPTE Radix Cyclic

variable {B : Build} {M : PagingMetaData} {PTE σ : Type} {H : PagingHandler 64 σ}
  [GenericPTE 64 PTE]

/-! ### Blocks -/

/-- The size of the block at which the walk of an address stops: that of the page it finds,
and 4K where it finds none. -/
def blockSize (self : PageTable64 B M PTE H) (w : World PTE σ) (u : VirtAddr) : PageSize :=
  match (self.getEntry u w).1 with
  | .ok (_, size) => size
  | _ => .size4K

/-- The block at which the walk of `u` stops lies in the region of `n` bytes from `v`. -/
def BlockInside (self : PageTable64 B M PTE H) (w : World PTE σ) (v : VirtAddr) (n : ℕ)
    (u : VirtAddr) : Prop :=
  ∀ u' : VirtAddr, u'.toNat % M.space / (blockSize self w u).bytes =
    u.toNat % M.space / (blockSize self w u).bytes → InRegion M v n u'

/-- No page that sticks out of the region is reached by `unmap_region`: those before it, and
it, are mapped, and no address before it is past the end of the address range. -/
def UnmapStaysInside (self : PageTable64 B M PTE H) (w : World PTE σ) (v : VirtAddr) (n : ℕ) :
    Prop :=
  ∀ x < n, (B.overflowChecks = true → v.toNat + x < 2 ^ 64) →
    (∀ y ≤ x, Mapped self w (v + BitVec.ofNat 64 y)) →
      BlockInside self w v n (v + BitVec.ofNat 64 x)

/-- The page of the address, if there is one, has these flags, and setting them leaves it a
page that is present. -/
def FlagsAlready (self : PageTable64 B M PTE H) (w : World PTE σ) (f : MappingFlags 64)
    (u : VirtAddr) : Prop :=
  ∀ p g s, (self.query u w).1 = .ok (p, g, s) →
    g = normalise PTE f ∧ presentWith PTE f = true ∧ (s = .size4K ∨ debugAssert PTE f = true)

/-- The first block that sticks out of the region, if `protect_region` reaches it and it is
mapped, has the new flags already. -/
def ProtectStaysInside (self : PageTable64 B M PTE H) (w : World PTE σ) (v : VirtAddr) (n : ℕ)
    (f : MappingFlags 64) : Prop :=
  ∀ x < n, (B.overflowChecks = true → v.toNat + x < 2 ^ 64) → flagsPass B PTE f = true →
    (∀ y < x, BlockInside self w v n (v + BitVec.ofNat 64 y)) →
    ¬ BlockInside self w v n (v + BitVec.ofNat 64 x) →
    FlagsAlready self w f (v + BitVec.ofNat 64 x)

/-- The height of the entry at which the walk of an address stops. -/
def blockHeight (M : PagingMetaData) (m : PhysAddr → Fin ENTRY_COUNT → PTE) (root : PhysAddr)
    (u : VirtAddr) : ℕ :=
  match seek m root (vpath M u) with
  | .ok (_, k) => k
  | .error _ => 0

section Blocks

variable {m m' : PhysAddr → Fin ENTRY_COUNT → PTE} {root : PhysAddr} {u u' : VirtAddr}
  {slot : Slot} {k : ℕ}

theorem blockHeight_of_seek (h : seek m root (vpath M u) = .ok (slot, k)) :
    blockHeight M m root u = k := by
  rw [blockHeight, h]

theorem blockHeight_of_error {e : PagingError} (h : seek m root (vpath M u) = .error e) :
    blockHeight M m root u = 0 := by
  rw [blockHeight, h]

theorem blockHeight_le (hL : M.LEVELS = 3 ∨ M.LEVELS = 4) : blockHeight M m root u ≤ 2 := by
  cases h : seek m root (vpath M u) with
  | error e =>
    rw [blockHeight_of_error h]
    exact Nat.zero_le 2
  | ok found =>
    rw [blockHeight_of_seek h]
    exact (slotAt_of_seek hL h).2.1

/-- The addresses of a block have the same block. -/
theorem blockHeight_samePage (hL : M.LEVELS = 3 ∨ M.LEVELS = 4)
    (h : SamePage M (blockHeight M m root u) u u') :
    blockHeight M m root u' = blockHeight M m root u := by
  cases hs : seek m root (vpath M u) with
  | error e =>
    rw [blockHeight_of_error hs] at h ⊢
    rw [h.vpath_eq hL] at hs
    exact blockHeight_of_error hs
  | ok found =>
    rw [blockHeight_of_seek hs] at h ⊢
    exact blockHeight_of_seek (seek_samePage hL hs h)

theorem blockSize_eq (hL : M.LEVELS = 3 ∨ M.LEVELS = 4) (self : PageTable64 B M PTE H)
    (w : World PTE σ) (u : VirtAddr) :
    blockSize self w u = heightSize (blockHeight M w.mem self.rootPaddr u) := by
  obtain ⟨acc, -, heq⟩ := getEntry_apply hL self u w
  rw [blockSize, heq, blockHeight]
  cases seek w.mem self.rootPaddr (vpath M u) with
  | error e => rfl
  | ok found => rfl

theorem blockInside_iff (hL : M.LEVELS = 3 ∨ M.LEVELS = 4) (self : PageTable64 B M PTE H)
    (w : World PTE σ) {v : VirtAddr} {n : ℕ} : BlockInside self w v n u ↔
      ∀ u', SamePage M (blockHeight M w.mem self.rootPaddr u) u u' → InRegion M v n u' := by
  have hk : blockHeight M w.mem self.rootPaddr u ≤ 2 := blockHeight_le hL
  rw [BlockInside, blockSize_eq hL, bytes_heightSize hk]
  refine forall_congr' fun u' => imp_congr_left ?_
  rw [samePage_iff hL hk, eq_comm]

end Blocks

/-! ### Memory in which some entries have been written -/

/-- The memory is as before except at some entries. -/
def Written (S : Slot → Prop) (m m' : PhysAddr → Fin ENTRY_COUNT → PTE) : Prop :=
  ∀ slot : Slot, m' slot.table slot.index ≠ m slot.table slot.index → S slot

section Written

variable {S : Slot → Prop} {m m' : PhysAddr → Fin ENTRY_COUNT → PTE} {root : PhysAddr} {n : ℕ}
  {π : List (Fin ENTRY_COUNT)} (F : Forest child m {root} n) (hw : Written S m m')
  (hπ : π.length ≤ n + 1)
  (hS : ∀ slot, S slot → ∃ ρ, SlotAt m root ρ slot ∧ ρ.length ≤ n + 1 ∧ ¬ ρ <+: π)
include F hw hπ hS

/-- The entries on a path that no written entry lies on are as before. -/
theorem Written.entry_eq {ρ : List (Fin ENTRY_COUNT)} {i : Fin ENTRY_COUNT} {s : PhysAddr}
    (hpre : ρ ++ [i] <+: π) (hs : resolve child m root ρ = some s) : m' s i = m s i := by
  by_contra hne
  obtain ⟨ρ', hρ', hlen, hno⟩ := hS ⟨s, i⟩ (hw ⟨s, i⟩ hne)
  rw [hρ'.path_unique F ⟨ρ, rfl, hs⟩ hlen (hpre.length_le.trans hπ)] at hno
  exact hno hpre

theorem Written.resolve_eq : resolve child m' root π = resolve child m root π :=
  resolve_congr fun _ _ hpre _ hs => by rw [Written.entry_eq F hw hπ hS hpre hs]

theorem Written.seek_eq : seek m' root π = seek m root π :=
  seek_congr fun _ _ τ _ hsplit _ hs =>
    Written.entry_eq F hw hπ hS ⟨τ, by rw [hsplit]; simp⟩ hs

theorem Written.found_eq {slot : Slot} {k : ℕ} (h : seek m root π = .ok (slot, k)) :
    m' slot.table slot.index = m slot.table slot.index := by
  obtain ⟨ρ, τ, hsplit, hs, -, -⟩ := seek_eq_ok h
  exact Written.entry_eq F hw hπ hS ⟨τ, by rw [hsplit]; simp⟩ hs

end Written

/-! ### The answers of `query` -/

theorem heightSize_injective {j k : ℕ} (hj : j ≤ 2) (hk : k ≤ 2) (h : heightSize j = heightSize k) :
    j = k := by
  obtain rfl | rfl | rfl : j = 0 ∨ j = 1 ∨ j = 2 := by omega
  all_goals
    obtain rfl | rfl | rfl : k = 0 ∨ k = 1 ∨ k = 2 := by omega
    all_goals first | rfl | exact absurd h (by decide)

section Query

variable (hL : M.LEVELS = 3 ∨ M.LEVELS = 4) (self : PageTable64 B M PTE H) {w w' : World PTE σ}
  {u : VirtAddr} {slot : Slot} {k : ℕ}
include hL

/-- The answer depends on the walk and on the entry found only. -/
theorem query_congr
    (hseek : seek w'.mem self.rootPaddr (vpath M u) = seek w.mem self.rootPaddr (vpath M u))
    (hentry : ∀ slot k, seek w.mem self.rootPaddr (vpath M u) = .ok (slot, k) →
      w'.entry slot = w.entry slot) : (self.query u w').1 = (self.query u w).1 := by
  cases hs : seek w.mem self.rootPaddr (vpath M u) with
  | error e => rw [query_of_error hL self hs, query_of_error hL self (hseek.trans hs)]
  | ok found =>
    rw [query_of_seek hL self hs, query_of_seek hL self (hseek.trans hs), hentry _ _ hs]

theorem mapped_iff_seek : Mapped self w u ↔ ∃ slot k,
    seek w.mem self.rootPaddr (vpath M u) = .ok (slot, k) ∧ isPresent (w.entry slot) = true := by
  rw [Mapped]
  cases hs : seek w.mem self.rootPaddr (vpath M u) with
  | error e =>
    rw [query_of_error hL self hs]
    simp
  | ok found =>
    rw [query_of_seek hL self hs]
    by_cases hp : isPresent (w.entry found.1) = true
    · rw [if_pos hp]
      exact ⟨fun _ => ⟨_, _, rfl, hp⟩, fun _ => ⟨_, rfl⟩⟩
    · rw [if_neg hp]
      constructor
      · rintro ⟨r, hr⟩
        exact absurd hr (by simp)
      · rintro ⟨slot, k, hfound, hp'⟩
        obtain rfl : found = (slot, k) := by simpa using hfound
        exact absurd hp' hp

/-- A page is found at the entry on the path of an address exactly when the entry is present
and, above the last level, huge. -/
theorem query_page_iff (h : SlotAt w.mem self.rootPaddr (pathTo M k u) slot) (hk : k ≤ 2)
    {p : PhysAddr} {g : MappingFlags 64} :
    (self.query u w).1 = .ok (p, g, heightSize k) ↔
      isPresent (w.entry slot) = true ∧ (k = 0 ∨ isHuge (w.entry slot) = true) ∧
        p = paddr (w.entry slot) + (heightSize k).alignOffset u ∧ g = flags (w.entry slot) := by
  constructor
  · intro hq
    cases hs : seek w.mem self.rootPaddr (vpath M u) with
    | error e =>
      rw [query_of_error hL self hs] at hq
      exact absurd hq (by simp)
    | ok found =>
      rw [query_of_seek hL self hs] at hq
      split at hq
      · next hp =>
        obtain ⟨hslot, hk', hhuge⟩ := slotAt_of_seek hL hs
        simp only [Res.ok.injEq, Prod.mk.injEq] at hq
        obtain ⟨rfl, rfl, hsize⟩ := hq
        obtain rfl := heightSize_injective hk' hk hsize
        -- the entry found is the one on the path
        obtain ⟨π, hπ, hres⟩ := h
        obtain ⟨π', hπ', hres'⟩ := hslot
        obtain ⟨rfl, hi⟩ := List.append_inj' (hπ.symm.trans hπ') rfl
        have ht : slot.table = found.1.table := Option.some_inj.mp (hres.symm.trans hres')
        have hi : slot.index = found.1.index := by simpa using hi
        have hsame : w.entry slot = w.entry found.1 := by rw [World.entry, World.entry, ht, hi]
        rw [hsame]
        refine ⟨hp, ?_, rfl, rfl⟩
        rcases Nat.eq_zero_or_pos found.2 with h0 | h0
        · exact Or.inl h0
        · exact Or.inr (hhuge h0)
      · exact absurd hq (by simp)
  · rintro ⟨hp, hhuge, rfl, rfl⟩
    obtain ⟨τ, hτ, rfl⟩ := (SamePage.refl k u : SamePage M k u u).exists_append hL (by omega)
    have hcases : τ = [] ∨ τ.length ≤ 2 ∧ isHuge (w.mem slot.table slot.index) = true :=
      hhuge.imp List.length_eq_zero_iff.mp fun hh => ⟨hk, hh⟩
    have hs : seek w.mem self.rootPaddr (vpath M u) = .ok (slot, τ.length) := by
      rw [hτ]
      exact (h.seek_append (hcases.imp_right fun hh => child_of_isHuge hh.2)).1 hcases
    rw [query_of_seek hL self hs, if_pos hp]

end Query

/-! ### The blocks done -/

/-- The entries at which the walks to the first `x` bytes of a region stop. -/
def FoundBefore (M : PagingMetaData) (root : PhysAddr) (v : VirtAddr) (w₀ : World PTE σ) (x : ℕ)
    (slot : Slot) : Prop :=
  ∃ y < x, ∃ k, seek w₀.mem root (vpath M (v + BitVec.ofNat 64 y)) = .ok (slot, k)

/-- The loop after `x` bytes, when every block so far lies in the region: the blocks end with
the bytes done, and only entries at which walks to them stop have been written. -/
structure DoneUpTo (M : PagingMetaData) (root : PhysAddr) (v : VirtAddr) (n : ℕ)
    (w₀ : World PTE σ) (x : ℕ) (w : World PTE σ) : Prop where
  inside {y : ℕ} : y < x → ∀ u, SamePage M (blockHeight M w₀.mem root (v + BitVec.ofNat 64 y))
    (v + BitVec.ofNat 64 y) u → InRegion M v n u
  apart {y z : ℕ} : y < x → x ≤ z → z < n →
    ¬ SamePage M (blockHeight M w₀.mem root (v + BitVec.ofNat 64 y)) (v + BitVec.ofNat 64 y)
      (v + BitVec.ofNat 64 z)
  written : Written (FoundBefore M root v w₀ x) w₀.mem w.mem

section Done

variable {root : PhysAddr} {v u : VirtAddr} {n x : ℕ} {w₀ w w' : World PTE σ} {slot : Slot} {k : ℕ}

theorem DoneUpTo.zero : DoneUpTo M root v n w₀ 0 w₀ :=
  ⟨fun h => absurd h (by omega), fun h => absurd h (by omega), fun _ h => absurd rfl h⟩

theorem DoneUpTo.of_mem_eq (D : DoneUpTo M root v n w₀ x w) (h : w'.mem = w.mem) :
    DoneUpTo M root v n w₀ x w' :=
  ⟨D.inside, D.apart, fun slot hne => D.written slot (by rwa [h] at hne)⟩

/-- The entries found do not lie on the paths of the addresses outside their blocks. -/
theorem foundBefore_avoids (hL : M.LEVELS = 3 ∨ M.LEVELS = 4)
    (hu : ∀ y < x, ¬ SamePage M (blockHeight M w₀.mem root (v + BitVec.ofNat 64 y))
      (v + BitVec.ofNat 64 y) u) (slot : Slot) (h : FoundBefore M root v w₀ x slot) :
    ∃ ρ, SlotAt w₀.mem root ρ slot ∧ ρ.length ≤ M.LEVELS - 1 + 1 ∧ ¬ ρ <+: vpath M u := by
  obtain ⟨y, hy, k, hs⟩ := h
  refine ⟨pathTo M k (v + BitVec.ofNat 64 y), (slotAt_of_seek hL hs).1, ?_, fun hpre => ?_⟩
  · rw [length_pathTo hL]
    omega
  · rw [pathTo_prefix_iff hL] at hpre
    have hno := hu y hy
    rw [blockHeight_of_seek hs] at hno
    exact hno hpre

/-- An address outside the region is in no block done. -/
theorem DoneUpTo.not_samePage (D : DoneUpTo M root v n w₀ x w) (hu : ¬ InRegion M v n u) (y : ℕ)
    (hy : y < x) : ¬ SamePage M (blockHeight M w₀.mem root (v + BitVec.ofNat 64 y))
      (v + BitVec.ofNat 64 y) u :=
  fun hs => hu (D.inside hy u hs)

theorem length_vpath_le (hL : M.LEVELS = 3 ∨ M.LEVELS = 4) (u : VirtAddr) :
    (vpath M u).length ≤ M.LEVELS - 1 + 1 := by
  rw [length_vpath hL]
  omega

/-- The walk to the next block is as before the loop. -/
theorem DoneUpTo.seek_eq (hL : M.LEVELS = 3 ∨ M.LEVELS = 4)
    (F : Forest child w₀.mem {root} (M.LEVELS - 1)) (D : DoneUpTo M root v n w₀ x w) (hx : x < n) :
    seek w.mem root (vpath M (v + BitVec.ofNat 64 x)) =
      seek w₀.mem root (vpath M (v + BitVec.ofNat 64 x)) :=
  Written.seek_eq F D.written (length_vpath_le hL _)
    (foundBefore_avoids hL fun _ hy => D.apart hy le_rfl hx)

theorem DoneUpTo.entry_eq (hL : M.LEVELS = 3 ∨ M.LEVELS = 4)
    (F : Forest child w₀.mem {root} (M.LEVELS - 1)) (D : DoneUpTo M root v n w₀ x w) (hx : x < n)
    (hs : seek w₀.mem root (vpath M (v + BitVec.ofNat 64 x)) = .ok (slot, k)) :
    w.entry slot = w₀.entry slot :=
  Written.found_eq F D.written (length_vpath_le hL _)
    (foundBefore_avoids hL fun _ hy => D.apart hy le_rfl hx) hs

/-- Writing the next entry. -/
theorem DoneUpTo.written_store (D : DoneUpTo M root v n w₀ x w)
    (hs : seek w₀.mem root (vpath M (v + BitVec.ofNat 64 x)) = .ok (slot, k)) (e : PTE) :
    Written (FoundBefore M root v w₀ (x + 1)) w₀.mem
      (Radix.set w.mem slot.table slot.index e) := by
  intro slot' hne
  by_cases heq : slot'.table = slot.table ∧ slot'.index = slot.index
  · obtain ⟨ht, hi⟩ := heq
    obtain rfl : slot' = slot := by
      cases slot'
      cases slot
      exact congrArg₂ Slot.mk ht hi
    exact ⟨x, by omega, k, hs⟩
  · rw [set_apply, if_neg heq] at hne
    obtain ⟨y, hy, hfound⟩ := D.written slot' hne
    exact ⟨y, by omega, hfound⟩

/-- A block inside the region starts where the one before ends, and fits. -/
theorem DoneUpTo.block_fits (hL : M.LEVELS = 3 ∨ M.LEVELS = 4) (D : DoneUpTo M root v n w₀ x w)
    (hx : x < n) (hn : n < M.space)
    (hin : ∀ u, SamePage M (blockHeight M w₀.mem root (v + BitVec.ofNat 64 x))
      (v + BitVec.ofNat 64 x) u → InRegion M v n u) :
    (v.toNat + x) % 2 ^ (12 + 9 * blockHeight M w₀.mem root (v + BitVec.ofNat 64 x)) = 0 ∧
      x + 2 ^ (12 + 9 * blockHeight M w₀.mem root (v + BitVec.ofNat 64 x)) ≤ n := by
  set k := blockHeight M w₀.mem root (v + BitVec.ofNat 64 x) with hk
  have hk2 : k ≤ 2 := blockHeight_le hL
  have hspace := two_pow_dvd_space hL hk2
  have hpow := Nat.two_pow_pos (12 + 9 * k)
  -- the address before is not in the block
  have hstart : (v.toNat + x) % 2 ^ (12 + 9 * k) = 0 := by
    by_contra hmis
    rcases Nat.eq_zero_or_pos x with rfl | hx0
    · -- it is not in the region
      rw [Nat.add_zero] at hmis
      have hpos : 0 < v.toNat := by
        by_contra hc
        exact hmis (by rw [show v.toNat = 0 by omega, Nat.zero_mod])
      have hprev : (v - 1).toNat = v.toNat - 1 := toNat_sub_ofNat (x := 1) (by omega)
      have hsame : SamePage M k (v + BitVec.ofNat 64 0) (v - 1) := by
        rw [show v + BitVec.ofNat 64 0 = v by simp]
        refine samePage_of_lt hL hk2 ?_
        rw [hprev]
        obtain ⟨a, ha⟩ := Nat.exists_eq_add_of_le' hpos
        rw [ha] at hmis ⊢
        exact Nat.succ_div_of_not_dvd fun hdvd => hmis (Nat.mod_eq_zero_of_dvd hdvd)
      obtain ⟨y, hy, hmod⟩ := hin _ hsame
      rw [hprev] at hmod
      have hdvd : M.space ∣ v.toNat + y - (v.toNat - 1) := (Nat.modEq_iff_dvd' (by omega)).mp hmod
      have := Nat.le_of_dvd (by omega) hdvd
      omega
    · -- it is in the block before
      have hsame : SamePage M k (v + BitVec.ofNat 64 x) (v + BitVec.ofNat 64 (x - 1)) := by
        rw [samePage_iff hL hk2, toNat_add_ofNat_mod v x (space_dvd hL),
          toNat_add_ofNat_mod v (x - 1) (space_dvd hL)]
        obtain ⟨q, hq⟩ := hspace
        rw [hq, Nat.mod_mul_right_div_self, Nat.mod_mul_right_div_self]
        obtain ⟨a, rfl⟩ := Nat.exists_eq_add_of_le' hx0
        rw [← Nat.add_assoc] at hmis
        rw [Nat.add_sub_cancel, ← Nat.add_assoc,
          Nat.succ_div_of_not_dvd fun hdvd => hmis (Nat.mod_eq_zero_of_dvd hdvd)]
      have hheight := blockHeight_samePage hL (hk ▸ hsame)
      refine D.apart (show x - 1 < x by omega) le_rfl hx ?_
      rw [hheight, ← hk]
      exact hsame.symm
  refine ⟨hstart, ?_⟩
  -- nor is the address after the region
  by_contra hfit
  have hsame : SamePage M k (v + BitVec.ofNat 64 x) (v + BitVec.ofNat 64 n) :=
    samePage_add hL hk2 hstart hx.le (by omega)
  obtain ⟨y, hy, hmod⟩ := hin _ hsame
  rw [toNat_add_ofNat_mod v n (space_dvd hL)] at hmod
  have hdvd : M.space ∣ v.toNat + n - (v.toNat + y) :=
    (Nat.modEq_iff_dvd' (by omega)).mp hmod.symm
  have := Nat.le_of_dvd (by omega) hdvd
  omega

/-- A block that starts here and fits lies in the region. -/
theorem inside_of_fits (hL : M.LEVELS = 3 ∨ M.LEVELS = 4) (hk : k ≤ 2)
    (hstart : (v.toNat + x) % 2 ^ (12 + 9 * k) = 0) (hfit : x + 2 ^ (12 + 9 * k) ≤ n)
    (u : VirtAddr) (hu : SamePage M k (v + BitVec.ofNat 64 x) u) : InRegion M v n u := by
  have hwithin := (samePage_iff_within hL hk hstart).mp hu
  exact (within_add.mpr (Or.inr hwithin)).mono hfit

/-- The loop goes past a block inside the region. -/
theorem DoneUpTo.advance (hL : M.LEVELS = 3 ∨ M.LEVELS = 4) (D : DoneUpTo M root v n w₀ x w)
    (hx : x < n) (hn : n < M.space)
    (hin : ∀ u, SamePage M (blockHeight M w₀.mem root (v + BitVec.ofNat 64 x))
      (v + BitVec.ofNat 64 x) u → InRegion M v n u)
    (hw' : Written (FoundBefore M root v w₀ (x + 1)) w₀.mem w'.mem) :
    DoneUpTo M root v n w₀
      (x + 2 ^ (12 + 9 * blockHeight M w₀.mem root (v + BitVec.ofNat 64 x))) w' := by
  obtain ⟨hstart, hfit⟩ := D.block_fits hL hx hn hin
  set k := blockHeight M w₀.mem root (v + BitVec.ofNat 64 x) with hk
  have hk2 : k ≤ 2 := blockHeight_le hL
  have hpow := Nat.two_pow_pos (12 + 9 * k)
  -- the addresses of the block have this block
  have hblock : ∀ y, x ≤ y → y < x + 2 ^ (12 + 9 * k) →
      SamePage M k (v + BitVec.ofNat 64 x) (v + BitVec.ofNat 64 y) ∧
        blockHeight M w₀.mem root (v + BitVec.ofNat 64 y) = k := by
    intro y hxy hy
    have hsame := samePage_add (M := M) hL hk2 hstart hxy hy
    exact ⟨hsame, blockHeight_samePage hL (hk ▸ hsame)⟩
  refine ⟨fun {y} hy u hu => ?_, fun {y z} hy hz hzn hu => ?_, fun slot hne => ?_⟩
  · rcases Nat.lt_or_ge y x with hyx | hxy
    · exact D.inside hyx u hu
    · obtain ⟨hsame, hheight⟩ := hblock y hxy hy
      rw [hheight] at hu
      exact hin u (hsame.trans hu)
  · rcases Nat.lt_or_ge y x with hyx | hxy
    · exact D.apart hyx (by omega) hzn hu
    · obtain ⟨hsame, hheight⟩ := hblock y hxy hy
      rw [hheight] at hu
      have hwithin := (samePage_iff_within hL hk2 hstart).mp (hsame.trans hu)
      refine not_within_of_within (n := 2 ^ (12 + 9 * k)) (k := M.space - 2 ^ (12 + 9 * k))
        (by omega) hwithin ⟨z - (x + 2 ^ (12 + 9 * k)), by omega, ?_⟩
      rw [toNat_add_ofNat_mod v z (space_dvd hL)]
      congr 1
      omega
  · obtain ⟨y, hy, hfound⟩ := hw' slot hne
    exact ⟨y, by omega, hfound⟩

/-! ### Outside the region -/

section Outside

variable (hL : M.LEVELS = 3 ∨ M.LEVELS = 4) (self : PageTable64 B M PTE H)
  (F : Forest child w₀.mem {self.rootPaddr} (M.LEVELS - 1))
  (D : DoneUpTo M self.rootPaddr v n w₀ x w)
include hL F D

/-- So far the answers outside the region are as before. -/
theorem DoneUpTo.query_eq (hu : ¬ InRegion M v n u) :
    (self.query u w).1 = (self.query u w₀).1 := by
  have havoid := foundBefore_avoids (M := M) hL (D.not_samePage hu)
  exact query_congr hL self (Written.seek_eq F D.written (length_vpath_le hL u) havoid)
    fun slot k hs => Written.found_eq F D.written (length_vpath_le hL u) havoid hs

variable (hs : seek w₀.mem self.rootPaddr (vpath M (v + BitVec.ofNat 64 x)) = .ok (slot, k))
  {e : PTE} (hw' : w'.mem = Radix.set w.mem slot.table slot.index e)
include hs hw'

/-- Writing the entry of a block changes no answer outside the block. -/
theorem DoneUpTo.query_store (hu : ¬ InRegion M v n u)
    (hno : ¬ SamePage M k (v + BitVec.ofNat 64 x) u) :
    (self.query u w').1 = (self.query u w₀).1 := by
  have hapart : ∀ y < x + 1, ¬ SamePage M
      (blockHeight M w₀.mem self.rootPaddr (v + BitVec.ofNat 64 y)) (v + BitVec.ofNat 64 y) u := by
    intro y hy
    obtain hyx | rfl := Nat.lt_succ_iff_lt_or_eq.mp hy
    · exact D.not_samePage hu y hyx
    · rw [blockHeight_of_seek hs]
      exact hno
  have havoid := foundBefore_avoids (M := M) hL hapart
  have hwritten := D.written_store hs e
  rw [← hw'] at hwritten
  exact query_congr hL self (Written.seek_eq F hwritten (length_vpath_le hL u) havoid)
    fun slot k hs => Written.found_eq F hwritten (length_vpath_le hL u) havoid hs

/-- The entry written is still on the paths of the addresses of its block. -/
theorem DoneUpTo.slotAt_store (hu : ¬ InRegion M v n u)
    (hsame : SamePage M k (v + BitVec.ofNat 64 x) u) :
    SlotAt w'.mem self.rootPaddr (pathTo M k u) slot := by
  obtain ⟨⟨π, hπ, hres⟩, -, -⟩ := slotAt_of_seek hL (seek_samePage hL hs hsame)
  refine ⟨π, hπ, ?_⟩
  have hwritten := D.written_store hs e
  rw [← hw'] at hwritten
  have hlen := congrArg List.length hπ
  rw [length_pathTo hL, List.length_append, List.length_singleton] at hlen
  have hpre : π <+: vpath M u :=
    (List.prefix_append π [slot.index]).trans (hπ ▸ List.take_prefix _ _)
  rw [← hres]
  refine Written.resolve_eq F hwritten (by omega) fun slot' hfound => ?_
  obtain ⟨y, hy, k', hs'⟩ := hfound
  have hlen' := length_pathTo (M := M) hL k' (v + BitVec.ofNat 64 y)
  refine ⟨_, (slotAt_of_seek hL hs').1, by omega, fun hpre' => ?_⟩
  obtain hyx | rfl := Nat.lt_succ_iff_lt_or_eq.mp hy
  · -- the address is in no block done
    have hno := D.not_samePage hu y hyx
    rw [blockHeight_of_seek hs'] at hno
    exact hno ((pathTo_prefix_iff hL).mp (hpre'.trans hpre))
  · -- the path of the block itself is longer
    rw [hs] at hs'
    obtain ⟨rfl, rfl⟩ : slot = slot' ∧ k = k' := by simpa using hs'
    have := hpre'.length_le
    omega

end Outside

end Done

/-- Where the entry on the path of an address is unused, nothing is mapped. -/
theorem query_of_unused [LawfulPTE M PTE] (self : PageTable64 B M PTE H) {w : World PTE σ}
    {u : VirtAddr} {slot : Slot} {k : ℕ} (hk : k ≤ 2)
    (h : SlotAt w.mem self.rootPaddr (pathTo M k u) slot) (hempty : w.entry slot = empty) :
    (self.query u w).1 = .err .notMapped := by
  have hL := LawfulPTE.levels (M := M) PTE
  have hmem : w.mem slot.table slot.index = empty := hempty
  obtain ⟨τ, hτ, rfl⟩ := (SamePage.refl k u : SamePage M k u u).exists_append hL (by omega)
  obtain ⟨hfound, herror⟩ := h.seek_append (τ := τ) (Or.inr (by rw [hmem]; exact child_empty M))
  by_cases hcases : τ = [] ∨ τ.length ≤ 2 ∧ isHuge (w.mem slot.table slot.index) = true
  · have hs := hfound hcases
    rw [← hτ] at hs
    rw [query_of_seek hL self hs, hempty, LawfulPTE.isPresent_empty M]
    rfl
  · obtain ⟨e, hnext, hs⟩ := herror hcases
    rw [← hτ] at hs
    rw [query_of_error hL self hs]
    rw [hmem, PageTable64.nextTable, if_pos (by simp [LawfulPTE.paddr_empty M])] at hnext
    simpa using hnext.symm

/-! ### `unmap_region` -/

section Unmap

variable [LawfulPTE M PTE] {inUse : σ → Set PhysAddr} {w₀ : World PTE σ}
  (self : PageTable64 B M PTE H) {v : VirtAddr} {size : Usize}

/-- The answers outside the region are as in another state. -/
def OutsideSame (self : PageTable64 B M PTE H) (w : World PTE σ) (v : VirtAddr) (n : ℕ)
    (w' : World PTE σ) : Prop :=
  ∀ u, ¬ InRegion M v n u → (self.query u w').1 = (self.query u w).1

omit [LawfulPTE M PTE] in
/-- The loop stays inside if every block so far does and it stops here. -/
theorem unmapStaysInside_of_stop (hL : M.LEVELS = 3 ∨ M.LEVELS = 4) {n x : ℕ} {w : World PTE σ}
    (D : DoneUpTo M self.rootPaddr v n w₀ x w)
    (hstop : x < n → (B.overflowChecks = true → v.toNat + x < 2 ^ 64) →
      ¬ Mapped self w₀ (v + BitVec.ofNat 64 x)) : UnmapStaysInside self w₀ v n := by
  intro z hz hno hmapped
  rcases Nat.lt_or_ge z x with hzx | hxz
  · rw [blockInside_iff hL]
    exact D.inside hzx
  · exact absurd (hmapped x hxz) (hstop (by omega) fun hB => by have := hno hB; omega)

omit [LawfulPTE M PTE] in
/-- Where the region is the whole address space nothing is outside it. -/
theorem inRegion_of_space_le {n : ℕ} (hn : M.space ≤ n) (u : VirtAddr) : InRegion M v n u := by
  have hpos : 0 < M.space := Nat.two_pow_pos _
  have hlt := Nat.mod_lt v.toNat hpos
  refine ⟨(u.toNat + (M.space - v.toNat % M.space)) % M.space,
    (Nat.mod_lt _ hpos).trans_le hn, ?_⟩
  rw [Nat.add_mod_mod, ← Nat.mod_add_mod, show v.toNat % M.space + (u.toNat +
    (M.space - v.toNat % M.space)) = u.toNat + M.space by omega, Nat.add_mod_right]

omit [LawfulPTE M PTE] in
/-- The assertions of a round hold for a block inside the region, and the loop goes on. -/
theorem DoneUpTo.round_inside (hL : M.LEVELS = 3 ∨ M.LEVELS = 4) {x k : ℕ} {w w' : World PTE σ}
    (D : DoneUpTo M self.rootPaddr v size.toNat w₀ x w) (hx : x < size.toNat)
    (hspace : size.toNat < M.space)
    (hblock : blockHeight M w₀.mem self.rootPaddr (v + BitVec.ofNat 64 x) = k)
    (hin : ∀ u, SamePage M k (v + BitVec.ofNat 64 x) u → InRegion M v size.toNat u)
    (hw' : Written (FoundBefore M self.rootPaddr v w₀ (x + 1)) w₀.mem w'.mem) :
    assertStep (heightSize k) (v + BitVec.ofNat 64 x) (size - BitVec.ofNat 64 x) w' =
        (.ok (heightSize k), w') ∧
      x + (heightSize k).bytes ≤ size.toNat ∧
      (∀ y, x ≤ y → y < x + (heightSize k).bytes →
        SamePage M k (v + BitVec.ofNat 64 x) (v + BitVec.ofNat 64 y)) ∧
      DoneUpTo M self.rootPaddr v size.toNat w₀ (x + (heightSize k).bytes) w' := by
  subst hblock
  have hk : blockHeight M w₀.mem self.rootPaddr (v + BitVec.ofNat 64 x) ≤ 2 := blockHeight_le hL
  obtain ⟨hstart, hfit⟩ := D.block_fits hL hx hspace hin
  rw [bytes_heightSize hk]
  refine ⟨assertStep_ok hk ?_ ?_ w', hfit, fun y hxy hy => samePage_add hL hk hstart hxy hy,
    D.advance hL hx hspace hin hw'⟩
  · rw [toNat_add_ofNat_mod v x (Nat.pow_dvd_pow 2 (by omega)), hstart]
  · rw [toNat_sub_ofNat hx.le]
    omega

/-- They fail for a block that sticks out. -/
theorem assertStep_outside {S : Type} (hL : M.LEVELS = 3 ∨ M.LEVELS = 4) {x k : ℕ}
    (hx : x < size.toNat) (hk : k ≤ 2)
    (hout : ¬ ∀ u, SamePage M k (v + BitVec.ofNat 64 x) u → InRegion M v size.toNat u) (s : S) :
    assertStep (heightSize k) (v + BitVec.ofNat 64 x) (size - BitVec.ofNat 64 x) s =
      (.panic, s) := by
  refine assertStep_panic hk (fun hfits => hout ?_) s
  obtain ⟨hstart, hfit⟩ := hfits
  rw [toNat_add_ofNat_mod v x (Nat.pow_dvd_pow 2 (by omega))] at hstart
  rw [toNat_sub_ofNat hx.le] at hfit
  exact inside_of_fits hL hk hstart (by omega)

/-- What the loop of `unmap_region` keeps: the blocks done were mapped. -/
structure UnmappedSoFar (table : PageTable64 B M PTE H) (v : VirtAddr) (n : ℕ)
    (w₀ : World PTE σ) (x : ℕ) (w : World PTE σ) : Prop where
  done : DoneUpTo M table.rootPaddr v n w₀ x w
  mapped {y : ℕ} : y < x → Mapped table w₀ (v + BitVec.ofNat 64 y)

/-- A round of `unmap_region` that finds a page, inside the region or sticking out. -/
theorem unmapRegion_page (T : Tree M inUse self.rootPaddr w₀) (hspace : size.toNat < M.space)
    {x k : ℕ} {w : World PTE σ} {slot : Slot} (hx : x < size.toNat)
    (hno : B.overflowChecks = true → v.toNat + x < 2 ^ 64)
    (I : UnmappedSoFar self v size.toNat w₀ x w)
    (hs : seek w₀.mem self.rootPaddr (vpath M (v + BitVec.ofNat 64 x)) = .ok (slot, k))
    (hp : isPresent (w₀.entry slot) = true) :
    (∃ ps w', self.unmapRegionStep (v + BitVec.ofNat 64 x) (size - BitVec.ofNat 64 x) w =
        (.ok ps, w') ∧ x + ps.bytes ≤ size.toNat ∧
        UnmappedSoFar self v size.toNat w₀ (x + ps.bytes) w') ∨
      ∃ w', self.unmapRegionStep (v + BitVec.ofNat 64 x) (size - BitVec.ofNat 64 x) w =
        (.panic, w') ∧ ¬ OutsideSame self w₀ v size.toNat w' ∧
        ¬ UnmapStaysInside self w₀ v size.toNat := by
  have hL := LawfulPTE.levels (M := M) PTE
  have D := I.done
  have hk := (slotAt_of_seek hL hs).2.1
  have hblock := blockHeight_of_seek hs
  obtain ⟨acc, -, heq⟩ := unmap_apply hL self (v + BitVec.ofNat 64 x) w
  simp only [D.seek_eq hL T.forest hx, hs, D.entry_eq hL T.forest hx hs, LawfulPTE.clear_eq M,
    if_pos hp] at heq
  set w' := ((w.touch acc).store slot empty).queue (v + BitVec.ofNat 64 x)
  have hmem : w'.mem = Radix.set w.mem slot.table slot.index empty := rfl
  rw [PageTable64.unmapRegionStep, Op.bind_ok heq]
  by_cases hin : ∀ u, SamePage M k (v + BitVec.ofNat 64 x) u → InRegion M v size.toNat u
  · obtain ⟨hround, hfit, hsame, hnext⟩ := D.round_inside self hL hx hspace hblock hin
      (by rw [hmem]; exact D.written_store hs empty)
    refine Or.inl ⟨heightSize k, w', hround, hfit, hnext, fun {y} hy => ?_⟩
    rcases Nat.lt_or_ge y x with hyx | hxy
    · exact I.mapped hyx
    · exact (mapped_iff_seek hL self).mpr ⟨slot, k, seek_samePage hL hs (hsame y hxy hy), hp⟩
  · refine Or.inr ⟨w', assertStep_outside hL hx hk hin w', fun hsame => ?_, fun hstays => hin ?_⟩
    · -- an address outside has lost its page
      push Not at hin
      obtain ⟨u, hu, hout⟩ := hin
      have hslot := D.slotAt_store hL self T.forest hs hmem hout hu
      have hgone := query_of_unused self hk hslot (by rw [World.entry, hmem, set_self])
      have hquery := hsame u hout
      rw [hgone, query_of_seek hL self (seek_samePage hL hs hu), if_pos hp] at hquery
      exact absurd hquery (by simp)
    · have hinside := hstays x hx hno fun y hy => ?_
      · rw [blockInside_iff hL, hblock] at hinside
        exact hinside
      · obtain hyx | rfl := hy.lt_or_eq
        · exact I.mapped hyx
        · exact (mapped_iff_seek hL self).mpr ⟨slot, k, hs, hp⟩

/-- A round of `unmap_region` that finds no page. -/
theorem unmapRegion_noPage (T : Tree M inUse self.rootPaddr w₀) {x : ℕ} {w : World PTE σ}
    (hx : x < size.toNat) (D : DoneUpTo M self.rootPaddr v size.toNat w₀ x w)
    (hnot : ¬ Mapped self w₀ (v + BitVec.ofNat 64 x)) :
    ∃ e w', self.unmapRegionStep (v + BitVec.ofNat 64 x) (size - BitVec.ofNat 64 x) w =
      (.err e, w') ∧ OutsideSame self w₀ v size.toNat w' := by
  have hL := LawfulPTE.levels (M := M) PTE
  obtain ⟨acc, -, heq⟩ := unmap_apply hL self (v + BitVec.ofNat 64 x) w
  rw [D.seek_eq hL T.forest hx] at heq
  rw [PageTable64.unmapRegionStep]
  cases hs : seek w₀.mem self.rootPaddr (vpath M (v + BitVec.ofNat 64 x)) with
  | error e =>
    simp only [hs] at heq
    refine ⟨e, _, Op.bind_err heq, fun u hu => ?_⟩
    have D' : DoneUpTo M self.rootPaddr v size.toNat w₀ x (w.touch acc) := D.of_mem_eq rfl
    exact D'.query_eq hL self T.forest hu
  | ok found =>
    -- the entry cleared was not present
    obtain ⟨slot, k⟩ := found
    have hp : ¬ isPresent (w₀.entry slot) = true := fun hp =>
      hnot ((mapped_iff_seek hL self).mpr ⟨slot, k, hs, hp⟩)
    simp only [hs, D.entry_eq hL T.forest hx hs, LawfulPTE.clear_eq M, if_neg hp] at heq
    refine ⟨.notMapped, _, Op.bind_err heq, fun u hu => ?_⟩
    set w' := (w.touch acc).store slot empty
    have hmem : w'.mem = Radix.set w.mem slot.table slot.index empty := rfl
    by_cases hsame : SamePage M k (v + BitVec.ofNat 64 x) u
    · have hslot := D.slotAt_store hL self T.forest hs hmem hu hsame
      have hk := (slotAt_of_seek hL hs).2.1
      rw [query_of_unused self hk hslot (by rw [World.entry, hmem, set_self]),
        query_of_seek hL self (seek_samePage hL hs hsame), if_neg hp]
    · exact D.query_store hL self T.forest hs hmem hu hsame

/-- `unmap_region` changes nothing outside its region exactly when it reaches no page that
sticks out. -/
theorem unmapRegion_frame_iff (T : Tree M inUse self.rootPaddr w₀) :
    OutsideSame self w₀ v size.toNat (self.unmapRegion v size w₀).2 ↔
      UnmapStaysInside self w₀ v size.toNat := by
  have hL := LawfulPTE.levels (M := M) PTE
  rcases Nat.lt_or_ge size.toNat M.space with hspace | hspace
  swap
  · -- the region is the whole space: nothing is outside
    exact ⟨fun _ x _ _ _ u _ => inRegion_of_space_le hspace u,
      fun _ u hu => absurd (inRegion_of_space_le hspace u) hu⟩
  refine regionLoop_wrap_rule (by decide) (I := UnmappedSoFar self v size.toNat w₀)
    (Q := fun _ w => OutsideSame self w₀ v size.toNat w ↔ UnmapStaysInside self w₀ v size.toNat)
    ?_ ?_ ?_ ⟨.zero, fun hy => absurd hy (by omega)⟩
  · intro x w hx hno I
    by_cases hm : Mapped self w₀ (v + BitVec.ofNat 64 x)
    · obtain ⟨slot, k, hs, hp⟩ := (mapped_iff_seek hL self).mp hm
      obtain h | ⟨w', hround, hchanged, hout⟩ := unmapRegion_page self T hspace hx hno I hs hp
      · exact Or.inl h
      · exact Or.inr (Or.inr ⟨w', hround, iff_of_false hchanged hout⟩)
    · -- nothing is mapped there: the loop ends with the error of `unmap`
      obtain ⟨e, w', hround, hsame⟩ := unmapRegion_noPage self T hx I.done hm
      exact Or.inr (Or.inl ⟨e, w', hround, iff_of_true hsame
        (unmapStaysInside_of_stop self hL I.done fun _ _ => hm)⟩)
  · -- the addition overflows
    intro x w hx I hB hover
    refine iff_of_true (fun u hu => I.done.query_eq hL self T.forest hu) ?_
    refine unmapStaysInside_of_stop self hL I.done fun _ hno => ?_
    have := hno hB
    omega
  · intro w I hno
    refine iff_of_true (fun u hu => I.done.query_eq hL self T.forest hu) ?_
    exact unmapStaysInside_of_stop self hL I.done fun hx => absurd hx (by omega)

end Unmap

/-! ### `protect_region` -/

/-- A walk of a guarded table fails only where nothing is mapped. -/
theorem Guarded.seek_error [LawfulPTE M PTE] {inUse : σ → Set PhysAddr} {root : PhysAddr}
    {w : World PTE σ} (G : Guarded M inUse root w) {u : VirtAddr} {e : PagingError}
    (h : seek w.mem root (vpath M u) = .error e) : e = .notMapped := by
  have hL := LawfulPTE.levels (M := M) PTE
  have hlen := length_vpath hL u
  have hne : vpath M u ≠ [] := by
    intro hc
    rw [hc, List.length_nil] at hlen
    omega
  obtain ⟨ρ, i, τ, s, hsplit, hτ, hs, hn, hh⟩ := seek_eq_error hne h
  have hτpos := List.length_pos_iff.mpr hτ
  rw [hsplit, List.length_append, List.length_cons] at hlen
  have hslot : SlotAt w.mem root (ρ ++ [i]) ⟨s, i⟩ := ⟨ρ, rfl, hs⟩
  have hρlen : (ρ ++ [i]).length = ρ.length + 1 := by rw [List.length_append, List.length_singleton]
  -- `next_table` looks at the address first
  have hzero : paddr (w.mem s i) = 0 → e = .notMapped := by
    intro h0
    rw [PageTable64.nextTable, if_pos (by simp [h0])] at hn
    simpa using hn.symm
  obtain ⟨-, p, hp, he⟩ | ⟨-, he | hle⟩ := G.entries hslot (by omega)
  · rw [show w.mem s i = newTable p from he, nextTable_of_child (child_newTable hp)] at hn
    exact absurd hn (by simp)
  · refine hzero ?_
    rw [show w.mem s i = empty from he, LawfulPTE.paddr_empty M]
  · -- it is not huge, so it has no address
    have hnot := hh (by omega)
    rw [PageTable64.nextTable, hnot] at hn
    split at hn
    · simpa using hn.symm
    · exact absurd hn (by simp)

section Protect

variable [LawfulPTE M PTE] {inUse : σ → Set PhysAddr} {w₀ : World PTE σ}
  (self : PageTable64 B M PTE H) {v : VirtAddr} {size : Usize} {f : MappingFlags 64}

omit [LawfulPTE M PTE] in
/-- Where the loop stops at a block that sticks out, that block decides. -/
theorem protectStaysInside_iff_of_stop (hL : M.LEVELS = 3 ∨ M.LEVELS = 4) {n x : ℕ}
    {w : World PTE σ} (D : DoneUpTo M self.rootPaddr v n w₀ x w)
    (hstop : x < n → (B.overflowChecks = true → v.toNat + x < 2 ^ 64) →
      flagsPass B PTE f = true → ¬ BlockInside self w₀ v n (v + BitVec.ofNat 64 x)) :
    ProtectStaysInside self w₀ v n f ↔ (x < n → (B.overflowChecks = true → v.toNat + x < 2 ^ 64) →
      flagsPass B PTE f = true → FlagsAlready self w₀ f (v + BitVec.ofNat 64 x)) := by
  have hinside : ∀ y < x, BlockInside self w₀ v n (v + BitVec.ofNat 64 y) := by
    intro y hy
    rw [blockInside_iff hL]
    exact D.inside hy
  constructor
  · intro h hx hno hpass
    exact h x hx hno hpass hinside (hstop hx hno hpass)
  · intro h z hz hno hpass hbefore hout
    obtain hzx | rfl | hxz := Nat.lt_trichotomy z x
    · exact absurd (hinside z hzx) hout
    · exact h hz hno hpass
    · exact absurd (hbefore x hxz)
        (hstop (by omega) (fun hB => by have := hno hB; omega) hpass)

omit [LawfulPTE M PTE] in
/-- A round of `protect_region` that writes nothing, because no page is found. -/
theorem protectRegion_hole_round (hL : M.LEVELS = 3 ∨ M.LEVELS = 4)
    (F : Forest child w₀.mem {self.rootPaddr} (M.LEVELS - 1)) (hspace : size.toNat < M.space)
    {x k : ℕ} {w : World PTE σ} (hx : x < size.toNat)
    (D : DoneUpTo M self.rootPaddr v size.toNat w₀ x w)
    (hblock : blockHeight M w₀.mem self.rootPaddr (v + BitVec.ofNat 64 x) = k)
    (hnot : ¬ Mapped self w₀ (v + BitVec.ofNat 64 x)) (acc : List PhysAddr) :
    (∃ ps w', assertStep (heightSize k) (v + BitVec.ofNat 64 x) (size - BitVec.ofNat 64 x)
        (w.touch acc) = (.ok ps, w') ∧ x + ps.bytes ≤ size.toNat ∧
        DoneUpTo M self.rootPaddr v size.toNat w₀ (x + ps.bytes) w') ∨
      ∃ w', assertStep (heightSize k) (v + BitVec.ofNat 64 x) (size - BitVec.ofNat 64 x)
        (w.touch acc) = (.panic, w') ∧
        (OutsideSame self w₀ v size.toNat w' ↔ ProtectStaysInside self w₀ v size.toNat f) := by
  have D' : DoneUpTo M self.rootPaddr v size.toNat w₀ x (w.touch acc) := D.of_mem_eq rfl
  by_cases hin : ∀ u, SamePage M k (v + BitVec.ofNat 64 x) u → InRegion M v size.toNat u
  · obtain ⟨hround, hfit, -, hnext⟩ := D'.round_inside self hL hx hspace hblock hin
      fun slot hne => by
        obtain ⟨y, hy, hfound⟩ := D'.written slot hne
        exact ⟨y, by omega, hfound⟩
    exact Or.inl ⟨_, _, hround, hfit, hnext⟩
  · have hk : k ≤ 2 := hblock ▸ blockHeight_le hL
    refine Or.inr ⟨_, assertStep_outside hL hx hk hin _,
      iff_of_true (fun u hu => D'.query_eq hL self F hu) ?_⟩
    refine (protectStaysInside_iff_of_stop self hL D fun _ _ _ hinside => hin ?_).mpr
      fun _ _ _ p g s hq => absurd ⟨_, hq⟩ hnot
    rw [blockInside_iff hL, hblock] at hinside
    exact hinside

/-- A round of `protect_region` that gives a page new flags, inside the region or sticking
out. -/
theorem protectRegion_page_round (T : Tree M inUse self.rootPaddr w₀)
    (hhuge : ∀ e : PTE, isHuge (setFlags e f true) = true → debugAssert PTE f = true)
    (hspace : size.toNat < M.space) (hpass : flagsPass B PTE f = true) {x k : ℕ}
    {w w' : World PTE σ} {slot : Slot} (hx : x < size.toNat)
    (hno : B.overflowChecks = true → v.toNat + x < 2 ^ 64)
    (D : DoneUpTo M self.rootPaddr v size.toNat w₀ x w)
    (hs : seek w₀.mem self.rootPaddr (vpath M (v + BitVec.ofNat 64 x)) = .ok (slot, k))
    (hp : isPresent (w₀.entry slot) = true)
    (hmem : w'.mem = Radix.set w.mem slot.table slot.index
      (setFlags (w₀.entry slot) f (heightSize k).isHuge)) :
    (∃ ps w'', assertStep (heightSize k) (v + BitVec.ofNat 64 x) (size - BitVec.ofNat 64 x) w' =
        (.ok ps, w'') ∧ x + ps.bytes ≤ size.toNat ∧
        DoneUpTo M self.rootPaddr v size.toNat w₀ (x + ps.bytes) w'') ∨
      ∃ w'', assertStep (heightSize k) (v + BitVec.ofNat 64 x) (size - BitVec.ofNat 64 x) w' =
        (.panic, w'') ∧
        (OutsideSame self w₀ v size.toNat w'' ↔ ProtectStaysInside self w₀ v size.toNat f) := by
  have hL := LawfulPTE.levels (M := M) PTE
  have hk := (slotAt_of_seek hL hs).2.1
  have hblock := blockHeight_of_seek hs
  by_cases hin : ∀ u, SamePage M k (v + BitVec.ofNat 64 x) u → InRegion M v size.toNat u
  · have hwritten := D.written_store hs (setFlags (w₀.entry slot) f (heightSize k).isHuge)
    rw [← hmem] at hwritten
    obtain ⟨hround, hfit, -, hnext⟩ := D.round_inside self hL hx hspace hblock hin hwritten
    exact Or.inl ⟨_, _, hround, hfit, hnext⟩
  refine Or.inr ⟨w', assertStep_outside hL hx hk hin w', ?_⟩
  rw [protectStaysInside_iff_of_stop self hL D fun _ _ _ hinside => hin (by
    rw [blockInside_iff hL, hblock] at hinside
    exact hinside)]
  -- the entry before and after, and the answers at the addresses of its block
  have hbefore : ∀ u, SamePage M k (v + BitVec.ofNat 64 x) u → (self.query u w₀).1 =
      .ok (paddr (w₀.entry slot) + (heightSize k).alignOffset u, flags (w₀.entry slot),
        heightSize k) := by
    intro u hu
    rw [query_of_seek hL self (seek_samePage hL hs hu), if_pos hp]
  have hafter : w'.entry slot = setFlags (w₀.entry slot) f (heightSize k).isHuge := by
    rw [World.entry, hmem, set_self]
  have hpage : ∀ u, ¬ InRegion M v size.toNat u → SamePage M k (v + BitVec.ofNat 64 x) u →
      ((self.query u w').1 = (self.query u w₀).1 ↔ presentWith PTE f = true ∧
        (k = 0 ∨ isHuge (setFlags (w₀.entry slot) f (heightSize k).isHuge) = true) ∧
        flags (w₀.entry slot) = normalise PTE f) := by
    intro u hout hu
    rw [hbefore u hu, query_page_iff hL self (D.slotAt_store hL self T.forest hs hmem hout hu) hk,
      hafter, LawfulPTE.isPresent_setFlags M, LawfulPTE.paddr_setFlags M,
      LawfulPTE.flags_setFlags M]
    simp only [true_and]
  constructor
  · intro hsame _ _ _ p g s hq
    push Not at hin
    obtain ⟨u, hu, hout⟩ := hin
    obtain ⟨hpresent, hhuge', hflags⟩ := (hpage u hout hu).mp (hsame u hout)
    rw [hbefore _ (.refl k _)] at hq
    simp only [Res.ok.injEq, Prod.mk.injEq] at hq
    obtain ⟨-, rfl, rfl⟩ := hq
    refine ⟨hflags, hpresent, ?_⟩
    rcases Nat.eq_zero_or_pos k with rfl | h0
    · exact Or.inl rfl
    · obtain h | h := hhuge'
      · omega
      · rw [isHuge_heightSize, decide_eq_true h0] at h
        exact Or.inr (hhuge _ h)
  · intro halready u hout
    obtain ⟨hflags, hpresent, hsize⟩ := halready hx hno hpass _ _ _ (hbefore _ (.refl k _))
    by_cases hu : SamePage M k (v + BitVec.ofNat 64 x) u
    · refine (hpage u hout hu).mpr ⟨hpresent, ?_, hflags⟩
      rcases Nat.eq_zero_or_pos k with h0 | h0
      · exact Or.inl h0
      · right
        rw [isHuge_heightSize, decide_eq_true h0]
        obtain h4K | hf := hsize
        · have := isHuge_heightSize k
          rw [h4K, decide_eq_true h0] at this
          exact absurd this (by decide)
        · exact LawfulPTE.isHuge_setFlags M _ hf
    · exact D.query_store hL self T.forest hs hmem hout hu

/-- `protect_region` changes nothing outside its region exactly when the first block that
sticks out, if it is reached and mapped, has the new flags already. -/
theorem protectRegion_frame_iff (G : Guarded M inUse self.rootPaddr w₀)
    (hhuge : ∀ e : PTE, isHuge (setFlags e f true) = true → debugAssert PTE f = true) :
    OutsideSame self w₀ v size.toNat (self.protectRegion v size f w₀).2 ↔
      ProtectStaysInside self w₀ v size.toNat f := by
  have hL := LawfulPTE.levels (M := M) PTE
  have T := G.toTree
  rcases Nat.lt_or_ge size.toNat M.space with hspace | hspace
  swap
  · refine ⟨fun _ x _ _ _ _ hout => absurd ?_ hout,
      fun _ u hu => absurd (inRegion_of_space_le hspace u) hu⟩
    exact fun u _ => inRegion_of_space_le hspace u
  refine regionLoop_wrap_rule (by decide) (I := DoneUpTo M self.rootPaddr v size.toNat w₀)
    (Q := fun _ w => OutsideSame self w₀ v size.toNat w ↔
      ProtectStaysInside self w₀ v size.toNat f) ?_ ?_ ?_ .zero
  · intro x w hx hno D
    obtain ⟨acc, -, heq⟩ := protectRegionStep_apply hL self (v + BitVec.ofNat 64 x) w f
      (size - BitVec.ofNat 64 x)
    rw [D.seek_eq hL T.forest hx] at heq
    cases hs : seek w₀.mem self.rootPaddr (vpath M (v + BitVec.ofNat 64 x)) with
    | error e =>
      obtain rfl := G.seek_error hs
      simp only [hs] at heq
      rw [heq]
      have hnot : ¬ Mapped self w₀ (v + BitVec.ofNat 64 x) := by
        rintro ⟨r, hr⟩
        rw [query_of_error hL self hs] at hr
        exact absurd hr (by simp)
      exact (protectRegion_hole_round self hL T.forest hspace hx D (blockHeight_of_error hs) hnot
        acc).imp_right Or.inr
    | ok found =>
      obtain ⟨slot, k⟩ := found
      simp only [hs, D.entry_eq hL T.forest hx hs] at heq
      rw [heq]
      by_cases hp : isPresent (w₀.entry slot) = true
      · rw [if_pos hp]
        by_cases hpass : flagsPass B PTE f = true
        · rw [if_pos hpass]
          exact (protectRegion_page_round self T hhuge hspace hpass hx hno D hs hp rfl).imp_right
            Or.inr
        · -- the assertion on the flags fails
          rw [if_neg hpass]
          have D' : DoneUpTo M self.rootPaddr v size.toNat w₀ x (w.touch acc) := D.of_mem_eq rfl
          refine Or.inr (Or.inr ⟨_, rfl,
            iff_of_true (fun u hu => D'.query_eq hL self T.forest hu) ?_⟩)
          exact fun _ _ _ hf => absurd hf hpass
      · -- an entry that is not present is passed over
        rw [if_neg hp]
        have hnot : ¬ Mapped self w₀ (v + BitVec.ofNat 64 x) := by
          rintro ⟨r, hr⟩
          rw [query_of_seek hL self hs, if_neg hp] at hr
          exact absurd hr (by simp)
        exact (protectRegion_hole_round self hL T.forest hspace hx D (blockHeight_of_seek hs) hnot
          acc).imp_right Or.inr
  · -- the addition overflows
    intro x w hx D hB hover
    refine iff_of_true (fun u hu => D.query_eq hL self T.forest hu) ?_
    have hno : ¬ (B.overflowChecks = true → v.toNat + x < 2 ^ 64) := fun h => by
      have := h hB
      omega
    exact (protectStaysInside_iff_of_stop self hL D fun _ h => absurd h hno).mpr
      fun _ h => absurd h hno
  · intro w D hno
    refine iff_of_true (fun u hu => D.query_eq hL self T.forest hu) ?_
    exact (protectStaysInside_iff_of_stop self hL D fun hx => absurd hx (by omega)).mpr
      fun hx => absurd hx (by omega)

end Protect

/-- In every state of a run that keeps the leaves, `unmap_region` and `protect_region` change
nothing outside their region exactly when they reach no block there that they change. -/
theorem Arch.regionCalls_stay_inside_iff (arch : Arch) {H : PagingHandler 64 σ}
    {inUse : σ → Set PhysAddr} (hH : FreshFrames arch.metaData H inUse)
    {self : PageTable64 B arch.metaData arch.PTE H} {w₀ w₁ : World arch.PTE σ}
    (hnew : PageTable64.tryNew B arch.metaData arch.PTE H w₀ = (.ok self, w₁)) (cs : List Call)
    (hcs : Call.Along (fun w c => c.KeepsLeaves self w) self cs w₁) {w : World arch.PTE σ}
    (hw : w = Call.nextAll self cs w₁) (v : VirtAddr) (size : Usize) (f : MappingFlags 64) :
    (OutsideSame self w v size.toNat (self.unmapRegion v size w).2 ↔
      UnmapStaysInside self w v size.toNat) ∧
    (OutsideSame self w v size.toNat (self.protectRegion v size f w).2 ↔
      ProtectStaysInside self w v size.toNat f) := by
  have G : Guarded arch.metaData inUse self.rootPaddr w := hw ▸ guarded_run self hH hnew cs hcs
  exact ⟨unmapRegion_frame_iff self G.toTree,
    protectRegion_frame_iff self G fun e => arch.debugAssert_of_isHuge e f⟩

/-- The x86_64 table in which a page of 2M at 0x200000 is mapped. -/
theorem Arch.regionCalls_stay_inside_huge :
    let table := firstTable ⟨true, true⟩ X64PagingMetaData X64PTE 8
    let w := Call.nextAll table [.map 0x200000 0x40000000 .size2M .READ] (firstWorld X64PTE)
    (OutsideSame table w 0x200000 0x1000 (table.unmapRegion 0x200000 0x1000 w).2 ↔
      UnmapStaysInside table w 0x200000 0x1000) ∧
    (OutsideSame table w 0x200000 0x1000 (table.protectRegion 0x200000 0x1000 .READ w).2 ↔
      ProtectStaysInside table w 0x200000 0x1000 .READ) :=
  Arch.regionCalls_stay_inside_iff .x64
    (freshFrames_bumpHandler (by decide) (by decide) : FreshFrames _ (bumpHandler 8) bumped)
    (tryNew_blankWorld 7) [.map 0x200000 0x40000000 .size2M .READ]
    ⟨Call.keepsLeaves_of_flagsIn _ _ (Or.inr rfl), trivial⟩ rfl 0x200000 0x1000 .READ

/-- In that table, unmapping the first 4K of the page unmaps all of it. -/
theorem unmapRegion_reaches_outside :
    let table := firstTable ⟨true, true⟩ X64PagingMetaData X64PTE 8
    let w := Call.nextAll table [.map 0x200000 0x40000000 .size2M .READ] (firstWorld X64PTE)
    ¬ InRegion X64PagingMetaData 0x200000 0x1000 0x201000 ∧
      (table.query 0x201000 w).1 = .ok (0x40001000, .READ, .size2M) ∧
      (table.query 0x201000 (table.unmapRegion 0x200000 0x1000 w).2).1 = .err .notMapped := by
  refine ⟨?_, by decide +kernel, by decide +kernel⟩
  rintro ⟨x, hx, hmod⟩
  have hspace : X64PagingMetaData.space = 2 ^ 48 := rfl
  have hv : (0x200000 : VirtAddr).toNat = 0x200000 := rfl
  have hu : (0x201000 : VirtAddr).toNat = 0x201000 := rfl
  rw [hspace, hv, hu] at hmod
  omega

end PageTableMultiarch
