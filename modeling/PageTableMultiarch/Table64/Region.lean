/-
Regions of the address space.

The region methods work through `[v, v + n)` page by page.  Addresses count modulo the
size of the address space, so a region is an interval modulo `2 ^ (12 + 9 * LEVELS)`
(`InRegion`), and the page of an aligned address is such an interval as well.

* `samePage_iff_inRegion` — the page of an aligned address;
* `Tree.seek_store_found` — a store that leaves a huge entry huge changes no walk.
-/
import PageTableMultiarch.Table64.Run
import PageTableMultiarch.Lib.Cyclic

namespace PageTableMultiarch

open GenericPTE Radix Cyclic

variable {B : Build} {M : PagingMetaData} {PTE σ : Type} {H : PagingHandler 64 σ}

/-- The address lies in the region of `n` bytes from `v`. -/
def InRegion (M : PagingMetaData) (v : VirtAddr) (n : ℕ) (v' : VirtAddr) : Prop :=
  Within M.space v.toNat n v'.toNat

/-- The address `x` bytes into a region. -/
theorem toNat_add_ofNat {v : VirtAddr} {x n : ℕ} (hno : v.toNat + n < 2 ^ 64) (hx : x ≤ n) :
    (v + BitVec.ofNat 64 x).toNat = v.toNat + x := by
  rw [BitVec.toNat_add, BitVec.toNat_ofNat, Nat.mod_eq_of_lt (show x < 2 ^ 64 by omega),
    Nat.mod_eq_of_lt (by omega)]

/-- The same modulo a block size, also where the address wraps around. -/
theorem toNat_add_ofNat_mod (v : VirtAddr) (x : ℕ) {d : ℕ} (hd : d ∣ 2 ^ 64) :
    (v + BitVec.ofNat 64 x).toNat % d = (v.toNat + x) % d := by
  rw [BitVec.toNat_add, BitVec.toNat_ofNat, Nat.add_mod_mod, Nat.mod_mod_of_dvd _ hd]

theorem space_dvd (hL : M.LEVELS = 3 ∨ M.LEVELS = 4) : M.space ∣ 2 ^ 64 :=
  Nat.pow_dvd_pow 2 (by rcases hL with h | h <;> omega)

/-- A region that starts inside another one. -/
theorem inRegion_add (hL : M.LEVELS = 3 ∨ M.LEVELS = 4) {v v' : VirtAddr} {x n : ℕ} :
    InRegion M (v + BitVec.ofNat 64 x) n v' ↔ Within M.space (v.toNat + x) n v'.toNat :=
  within_congr (toNat_add_ofNat_mod v x (space_dvd hL))

/-- The rest of a region after `x` bytes. -/
theorem toNat_sub_ofNat {size : Usize} {x : ℕ} (hx : x ≤ size.toNat) :
    (size - BitVec.ofNat 64 x).toNat = size.toNat - x := by
  have := size.isLt
  have hxnat : (BitVec.ofNat 64 x).toNat = x := by
    rw [BitVec.toNat_ofNat, Nat.mod_eq_of_lt (by omega)]
  rw [BitVec.toNat_sub_of_le (by rw [BitVec.le_def, hxnat]; exact hx), hxnat]

/-- The assertions of a round hold when the page is aligned and fits. -/
theorem assertStep_ok {S : Type} {k : ℕ} (hk : k ≤ 2) {v : VirtAddr} {size : Usize}
    (hv : v.toNat % 2 ^ (12 + 9 * k) = 0) (hsize : 2 ^ (12 + 9 * k) ≤ size.toNat) (s : S) :
    assertStep (heightSize k) v size s = (.ok (heightSize k), s) := by
  rw [assertStep_apply, if_pos]
  refine ⟨(PageSize.isAligned_iff (by decide) _ _).mpr (by rwa [bytes_heightSize hk]), ?_⟩
  rwa [BitVec.le_def, PageSize.toNat_toUsize (by decide), bytes_heightSize hk]

theorem assertStep_panic {S : Type} {k : ℕ} (hk : k ≤ 2) {v : VirtAddr} {size : Usize}
    (h : ¬ (v.toNat % 2 ^ (12 + 9 * k) = 0 ∧ 2 ^ (12 + 9 * k) ≤ size.toNat)) (s : S) :
    assertStep (heightSize k) v size s = (.panic, s) := by
  rw [assertStep_apply, if_neg]
  rintro ⟨hv, hsize⟩
  refine h ⟨?_, ?_⟩
  · rw [← bytes_heightSize hk]
    exact (PageSize.isAligned_iff (by decide) _ _).mp hv
  · rwa [BitVec.le_def, PageSize.toNat_toUsize (by decide), bytes_heightSize hk] at hsize

theorem two_pow_dvd_space (hL : M.LEVELS = 3 ∨ M.LEVELS = 4) {k : ℕ} (hk : k ≤ 2) :
    2 ^ (12 + 9 * k) ∣ M.space :=
  Nat.pow_dvd_pow 2 (by rcases hL with h | h <;> omega)

/-- The page of an aligned address is the region that starts there. -/
theorem samePage_iff_inRegion (hL : M.LEVELS = 3 ∨ M.LEVELS = 4) {k : ℕ} (hk : k ≤ 2)
    {v v' : VirtAddr} (hv : v.toNat % 2 ^ (12 + 9 * k) = 0) :
    SamePage M k v v' ↔ InRegion M v (2 ^ (12 + 9 * k)) v' := by
  rw [samePage_iff hL hk, InRegion,
    within_block_iff (Nat.two_pow_pos _) (two_pow_dvd_space hL hk) (Nat.dvd_of_mod_eq_zero hv)]

/-- The page of an aligned place in a region. -/
theorem samePage_iff_within (hL : M.LEVELS = 3 ∨ M.LEVELS = 4) {k : ℕ} (hk : k ≤ 2)
    {v v' : VirtAddr} {x : ℕ} (hx : (v.toNat + x) % 2 ^ (12 + 9 * k) = 0) :
    SamePage M k (v + BitVec.ofNat 64 x) v' ↔
      Within M.space (v.toNat + x) (2 ^ (12 + 9 * k)) v'.toNat := by
  rw [← inRegion_add hL]
  refine samePage_iff_inRegion hL hk ?_
  rw [toNat_add_ofNat_mod v x (Nat.pow_dvd_pow 2 (by omega)), hx]

/-- The places of the page of an aligned place in a region. -/
theorem samePage_add (hL : M.LEVELS = 3 ∨ M.LEVELS = 4) {k : ℕ} (hk : k ≤ 2) {v : VirtAddr}
    {x z : ℕ} (hx : (v.toNat + x) % 2 ^ (12 + 9 * k) = 0) (hxz : x ≤ z)
    (hz : z < x + 2 ^ (12 + 9 * k)) :
    SamePage M k (v + BitVec.ofNat 64 x) (v + BitVec.ofNat 64 z) := by
  refine (samePage_iff_within hL hk hx).mpr ⟨z - x, by omega, ?_⟩
  rw [toNat_add_ofNat_mod v z (space_dvd hL), Nat.add_assoc, Nat.add_sub_cancel' hxz]

/-- Addresses of one page of height `k` differ by less than the page, unless they wrap. -/
theorem samePage_of_lt (hL : M.LEVELS = 3 ∨ M.LEVELS = 4) {k : ℕ} (hk : k ≤ 2)
    {v v' : VirtAddr} (h : v.toNat / 2 ^ (12 + 9 * k) = v'.toNat / 2 ^ (12 + 9 * k)) :
    SamePage M k v v' := by
  obtain ⟨q, hq⟩ := two_pow_dvd_space hL hk
  rw [samePage_iff hL hk, hq, Nat.mod_mul_right_div_self, Nat.mod_mul_right_div_self, h]

/-- Addresses of one 4K page have the same path. -/
theorem SamePage.vpath_eq (hL : M.LEVELS = 3 ∨ M.LEVELS = 4) {v v' : VirtAddr}
    (h : SamePage M 0 v v') : vpath M v = vpath M v' := by
  rw [SamePage, Nat.sub_zero, List.take_of_length_le (length_vpath hL v).le,
    List.take_of_length_le (length_vpath hL v').le] at h
  exact h

/-- An address of a region has the path of the address at its place in the region. -/
theorem vpath_of_mod (hL : M.LEVELS = 3 ∨ M.LEVELS = 4) {v v' : VirtAddr} {z : ℕ}
    (h : v'.toNat % M.space = (v.toNat + z) % M.space) :
    vpath M v' = vpath M (v + BitVec.ofNat 64 z) := by
  refine SamePage.vpath_eq hL ((samePage_iff hL (Nat.zero_le _)).mpr ?_)
  rw [h, toNat_add_ofNat_mod v z (space_dvd hL)]

variable [GenericPTE 64 PTE] {root : PhysAddr} {inUse : σ → Set PhysAddr} {w : World PTE σ}

/-- The walks to the addresses of the page that the walk finds end at the same entry. -/
theorem seek_samePage (hL : M.LEVELS = 3 ∨ M.LEVELS = 4)
    {m : PhysAddr → Fin ENTRY_COUNT → PTE} {v v' : VirtAddr} {slot : Slot} {k : ℕ}
    (h : seek m root (vpath M v) = .ok (slot, k)) (hs : SamePage M k v v') :
    seek m root (vpath M v') = .ok (slot, k) := by
  obtain ⟨hslot, hk, hh⟩ := slotAt_of_seek hL h
  obtain ⟨τ, hτ, rfl⟩ := hs.exists_append hL (by omega)
  have hcases : τ = [] ∨ τ.length ≤ 2 ∧ isHuge (m slot.table slot.index) = true := by
    rcases Nat.eq_zero_or_pos τ.length with h0 | h0
    · exact Or.inl (List.length_eq_zero_iff.mp h0)
    · exact Or.inr ⟨hk, hh h0⟩
  rw [hτ]
  exact (hslot.seek_append (hcases.imp_right fun h => child_of_isHuge h.2)).1 hcases

/-- A store at the entry that a walk finds changes no walk of another page. -/
theorem Tree.seek_store_of_not_samePage [LawfulPTE M PTE] (T : Tree M inUse root w) {v : VirtAddr}
    {slot : Slot} {k : ℕ} (h : seek w.mem root (vpath M v) = .ok (slot, k)) (e : PTE)
    {v' : VirtAddr} (hno : ¬ SamePage M k v v') :
    seek (w.store slot e).mem root (vpath M v') = seek w.mem root (vpath M v') := by
  have hL := LawfulPTE.levels (M := M) PTE
  obtain ⟨hslot, hk, -⟩ := slotAt_of_seek hL h
  have hlen : (pathTo M k v).length ≤ M.LEVELS - 1 + 1 := by
    rw [length_pathTo hL]
    omega
  exact seek_set_of_not_prefix T.forest hslot hlen e (by rw [length_vpath hL]; omega)
    fun hpre => hno ((pathTo_prefix_iff hL).mp hpre)

/-- A store that leaves a huge entry huge changes no walk. -/
theorem Tree.seek_store_found [LawfulPTE M PTE] (T : Tree M inUse root w) {v : VirtAddr}
    {slot : Slot} {k : ℕ} (h : seek w.mem root (vpath M v) = .ok (slot, k)) {e : PTE}
    (he : k = 0 ∨ isHuge e = true) (v' : VirtAddr) :
    seek (w.store slot e).mem root (vpath M v') = seek w.mem root (vpath M v') := by
  have hL := LawfulPTE.levels (M := M) PTE
  obtain ⟨hslot, hk, -⟩ := slotAt_of_seek hL h
  have hlen : (pathTo M k v).length ≤ M.LEVELS - 1 + 1 := by
    rw [length_pathTo hL]
    omega
  by_cases hs : SamePage M k v v'
  · rw [seek_samePage hL h hs]
    obtain ⟨τ, hτ, rfl⟩ := hs.exists_append hL (by omega)
    have hnew : isHuge ((w.store slot e).mem slot.table slot.index) = isHuge e := by
      rw [World.store_mem, set_self]
    have hcases : τ = [] ∨
        τ.length ≤ 2 ∧ isHuge ((w.store slot e).mem slot.table slot.index) = true := by
      rw [hnew]
      exact he.imp List.length_eq_zero_iff.mp fun h => ⟨hk, h⟩
    rw [hτ]
    exact ((hslot.set T.forest hlen e).seek_append
      (hcases.imp_right fun h => child_of_isHuge h.2)).1 hcases
  · exact T.seek_store_of_not_samePage h e hs

end PageTableMultiarch
