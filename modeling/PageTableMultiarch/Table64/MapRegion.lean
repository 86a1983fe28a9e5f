/-
`map_region`.

The loop picks a page size at every address and maps one page.  Whatever it picks, the
address `z` bytes into the region ends up at the physical address that plain 4K pages
give it (`regionTarget`), so the effect does not depend on `allow_huge`.

* `regionPageSize_spec` — the page picked is aligned and fits in the rest of the region;
* `mapRegion_run` — after a call that stops after `k` bytes exactly the first `k` bytes of
  the region are newly mapped;
* `Arch.mapRegion_correct` — the same for the answers of `query`, for every architecture.
-/
import PageTableMultiarch.Table64.Region
import PageTableMultiarch.Table64.Remap

namespace PageTableMultiarch

open GenericPTE Radix Cyclic

variable {B : Build} {M : PagingMetaData} {PTE σ : Type} {H : PagingHandler 64 σ}
  [GenericPTE 64 PTE]

/-- Over the first `n` bytes from `v` the physical addresses are the virtual ones plus a
constant, and they are valid. -/
def LinearOn (M : PagingMetaData) (v : VirtAddr) (n : ℕ) (getPaddr : VirtAddr → PhysAddr) : Prop :=
  ∃ c, ∀ x < n, getPaddr (v + BitVec.ofNat 64 x) = v + BitVec.ofNat 64 x + c ∧
    (getPaddr (v + BitVec.ofNat 64 x)).toNat ≤ M.PA_MAX_ADDR

/-- The physical address for the address `z` bytes into the region:
`align_down(get_paddr(align_down(v + z, 4K)), 4K) + (v + z) % 4K`. -/
def regionTarget (v : VirtAddr) (getPaddr : VirtAddr → PhysAddr) (z : ℕ) : PhysAddr :=
  MemoryAddr.alignDown (getPaddr (MemoryAddr.alignDown (v + BitVec.ofNat 64 z)
    (PageSize.size4K.toUsize 64))) (PageSize.size4K.toUsize 64) +
    PageSize.size4K.alignOffset (v + BitVec.ofNat 64 z)

/-- Exactly the first `n` bytes of a region are newly mapped: nothing was mapped there,
`query` now gives the targets and the flags, and elsewhere its answers are as before. -/
def NewlyMapped (self : PageTable64 B M PTE H) (w w' : World PTE σ) (v : VirtAddr)
    (getPaddr : VirtAddr → PhysAddr) (f : MappingFlags 64) (n : ℕ) : Prop :=
  ∀ v', (∀ z < n, v'.toNat % M.space = (v.toNat + z) % M.space →
      (self.query v' w).1 = .err .notMapped ∧
        ∃ s, (self.query v' w').1 = .ok (regionTarget v getPaddr z, normalise PTE f, s)) ∧
    (¬ InRegion M v n v' → (self.query v' w').1 = (self.query v' w).1)

/-- What a call of `map_region` does: it fails at once if the region is not aligned; it
maps the region; or it fails after `k` bytes, which are then mapped. -/
def MapsRegion (self : PageTable64 B M PTE H) (w : World PTE σ) (v : VirtAddr)
    (getPaddr : VirtAddr → PhysAddr) (size : Usize) (f : MappingFlags 64) (allowHuge : Bool) :
    Prop :=
  let r := self.mapRegion v getPaddr size f allowHuge w
  if v.toNat % 0x1000 = 0 ∧ size.toNat % 0x1000 = 0 then
    r.1 = .ok () ∧ NewlyMapped self w r.2 v getPaddr f size.toNat ∨
      ∃ e k, r.1 = .err e ∧ k < size.toNat ∧ NewlyMapped self w r.2 v getPaddr f k
  else r = (.err .notAligned, w)

/-! ### The page size -/

/-- The page picked is aligned and fits, and the physical address is aligned to it unless
it is a 4K page. -/
theorem regionPageSize_spec (v : VirtAddr) (p : PhysAddr) (size : Usize) (allowHuge : Bool)
    (hv : v.toNat % 0x1000 = 0) (hsize : 0x1000 ≤ size.toNat) :
    PageTable64.regionPageSize v p size allowHuge ≠ .size1M ∧
      v.toNat % (PageTable64.regionPageSize v p size allowHuge).bytes = 0 ∧
      (PageTable64.regionPageSize v p size allowHuge).bytes ≤ size.toNat ∧
      (PageTable64.regionPageSize v p size allowHuge = .size4K ∨
        p.toNat % (PageTable64.regionPageSize v p size allowHuge).bytes = 0) := by
  have hcond : ∀ s : PageSize, (s.isAligned v && MemoryAddr.isAligned p (s.toUsize 64)
      && decide (s.toUsize 64 ≤ size)) = true ↔
      v.toNat % s.bytes = 0 ∧ p.toNat % s.bytes = 0 ∧ s.bytes ≤ size.toNat := by
    intro s
    rw [Bool.and_eq_true, Bool.and_eq_true, decide_eq_true_eq, ← PageSize.isAligned,
      PageSize.isAligned_iff (by decide), PageSize.isAligned_iff (by decide), BitVec.le_def,
      PageSize.toNat_toUsize (by decide), and_assoc]
  have h4K : (PageSize.size4K : PageSize) ≠ .size1M ∧ v.toNat % PageSize.size4K.bytes = 0 ∧
      PageSize.size4K.bytes ≤ size.toNat ∧
      ((PageSize.size4K : PageSize) = .size4K ∨ p.toNat % PageSize.size4K.bytes = 0) :=
    ⟨by decide, hv, hsize, Or.inl rfl⟩
  rw [PageTable64.regionPageSize]
  split
  · split
    · next h1G =>
      obtain ⟨hv', hp', hs'⟩ := (hcond .size1G).mp h1G
      exact ⟨by decide, hv', hs', Or.inr hp'⟩
    · split
      · next h2M =>
        obtain ⟨hv', hp', hs'⟩ := (hcond .size2M).mp h2M
        exact ⟨by decide, hv', hs', Or.inr hp'⟩
      · exact h4K
  · exact h4K

/-! ### The physical addresses -/

/-- Inside a region the physical addresses advance with the virtual ones. -/
theorem LinearOn.add {v : VirtAddr} {n x y : ℕ} {getPaddr : VirtAddr → PhysAddr}
    (h : LinearOn M v n getPaddr) (hxy : x ≤ y) (hy : y < n) :
    getPaddr (v + BitVec.ofNat 64 y) =
      getPaddr (v + BitVec.ofNat 64 x) + BitVec.ofNat 64 (y - x) := by
  obtain ⟨c, hc⟩ := h
  rw [(hc y hy).1, (hc x (by omega)).1]
  have hsplit : BitVec.ofNat 64 y = BitVec.ofNat 64 x + BitVec.ofNat 64 (y - x) := by
    rw [← BitVec.ofNat_add, Nat.add_sub_cancel' hxy]
  rw [hsplit]
  ac_rfl

/-- The address `z` bytes into the region lies in the page picked `x` bytes into it: that
page puts it where 4K pages would. -/
theorem page_target (hL : M.LEVELS = 3 ∨ M.LEVELS = 4) (hbits : M.PA_MAX_BITS ≤ 56)
    {v v' : VirtAddr} {n x z : ℕ} {getPaddr : VirtAddr → PhysAddr} (h : LinearOn M v n getPaddr)
    (hno : v.toNat + n < 2 ^ 64) (hv : v.toNat % 0x1000 = 0) (hx : x % 0x1000 = 0) {s : PageSize}
    (hs : s ≠ .size1M) (hstart : (v.toNat + x) % s.bytes = 0) (hxz : x ≤ z)
    (hzs : z < x + s.bytes) (hzn : z < n)
    (hp : s = .size4K ∨ (getPaddr (v + BitVec.ofNat 64 x)).toNat % s.bytes = 0)
    (hv' : v'.toNat % M.space = (v.toNat + z) % M.space) :
    MemoryAddr.alignDown (MemoryAddr.alignDown (getPaddr (v + BitVec.ofNat 64 x)) (s.toUsize 64))
      (PageSize.size4K.toUsize 64) + s.alignOffset v' = regionTarget v getPaddr z := by
  have hzv := toNat_add_ofNat hno hzn.le
  -- the 4K page of the address
  have hdown : MemoryAddr.alignDown (v + BitVec.ofNat 64 z) (PageSize.size4K.toUsize 64) =
      v + BitVec.ofNat 64 (z - z % 0x1000) := by
    apply BitVec.eq_of_toNat_eq
    rw [PageSize.toNat_alignDown (by decide), hzv, toNat_add_ofNat hno (by omega)]
    simp only [PageSize.bytes]
    omega
  have hbound : (getPaddr (v + BitVec.ofNat 64 x)).toNat ≤ 2 ^ 56 - 1 := by
    obtain ⟨c, hc⟩ := h
    have hle := (hc x (by omega)).2
    have hpow : 2 ^ M.PA_MAX_BITS ≤ 2 ^ 56 := Nat.pow_le_pow_right (by decide) hbits
    rw [PagingMetaData.PA_MAX_ADDR] at hle
    omega
  have hbytes : s.bytes ≤ 2 ^ 30 := by cases s <;> decide
  have hdvd : s.bytes ∣ M.space := by
    rw [← heightSize_height hs, bytes_heightSize s.height_le]
    exact two_pow_dvd_space hL s.height_le
  have hoff : (s.alignOffset v').toNat = z - x := by
    have hmod : v'.toNat % s.bytes = (v.toNat + x + (z - x)) % s.bytes := by
      rw [← Nat.mod_mod_of_dvd _ hdvd, hv', Nat.mod_mod_of_dvd _ hdvd]
      congr 1
      omega
    rw [PageSize.toNat_alignOffset (by decide), hmod, Nat.add_mod, hstart, Nat.zero_add,
      Nat.mod_mod, Nat.mod_eq_of_lt (by omega)]
  rw [regionTarget, hdown, h.add (show x ≤ z - z % 0x1000 by omega) (by omega)]
  have hP : (getPaddr (v + BitVec.ofNat 64 x) + BitVec.ofNat 64 (z - z % 0x1000 - x)).toNat =
      (getPaddr (v + BitVec.ofNat 64 x)).toNat + (z - z % 0x1000 - x) := by
    rw [BitVec.toNat_add, BitVec.toNat_ofNat,
      Nat.mod_eq_of_lt (show z - z % 0x1000 - x < 2 ^ 64 by omega),
      Nat.mod_eq_of_lt (by omega)]
  apply BitVec.eq_of_toNat_eq
  rw [BitVec.toNat_add, BitVec.toNat_add, hoff, PageSize.toNat_alignDown (by decide),
    PageSize.toNat_alignDown (by decide), PageSize.toNat_alignDown (by decide), hP,
    PageSize.toNat_alignOffset (by decide), hzv]
  congr 1
  have hsz : s = .size4K ∨ s = .size2M ∨ s = .size1G := by
    cases s <;> simp_all
  rcases hsz with rfl | rfl | rfl
  · simp only [PageSize.bytes]
    omega
  · have hp' := hp.resolve_left (by decide)
    simp only [PageSize.bytes] at hp' ⊢
    omega
  · have hp' := hp.resolve_left (by decide)
    simp only [PageSize.bytes] at hp' ⊢
    omega

/-- A region that is not aligned is refused at once. -/
theorem mapRegion_not_aligned (self : PageTable64 B M PTE H) {v : VirtAddr} {size : Usize}
    (h : ¬ (v.toNat % 0x1000 = 0 ∧ size.toNat % 0x1000 = 0)) (w : World PTE σ)
    {getPaddr : VirtAddr → PhysAddr} {f : MappingFlags 64} {allowHuge : Bool} :
    self.mapRegion v getPaddr size f allowHuge w = (.err .notAligned, w) := by
  rw [PageTable64.mapRegion, if_pos]
  · rfl
  rw [Bool.or_eq_true, Bool.not_eq_true', Bool.not_eq_true', ← Bool.not_eq_true,
    ← Bool.not_eq_true, PageSize.isAligned_iff (by decide), PageSize.isAligned_iff (by decide),
    ← not_and_or]
  exact h

/-! ### The loop -/

/-- The page of size `s` that starts `x₀` bytes into the region was picked before the first
`x` bytes were done, and holds the address `z` bytes into the region. -/
structure PickedPage (v : VirtAddr) (getPaddr : VirtAddr → PhysAddr) (x : ℕ) (s : PageSize)
    (x₀ z : ℕ) : Prop where
  ne : s ≠ .size1M
  aligned : x₀ % 0x1000 = 0
  start : (v.toNat + x₀) % s.bytes = 0
  le : x₀ ≤ z
  lt : z < x₀ + s.bytes
  fits : x₀ + s.bytes ≤ x
  target : s = .size4K ∨ (getPaddr (v + BitVec.ofNat 64 x₀)).toNat % s.bytes = 0

theorem PickedPage.mono {v : VirtAddr} {getPaddr : VirtAddr → PhysAddr} {x x' : ℕ}
    {s : PageSize} {x₀ z : ℕ} (h : PickedPage v getPaddr x s x₀ z) (hx : x ≤ x') :
    PickedPage v getPaddr x' s x₀ z :=
  ⟨h.ne, h.aligned, h.start, h.le, h.lt, h.fits.trans hx, h.target⟩

/-- The leaf that `map` makes, if its flags make it present. -/
def mappedLeaf (PTE : Type) [GenericPTE 64 PTE] (target : PhysAddr) (s : PageSize)
    (f : MappingFlags 64) : Option (PTE × ℕ) :=
  if presentWith PTE f then
    some (newPage (MemoryAddr.alignDown target (s.toUsize 64)) f s.isHuge, s.height)
  else none

section Lawful

variable [LawfulPTE M PTE] {P : PTE → Prop} {inUse : σ → Set PhysAddr} {w₀ w : World PTE σ}

/-- What holds after the first `x` bytes have been mapped. -/
structure MappedUpTo (P : PTE → Prop) (M : PagingMetaData) (inUse : σ → Set PhysAddr)
    (root : PhysAddr) (v : VirtAddr) (getPaddr : VirtAddr → PhysAddr) (f : MappingFlags 64)
    (w₀ : World PTE σ) (x : ℕ) (w : World PTE σ) : Prop where
  inv : Inv P M inUse root w
  aligned : x % 0x1000 = 0
  le_space : presentWith PTE f = true → x ≤ M.space
  free (v' : VirtAddr) : InRegion M v x v' → leafAt M w₀.mem root v' = none
  pages (v' : VirtAddr) {z : ℕ} : z < x → v'.toNat % M.space = (v.toNat + z) % M.space →
    ∃ s x₀, PickedPage v getPaddr x s x₀ z ∧
      leafAt M w.mem root v' = mappedLeaf PTE (getPaddr (v + BitVec.ofNat 64 x₀)) s f
  frame (v' : VirtAddr) : ¬ InRegion M v x v' →
    leafAt M w.mem root v' = leafAt M w₀.mem root v'

variable (self : PageTable64 B M PTE H) {v : VirtAddr} {size : Usize} {x : ℕ}
  {getPaddr : VirtAddr → PhysAddr} {f : MappingFlags 64}

/-- One round: either it fails and what was mapped stays as it is, or it maps the page
picked. -/
theorem mapRegion_round (hH : FreshFrames M H inUse) (hf : Allowed P f)
    (hv : v.toNat % 0x1000 = 0) (hsize : size.toNat % 0x1000 = 0) (hx : x < size.toNat)
    (I : MappedUpTo P M inUse self.rootPaddr v getPaddr f w₀ x w) (allowHuge : Bool) :
    (∃ ps w', self.mapRegionStep getPaddr f allowHuge (v + BitVec.ofNat 64 x)
        (size - BitVec.ofNat 64 x) w = (.ok ps, w') ∧ x + ps.bytes ≤ size.toNat ∧
        MappedUpTo P M inUse self.rootPaddr v getPaddr f w₀ (x + ps.bytes) w') ∨
      ∃ e w', self.mapRegionStep getPaddr f allowHuge (v + BitVec.ofNat 64 x)
        (size - BitVec.ofNat 64 x) w = (.err e, w') ∧
        MappedUpTo P M inUse self.rootPaddr v getPaddr f w₀ x w' := by
  have hL := LawfulPTE.levels (M := M) PTE
  have halign := I.aligned
  have hrest := toNat_sub_ofNat hx.le
  obtain ⟨hs1M, hstart, hfit, hpaligned⟩ := regionPageSize_spec (v + BitVec.ofNat 64 x)
    (getPaddr (v + BitVec.ofNat 64 x)) (size - BitVec.ofNat 64 x) allowHuge
    (by rw [toNat_add_ofNat_mod v x (by decide)]; omega) (by rw [hrest]; omega)
  set s := PageTable64.regionPageSize (v + BitVec.ofNat 64 x)
    (getPaddr (v + BitVec.ofNat 64 x)) (size - BitVec.ofNat 64 x) allowHuge
  have hbytes : 2 ^ (12 + 9 * s.height) = s.bytes := by
    rw [← bytes_heightSize s.height_le, heightSize_height hs1M]
  have hheight := s.height_le
  rw [toNat_add_ofNat_mod v x (by rw [← hbytes]; exact Nat.pow_dvd_pow 2 (by omega))] at hstart
  have hfit' : x + s.bytes ≤ size.toNat := by omega
  have hinv : Inv P M inUse self.rootPaddr
      (self.map (v + BitVec.ofNat 64 x) (getPaddr (v + BitVec.ofNat 64 x)) s f w).2 :=
    Call.inv hH self I.inv (.map _ _ s f) hf
  have hmap := map_leaf self I.inv hH (getPaddr (v + BitVec.ofNat 64 x)) s hf.accepted
    (v + BitVec.ofNat 64 x)
  obtain ⟨r, w', hr⟩ : ∃ r w', self.map (v + BitVec.ofNat 64 x)
      (getPaddr (v + BitVec.ofNat 64 x)) s f w = (r, w') := ⟨_, _, rfl⟩
  rw [hr] at hinv hmap
  obtain ⟨⟨err, herr⟩, hleaf⟩ | ⟨hok, hfree, hleaf⟩ := hmap
  · -- a failed `map` changes no leaf
    obtain rfl : r = .err err := herr
    have hstep : self.mapRegionStep getPaddr f allowHuge (v + BitVec.ofNat 64 x)
        (size - BitVec.ofNat 64 x) w = (.err err, w') := Op.bind_err hr
    refine Or.inr ⟨err, w', hstep, hinv, halign, I.le_space, I.free, fun v' z hz hv' => ?_,
      fun v' hout => ?_⟩
    · rw [hleaf]
      exact I.pages v' hz hv'
    · rw [hleaf]
      exact I.frame v' hout
  · obtain rfl : r = .ok () := hok
    have hstep : self.mapRegionStep getPaddr f allowHuge (v + BitVec.ofNat 64 x)
        (size - BitVec.ofNat 64 x) w = (.ok s, w') := Op.bind_ok hr
    refine Or.inl ⟨s, w', hstep, hfit', ?_⟩
    have hpage : ∀ v', SamePage M s.height (v + BitVec.ofNat 64 x) v' ↔
        Within M.space (v.toNat + x) s.bytes v'.toNat := by
      intro v'
      rw [← hbytes]
      exact samePage_iff_within hL s.height_le (by rw [hbytes]; exact hstart)
    have hsplit : ∀ v', InRegion M v (x + s.bytes) v' ↔
        InRegion M v x v' ∨ SamePage M s.height (v + BitVec.ofNat 64 x) v' := by
      intro v'
      rw [hpage, InRegion, InRegion]
      exact within_add
    -- a page that is present after it is mapped was not mapped before
    have hapart : presentWith PTE f = true → ∀ v',
        SamePage M s.height (v + BitVec.ofNat 64 x) v' → ¬ InRegion M v x v' := by
      intro hpresent v' hsame hin
      obtain ⟨z, hz, hv'⟩ := hin
      obtain ⟨s', x₀, -, hleaf'⟩ := I.pages v' hz hv'
      rw [hfree v' hsame, mappedLeaf, if_pos hpresent] at hleaf'
      exact absurd hleaf' (by simp)
    have h4K := Nat.mod_eq_zero_of_dvd s.four_k_dvd_bytes
    have hspos := s.bytes_pos
    refine ⟨hinv, by omega, fun hpresent => ?_, fun v' hin => ?_, fun v' z hz hv' => ?_,
      fun v' hout => ?_⟩
    · -- otherwise the page would come round to the start of the region
      by_contra hc
      have hxspace := I.le_space hpresent
      have hsmall : s.bytes ≤ M.space := by
        rw [← hbytes]
        exact Nat.le_of_dvd (Nat.two_pow_pos _) (two_pow_dvd_space hL s.height_le)
      refine hapart hpresent v ((hpage v).mpr ⟨M.space - x, by omega, ?_⟩)
        ⟨0, by omega, by rw [Nat.add_zero]⟩
      rw [Nat.add_assoc, Nat.add_sub_cancel' hxspace, Nat.add_mod_right]
    · by_cases hin' : InRegion M v x v'
      · exact I.free v' hin'
      · rw [← I.frame v' hin']
        exact hfree v' (((hsplit v').mp hin).resolve_left hin')
    · by_cases hsame : SamePage M s.height (v + BitVec.ofNat 64 x) v'
      · rw [hleaf, if_pos hsame]
        rcases Nat.lt_or_ge z x with hzx | hxz
        · -- the page came round: then its leaves are not present
          obtain ⟨s', x₀, hpicked, -⟩ := I.pages v' hzx hv'
          have habsent : ¬ presentWith PTE f = true := fun hpresent =>
            hapart hpresent v' hsame ⟨z, hzx, hv'⟩
          refine ⟨s', x₀, hpicked.mono (by omega), ?_⟩
          rw [mappedLeaf, if_neg habsent, if_neg habsent]
        · exact ⟨s, x, ⟨hs1M, halign, hstart, hxz, hz, le_rfl, hpaligned⟩, rfl⟩
      · have hzx : z < x := by
          by_contra hc
          refine hsame ((hpage v').mpr ⟨z - x, by omega, ?_⟩)
          rw [hv']
          congr 1
          omega
        obtain ⟨s', x₀, hpicked, hleaf'⟩ := I.pages v' hzx hv'
        rw [hleaf, if_neg hsame]
        exact ⟨s', x₀, hpicked.mono (by omega), hleaf'⟩
    · rw [hleaf, if_neg fun hsame => hout ((hsplit v').mpr (Or.inr hsame))]
      exact I.frame v' fun hin => hout ((hsplit v').mpr (Or.inl hin))

/-- The loop maps the region, or it fails when exactly the first `k` bytes are mapped, or
it panics because the address overflows. -/
theorem mapRegion_run (hH : FreshFrames M H inUse) (hf : Allowed P f)
    (hv : v.toNat % 0x1000 = 0) (hsize : size.toNat % 0x1000 = 0)
    (I : Inv P M inUse self.rootPaddr w₀) (allowHuge : Bool) :
    (self.mapRegion v getPaddr size f allowHuge w₀).1 = .ok () ∧
        (B.overflowChecks = true → v.toNat + size.toNat < 2 ^ 64) ∧
        MappedUpTo P M inUse self.rootPaddr v getPaddr f w₀ size.toNat
          (self.mapRegion v getPaddr size f allowHuge w₀).2 ∨
      (∃ e k, (self.mapRegion v getPaddr size f allowHuge w₀).1 = .err e ∧ k < size.toNat ∧
        MappedUpTo P M inUse self.rootPaddr v getPaddr f w₀ k
          (self.mapRegion v getPaddr size f allowHuge w₀).2) ∨
      (self.mapRegion v getPaddr size f allowHuge w₀).1 = .panic ∧
        2 ^ 64 ≤ v.toNat + size.toNat := by
  have haligned : ¬ ((!PageSize.size4K.isAligned v || !PageSize.size4K.isAligned size) = true) := by
    rw [(PageSize.isAligned_iff (by decide) .size4K v).mpr hv,
      (PageSize.isAligned_iff (by decide) .size4K size).mpr hsize]
    simp
  rw [PageTable64.mapRegion, if_neg haligned]
  refine regionLoop_wrap_rule (by decide) (I := MappedUpTo P M inUse self.rootPaddr v getPaddr f w₀)
    (Q := fun r w => r = .ok () ∧ (B.overflowChecks = true → v.toNat + size.toNat < 2 ^ 64) ∧
        MappedUpTo P M inUse self.rootPaddr v getPaddr f w₀ size.toNat w ∨
      (∃ e k, r = .err e ∧ k < size.toNat ∧
        MappedUpTo P M inUse self.rootPaddr v getPaddr f w₀ k w) ∨
      r = .panic ∧ 2 ^ 64 ≤ v.toNat + size.toNat) ?_ ?_ ?_ ?_
  · intro x w hx _ Ix
    rcases mapRegion_round self hH hf hv hsize hx Ix allowHuge with h | ⟨e, w', hr, Iw'⟩
    · exact Or.inl h
    · exact Or.inr (Or.inl ⟨e, w', hr, Or.inr (Or.inl ⟨e, x, rfl, hx, Iw'⟩)⟩)
  · intro x w hx _ _ hover
    exact Or.inr (Or.inr ⟨rfl, by omega⟩)
  · intro w Iend hno
    exact Or.inl ⟨rfl, hno, Iend⟩
  · refine ⟨I, rfl, fun _ => Nat.zero_le _, fun v' hin => absurd hin not_within_zero,
      fun v' z hz => absurd hz (by omega), fun v' _ => rfl⟩

/-- A call that succeeds has mapped the region. -/
theorem mapRegion_ok (hH : FreshFrames M H inUse) (hf : Allowed P f)
    (I : Inv P M inUse self.rootPaddr w₀) {allowHuge : Bool}
    (h : (self.mapRegion v getPaddr size f allowHuge w₀).1 = .ok ()) :
    (B.overflowChecks = true → v.toNat + size.toNat < 2 ^ 64) ∧
      MappedUpTo P M inUse self.rootPaddr v getPaddr f w₀ size.toNat
        (self.mapRegion v getPaddr size f allowHuge w₀).2 := by
  by_cases haligned : v.toNat % 0x1000 = 0 ∧ size.toNat % 0x1000 = 0
  · obtain ⟨-, h'⟩ | ⟨e, k, herr, -⟩ | ⟨hpanic, -⟩ :=
      mapRegion_run self hH hf haligned.1 haligned.2 I allowHuge
    · exact h'
    · exact absurd (h.symm.trans herr) (by simp)
    · exact absurd (h.symm.trans hpanic) (by simp)
  · rw [mapRegion_not_aligned self haligned] at h
    exact absurd h (by simp)

/-- The pages mapped so far, as answers of `query`. -/
theorem MappedUpTo.newlyMapped (hf : Readable f) (hlin : LinearOn M v size.toNat getPaddr)
    (hno : v.toNat + size.toNat < 2 ^ 64) (hv : v.toNat % 0x1000 = 0) (hx : x ≤ size.toNat)
    (I : Inv P M inUse self.rootPaddr w₀)
    (h : MappedUpTo P M inUse self.rootPaddr v getPaddr f w₀ x w) :
    NewlyMapped self w₀ w v getPaddr f x := by
  have hL := LawfulPTE.levels (M := M) PTE
  intro v'
  rw [query_leaf self I, query_leaf self h.inv]
  refine ⟨fun z hz hv' => ?_, fun hout => by rw [h.frame v' hout]⟩
  obtain ⟨s, x₀, hpicked, hleaf⟩ := h.pages v' hz hv'
  have hfits := hpicked.fits
  have hspos := s.bytes_pos
  rw [mappedLeaf, if_pos (LawfulPTE.presentWith_read M hf)] at hleaf
  have hpa : (MemoryAddr.alignDown (getPaddr (v + BitVec.ofNat 64 x₀))
      (s.toUsize 64)).toNat ≤ M.PA_MAX_ADDR := by
    obtain ⟨c, hc⟩ := hlin
    have := (hc x₀ (by omega)).2
    rw [PageSize.toNat_alignDown (by decide)]
    omega
  rw [h.free v' ⟨z, hz, hv'⟩, hleaf]
  refine ⟨rfl, s, ?_⟩
  simp only [LawfulPTE.flags_newPage M, LawfulPTE.paddr_newPage f _ hpa,
    heightSize_height hpicked.ne]
  rw [page_target hL (LawfulPTE.pa_bits PTE) hlin hno hv hpicked.aligned hpicked.ne hpicked.start
    hpicked.le hpicked.lt (by omega) hpicked.target hv']

/-- `map_region` fails at once, maps the region, or fails part of the way. -/
theorem mapRegion_maps (hH : FreshFrames M H inUse) (hf : Readable f)
    (hlin : LinearOn M v size.toNat getPaddr) (hno : v.toNat + size.toNat < 2 ^ 64)
    (I : Inv (fun e : PTE => isPresent e = true) M inUse self.rootPaddr w₀) (allowHuge : Bool) :
    MapsRegion self w₀ v getPaddr size f allowHuge := by
  rw [MapsRegion]
  split
  · next haligned =>
    obtain ⟨hv, hsize⟩ := haligned
    rcases mapRegion_run self hH (allowed_read M hf) hv hsize I allowHuge with
      ⟨hok, -, h⟩ | ⟨e, k, herr, hk, h⟩ | ⟨-, hover⟩
    · exact Or.inl ⟨hok, h.newlyMapped self hf hlin hno hv le_rfl I⟩
    · exact Or.inr ⟨e, k, herr, hk, h.newlyMapped self hf hlin hno hv hk.le I⟩
    · omega
  · next hmis => exact mapRegion_not_aligned self hmis w₀

end Lawful

/-- `map_region` is correct, with huge pages and without. -/
theorem Arch.mapRegion_correct (arch : Arch) {H : PagingHandler 64 σ} {inUse : σ → Set PhysAddr}
    (hH : FreshFrames arch.metaData H inUse) {self : PageTable64 B arch.metaData arch.PTE H}
    {w : World arch.PTE σ} (hw : Reachable Readable self w) (v : VirtAddr) (size : Usize)
    {f : MappingFlags 64} (hf : Readable f) {getPaddr : VirtAddr → PhysAddr}
    (hlin : LinearOn arch.metaData v size.toNat getPaddr) (hno : v.toNat + size.toNat < 2 ^ 64)
    (allowHuge : Bool) : MapsRegion self w v getPaddr size f allowHuge :=
  PageTableMultiarch.mapRegion_maps self hH hf hlin hno
    (hw.inv hH self fun _ hf => allowed_read arch.metaData hf) allowHuge

/-- A region of 4K and 2M pages in a new table of x86_64. -/
theorem Arch.mapRegion_correct_run :
    MapsRegion (firstTable ⟨true, true⟩ X64PagingMetaData X64PTE 8) (firstWorld X64PTE) 0x1ff000
      (fun v => v + 0x40000000) 0x201000 .READ true := by
  refine Arch.mapRegion_correct .x64 (f := .READ) (freshFrames_bumpHandler (by decide) (by decide))
    (.new (tryNew_blankWorld 7)) 0x1ff000 0x201000 rfl ⟨0x40000000, fun x hx => ⟨rfl, ?_⟩⟩
    (by decide) true
  have hle : ((0x1ff000 : VirtAddr) + BitVec.ofNat 64 x + 0x40000000).toNat =
      0x1ff000 + x + 0x40000000 := by
    have hx' : x < 0x201000 := hx
    rw [BitVec.toNat_add, BitVec.toNat_add, BitVec.toNat_ofNat]
    simp only [BitVec.reduceToNat]
    omega
  have hx' : x < 0x201000 := hx
  have hmax : Arch.x64.metaData.PA_MAX_ADDR = 2 ^ 52 - 1 := rfl
  rw [hle, hmax]
  omega

end PageTableMultiarch
