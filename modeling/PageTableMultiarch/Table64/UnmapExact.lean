/-
`unmap_region` over regions that are fully mapped.

The loop moves from page to page.  When every page that meets the region lies inside it,
each page found starts where the one before ends, so the assertions hold and the loop
unmaps the region and nothing else.  The region may be the whole address space; then
every page lies inside it, and the region must not start in the middle of one.

* `tiled_of_pagesInside` — pages inside a region cover it one after the other;
* `unmaps_of_pagesInside` — there `unmap_region` does what it should;
* `unmap_mapRegion` — it undoes `map_region`;
* `Arch.unmapRegion_exact` — both for every architecture.
-/
import PageTableMultiarch.Table64.UnmapRegion

namespace PageTableMultiarch

open GenericPTE Radix Cyclic

variable {B : Build} {M : PagingMetaData} {PTE σ : Type} {H : PagingHandler 64 σ}
  [GenericPTE 64 PTE]

/-- `query` finds a page of the size at the address. -/
def FindsPage (self : PageTable64 B M PTE H) (w : World PTE σ) (v : VirtAddr) (s : PageSize) :
    Prop :=
  ∃ p f, (self.query v w).1 = .ok (p, f, s)

/-- Every page that meets the region lies inside it. -/
def PagesInside (self : PageTable64 B M PTE H) (w : World PTE σ) (v : VirtAddr) (n : ℕ) : Prop :=
  ∀ v' s, InRegion M v n v' → FindsPage self w v' s → ∀ u : VirtAddr,
    u.toNat % M.space / s.bytes = v'.toNat % M.space / s.bytes → InRegion M v n u

/-- The address is the start of the page that maps it. -/
def StartsPage (self : PageTable64 B M PTE H) (w : World PTE σ) (v : VirtAddr) : Prop :=
  ∀ s, FindsPage self w v s → v.toNat % s.bytes = 0

/-- `unmap_region` succeeds; afterwards nothing is mapped in the region, and elsewhere the
answers of `query` are as before. -/
def UnmapsRegion (self : PageTable64 B M PTE H) (w : World PTE σ) (v : VirtAddr) (size : Usize) :
    Prop :=
  (self.unmapRegion v size w).1 = .ok () ∧ ∀ v',
    (InRegion M v size.toNat v' →
      (self.query v' (self.unmapRegion v size w).2).1 = .err .notMapped) ∧
    (¬ InRegion M v size.toNat v' →
      (self.query v' (self.unmapRegion v size w).2).1 = (self.query v' w).1)

section Lawful

variable [LawfulPTE M PTE] {P : PTE → Prop} {inUse : σ → Set PhysAddr} {w : World PTE σ}
  (self : PageTable64 B M PTE H) {v : VirtAddr} {size : Usize}

/-- The page that `query` finds is that of the leaf. -/
theorem findsPage_iff (I : Inv P M inUse self.rootPaddr w) {s : PageSize} :
    FindsPage self w v s ↔
      ∃ e k, leafAt M w.mem self.rootPaddr v = some (e, k) ∧ s = heightSize k := by
  rw [FindsPage, query_leaf self I]
  cases leafAt M w.mem self.rootPaddr v with
  | none => simp
  | some leaf =>
    constructor
    · rintro ⟨p, f, h⟩
      simp only [Res.ok.injEq, Prod.mk.injEq] at h
      exact ⟨leaf.1, leaf.2, rfl, h.2.2.symm⟩
    · rintro ⟨e, k, h, rfl⟩
      obtain rfl : leaf = (e, k) := by simpa using h
      exact ⟨_, _, rfl⟩

/-- In a region that is no longer than the address space, a page whose addresses all lie
in the region does not reach over its ends, if it does not come round to its start. -/
theorem page_fits {M : PagingMetaData} (hL : M.LEVELS = 3 ∨ M.LEVELS = 4) {k : ℕ} (hk : k ≤ 2)
    {v : VirtAddr} {n z : ℕ} (hno : v.toNat + n < 2 ^ 64) (hn : n ≤ M.space) (hz : z < n)
    (hin : ∀ u : VirtAddr, SamePage M k (v + BitVec.ofNat 64 z) u → InRegion M v n u)
    (hstart : n = M.space → SamePage M k (v + BitVec.ofNat 64 z) v →
      v.toNat % 2 ^ (12 + 9 * k) = 0) :
    v.toNat ≤ v.toNat + z - (v.toNat + z) % 2 ^ (12 + 9 * k) ∧
      v.toNat + z - (v.toNat + z) % 2 ^ (12 + 9 * k) + 2 ^ (12 + 9 * k) ≤ v.toNat + n := by
  set b := 2 ^ (12 + 9 * k)
  have hbpos : 0 < b := Nat.two_pow_pos _
  have hvz : (v + BitVec.ofNat 64 z).toNat = v.toNat + z := toNat_add_ofNat hno hz.le
  have hmod := Nat.mod_lt (v.toNat + z) hbpos
  have hdiv := Nat.div_add_mod (v.toNat + z) b
  set q := (v.toNat + z) / b
  have hsub : v.toNat + z - (v.toNat + z) % b = b * q := by omega
  rw [hsub]
  have hnat : ∀ a ≤ v.toNat + n, (BitVec.ofNat 64 a).toNat = a := fun a ha => by
    rw [BitVec.toNat_ofNat, Nat.mod_eq_of_lt (by omega)]
  -- the addresses of the page, as numbers
  have hpage : ∀ a, b * q ≤ a → a < b * q + b → a ≤ v.toNat + n →
      SamePage M k (v + BitVec.ofNat 64 z) (BitVec.ofNat 64 a) := by
    intro a hle hlt hsmall
    refine samePage_of_lt hL hk ?_
    rw [hvz, hnat a hsmall]
    exact (Nat.div_eq_of_lt_le (by rwa [Nat.mul_comm])
      (by rwa [Nat.succ_mul, Nat.mul_comm])).symm
  have hwithin : ∀ a, b * q ≤ a → a < b * q + b → a ≤ v.toNat + n →
      Within M.space v.toNat n a := by
    intro a hle hlt hsmall
    have := hin _ (hpage a hle hlt hsmall)
    rwa [InRegion, hnat a hsmall] at this
  obtain hlt | heq := hn.lt_or_eq
  · -- the addresses next to the region are not in it
    constructor
    · by_contra hc
      obtain ⟨y, hy, hmody⟩ := hwithin (v.toNat - 1) (by omega) (by omega) (by omega)
      have hcong : v.toNat - 1 ≡ v.toNat + y [MOD M.space] := hmody
      have hdvd := (Nat.modEq_iff_dvd' (by omega)).mp hcong
      have := Nat.le_of_dvd (by omega) hdvd
      omega
    · by_contra hc
      obtain ⟨y, hy, hmody⟩ := hwithin (v.toNat + n) (by omega) (by omega) le_rfl
      have hcong : v.toNat + y ≡ v.toNat + n [MOD M.space] := hmody.symm
      have hdvd := (Nat.modEq_iff_dvd' (by omega)).mp hcong
      have := Nat.le_of_dvd (by omega) hdvd
      omega
  · -- a page that meets the start of the region starts there
    have hstarts : ∀ a, b * q ≤ a → a < b * q + b → a ≤ v.toNat + n →
        a % M.space = v.toNat % M.space → b ∣ v.toNat := by
      intro a hle hlt' hsmall hav
      have hsame : SamePage M k (BitVec.ofNat 64 a) v := by
        rw [samePage_iff hL hk, hnat a hsmall, hav]
      exact Nat.dvd_of_mod_eq_zero (hstart heq ((hpage a hle hlt' hsmall).trans hsame))
    have hbspace : b ∣ M.space := two_pow_dvd_space hL hk
    have hgap : ∀ c, b ∣ c → b * q < c → b * q + b ≤ c := by
      rintro c ⟨d, rfl⟩ hlt'
      have : q < d := Nat.lt_of_mul_lt_mul_left hlt'
      calc b * q + b = b * (q + 1) := by ring
        _ ≤ b * d := Nat.mul_le_mul_left b this
    constructor
    · by_contra hc
      have := hgap _ (hstarts v.toNat (by omega) (by omega) (by omega) rfl) (by omega)
      omega
    · by_contra hc
      have hb := hstarts (v.toNat + n) (by omega) (by omega) le_rfl
        (by rw [heq, Nat.add_mod_right])
      have := hgap (v.toNat + n) (Nat.dvd_add hb (heq ▸ hbspace)) (by omega)
      omega

/-- Pages that lie inside a region cover it one after the other. -/
theorem tiled_of_pagesInside (I : Inv P M inUse self.rootPaddr w) {n : ℕ}
    (hno : v.toNat + n < 2 ^ 64) (hn : n ≤ M.space)
    (hmapped : ∀ v', InRegion M v n v' → Mapped self w v') (hin : PagesInside self w v n)
    (hstart : n = M.space → StartsPage self w v) : Tiled M w.mem self.rootPaddr v 0 n := by
  have hL := LawfulPTE.levels (M := M) PTE
  intro z _ hz
  have hzin : InRegion M v n (v + BitVec.ofNat 64 z) :=
    ⟨z, hz, toNat_add_ofNat_mod v z (space_dvd hL)⟩
  have hleaf := (mapped_iff self I _).mp (hmapped _ hzin)
  obtain ⟨⟨e, k⟩, hleaf⟩ := Option.ne_none_iff_exists'.mp hleaf
  obtain ⟨slot, hs, -, -⟩ := leaf_eq_some hleaf
  obtain ⟨-, hk, -⟩ := slotAt_of_seek hL hs
  have hfinds : FindsPage self w (v + BitVec.ofNat 64 z) (heightSize k) :=
    (findsPage_iff self I).mpr ⟨e, k, hleaf, rfl⟩
  obtain ⟨hle, hfits⟩ := page_fits hL hk hno hn hz (fun u hu => by
      refine hin _ _ hzin hfinds u ?_
      rw [bytes_heightSize hk]
      exact ((samePage_iff hL hk).mp hu).symm) (fun hspace hsame => by
      have hfindsv : FindsPage self w v (heightSize k) :=
        (findsPage_iff self I).mpr ⟨e, k, (leafAt_samePage hs hsame).trans hleaf, rfl⟩
      have := hstart hspace _ hfindsv
      rwa [bytes_heightSize hk] at this)
  -- the page starts at the last multiple of its size
  have hmod := Nat.mod_lt (v.toNat + z) (Nat.two_pow_pos (12 + 9 * k))
  have hmodle := Nat.mod_le (v.toNat + z) (2 ^ (12 + 9 * k))
  have hdiv := Nat.div_add_mod (v.toNat + z) (2 ^ (12 + 9 * k))
  refine ⟨slot, k, z - (v.toNat + z) % 2 ^ (12 + 9 * k), hs, Nat.zero_le _, by omega, by omega,
    by omega, ?_⟩
  rw [show v.toNat + (z - (v.toNat + z) % 2 ^ (12 + 9 * k)) =
    2 ^ (12 + 9 * k) * ((v.toNat + z) / 2 ^ (12 + 9 * k)) by omega]
  exact Nat.mul_mod_right _ _

/-- A region whose first `n` bytes have been unmapped, as answers of `query`. -/
theorem Unmapped.query {w' : World PTE σ} (I : Inv P M inUse self.rootPaddr w)
    (I' : Inv P M inUse self.rootPaddr w') {n : ℕ}
    (h : Unmapped M self.rootPaddr v w n w') (v' : VirtAddr) :
    (InRegion M v n v' → (self.query v' w').1 = .err .notMapped) ∧
      (¬ InRegion M v n v' → (self.query v' w').1 = (self.query v' w).1) := by
  constructor
  · intro hin
    rw [query_leaf self I', h.gone hin]
  · intro hout
    rw [query_leaf self I', query_leaf self I, h.frame hout]

/-- Over pages that cover a region and are all mapped, `unmap_region` does what it should. -/
theorem unmaps_of_tiled (hH : FreshFrames M H inUse) (I : Inv P M inUse self.rootPaddr w)
    (hno : v.toNat + size.toNat < 2 ^ 64) (hn : size.toNat ≤ M.space)
    (hmapped : ∀ v', InRegion M v size.toNat v' → Mapped self w v')
    (hT : Tiled M w.mem self.rootPaddr v 0 size.toNat) : UnmapsRegion self w v size := by
  have hL := LawfulPTE.levels (M := M) PTE
  have I' : Inv P M inUse self.rootPaddr (self.unmapRegion v size w).2 :=
    Call.inv hH self I (.unmapRegion v size) trivial
  obtain ⟨hok, hU⟩ | ⟨x, hx, hnone, -, -⟩ := unmapRegion_run self hH hn (fun _ => hno) I hT
  · exact ⟨hok, hU.query self I I'⟩
  · have := hmapped _ ⟨x, hx, toNat_add_ofNat_mod v x (space_dvd hL)⟩
    rw [mapped_iff self I, hnone] at this
    exact absurd rfl this

/-- From the middle of a page `unmap_region` panics. -/
theorem unmapRegion_misaligned (I : Inv P M inUse self.rootPaddr w) (hsize : size ≠ 0) {e : PTE}
    {k : ℕ} (hleaf : leafAt M w.mem self.rootPaddr v = some (e, k))
    (hv : v.toNat % 2 ^ (12 + 9 * k) ≠ 0) : (self.unmapRegion v size w).1 = .panic := by
  obtain ⟨slot, hs, -, -⟩ := leaf_eq_some hleaf
  obtain ⟨-, hk, -⟩ := slotAt_of_seek (LawfulPTE.levels (M := M) PTE) hs
  obtain ⟨hok, -⟩ := unmap_leaf self I hleaf
  have hround : self.unmapRegionStep v size w = (.panic, (self.unmap v w).2) := by
    rw [PageTable64.unmapRegionStep, Op.bind_ok (Prod.ext hok rfl)]
    exact assertStep_panic hk (fun h => hv h.1) _
  rw [PageTable64.unmapRegion, regionFuel, regionLoop, if_neg hsize, Op.bind_panic hround]

theorem unmaps_of_pagesInside (hH : FreshFrames M H inUse) (I : Inv P M inUse self.rootPaddr w)
    (hno : v.toNat + size.toNat < 2 ^ 64) (hn : size.toNat ≤ M.space)
    (hmapped : ∀ v', InRegion M v size.toNat v' → Mapped self w v')
    (hin : PagesInside self w v size.toNat)
    (hstart : size.toNat = M.space → StartsPage self w v) : UnmapsRegion self w v size :=
  unmaps_of_tiled self hH I hno hn hmapped (tiled_of_pagesInside self I hno hn hmapped hin hstart)

/-! ### Undoing `map_region` -/

/-- A region that `map_region` has mapped is mapped everywhere, by pages inside it. -/
theorem MappedUpTo.mapped {f : MappingFlags 64} {getPaddr : VirtAddr → PhysAddr} {n : ℕ}
    {w' : World PTE σ} (h : MappedUpTo P M inUse self.rootPaddr v getPaddr f w n w')
    (hpresent : presentWith PTE f = true) {v' : VirtAddr} (hin : InRegion M v n v') :
    Mapped self w' v' := by
  obtain ⟨z, hz, hv'⟩ := hin
  obtain ⟨s, x₀, -, hleaf⟩ := h.pages v' hz hv'
  rw [mapped_iff self h.inv, hleaf, mappedLeaf, if_pos hpresent]
  simp

/-- The pages that cover a region lie inside it. -/
theorem Tiled.pagesInside (I : Inv P M inUse self.rootPaddr w) {n : ℕ}
    (h : Tiled M w.mem self.rootPaddr v 0 n) : PagesInside self w v n := by
  have hL := LawfulPTE.levels (M := M) PTE
  rintro v' s ⟨z, hz, hv'⟩ hfinds u hu
  obtain ⟨slot, k, x₀, hs, -, hle, hlt, hfits, hstart⟩ := h z (Nat.zero_le z) hz
  obtain ⟨-, hk, -⟩ := slotAt_of_seek hL hs
  obtain ⟨e, k', hleaf, rfl⟩ := (findsPage_iff self I).mp hfinds
  rw [leafAt, vpath_of_mod hL hv'] at hleaf
  obtain ⟨slot', hs', -, -⟩ := leaf_eq_some hleaf
  rw [hs] at hs'
  obtain ⟨rfl, rfl⟩ : slot = slot' ∧ k = k' := by simpa using hs'
  have hsame : SamePage M k (v + BitVec.ofNat 64 x₀) u := by
    refine (samePage_add hL hk hstart hle hlt).trans ((samePage_iff hL hk).mpr ?_)
    rw [toNat_add_ofNat_mod v z (space_dvd hL), ← hv', ← bytes_heightSize hk, hu]
  obtain ⟨y, hy, hu'⟩ := (samePage_iff_within hL hk hstart).mp hsame
  exact ⟨x₀ + y, by omega, by rw [hu', Nat.add_assoc]⟩

/-- `unmap_region` undoes a successful `map_region`. -/
theorem unmap_mapRegion (hH : FreshFrames M H inUse)
    (I : Inv (fun e : PTE => isPresent e = true) M inUse self.rootPaddr w)
    (hno : v.toNat + size.toNat < 2 ^ 64) {getPaddr : VirtAddr → PhysAddr} {f : MappingFlags 64}
    (hf : Readable f) {allowHuge : Bool}
    (hmap : (self.mapRegion v getPaddr size f allowHuge w).1 = .ok ()) :
    UnmapsRegion self (self.mapRegion v getPaddr size f allowHuge w).2 v size ∧
      ∀ v', (self.query v' (self.unmapRegion v size
        (self.mapRegion v getPaddr size f allowHuge w).2).2).1 = (self.query v' w).1 := by
  have hpresent : presentWith PTE f = true := LawfulPTE.presentWith_read (M := M) hf
  obtain ⟨-, hU⟩ := mapRegion_ok self hH (allowed_read M hf) I hmap
  have hunmaps := unmaps_of_tiled self hH hU.inv hno (hU.le_space hpresent)
    (fun v' hin => hU.mapped self hpresent hin) (hU.tiled hpresent)
  refine ⟨hunmaps, fun v' => ?_⟩
  by_cases hin : InRegion M v size.toNat v'
  · rw [(hunmaps.2 v').1 hin, query_leaf self I, hU.free v' hin]
  · rw [(hunmaps.2 v').2 hin, query_leaf self hU.inv, query_leaf self I, hU.frame v' hin]

end Lawful

/-- `unmap_region` unmaps a region that is mapped everywhere by pages inside it, and nothing
else, if it does not go round the whole address space from the middle of a page; and it
undoes `map_region`. -/
theorem Arch.unmapRegion_exact (arch : Arch) {H : PagingHandler 64 σ} {inUse : σ → Set PhysAddr}
    (hH : FreshFrames arch.metaData H inUse) {self : PageTable64 B arch.metaData arch.PTE H}
    {w : World arch.PTE σ} (hw : Reachable Readable self w) (v : VirtAddr) (size : Usize)
    (hno : v.toNat + size.toNat < 2 ^ 64) (hspace : size.toNat ≤ arch.metaData.space) :
    ((∀ v', InRegion arch.metaData v size.toNat v' → Mapped self w v') →
      PagesInside self w v size.toNat →
      (size.toNat = arch.metaData.space → StartsPage self w v) → UnmapsRegion self w v size) ∧
    ∀ getPaddr f allowHuge, Readable f →
      (self.mapRegion v getPaddr size f allowHuge w).1 = .ok () →
      UnmapsRegion self (self.mapRegion v getPaddr size f allowHuge w).2 v size ∧
        ∀ v', (self.query v' (self.unmapRegion v size
          (self.mapRegion v getPaddr size f allowHuge w).2).2).1 = (self.query v' w).1 := by
  have I := hw.inv hH self fun f => allowed_read arch.metaData
  constructor
  · intro hmapped hin hstart
    exact unmaps_of_pagesInside self hH I hno hspace hmapped hin hstart
  · intro getPaddr f allowHuge hf hmap
    exact unmap_mapRegion self hH I hno hf hmap

/-- Two pages of x86_64 that have just been mapped. -/
theorem Arch.unmapRegion_exact_run :
    UnmapsRegion (firstTable ⟨true, true⟩ X64PagingMetaData X64PTE 8) twoPagesWorld 0 0x2000 ∧
      ∀ v', ((firstTable ⟨true, true⟩ X64PagingMetaData X64PTE 8).query v'
        ((firstTable ⟨true, true⟩ X64PagingMetaData X64PTE 8).unmapRegion 0 0x2000
          twoPagesWorld).2).1 =
        ((firstTable ⟨true, true⟩ X64PagingMetaData X64PTE 8).query v' (firstWorld X64PTE)).1 := by
  have hH : FreshFrames X64PagingMetaData (bumpHandler 8) bumped :=
    freshFrames_bumpHandler (by decide) (by decide)
  have hnew : Reachable Readable (firstTable ⟨true, true⟩ X64PagingMetaData X64PTE 8)
      (firstWorld X64PTE) := .new (tryNew_blankWorld 7)
  have htwo : Reachable Readable (firstTable ⟨true, true⟩ X64PagingMetaData X64PTE 8)
      twoPagesWorld :=
    hnew.call (.mapRegion 0 (fun v => v + 0x40000000) 0x2000 .READ false) rfl
  have hmap : ((firstTable ⟨true, true⟩ X64PagingMetaData X64PTE 8).mapRegion 0
      (fun v => v + 0x40000000) 0x2000 .READ false (firstWorld X64PTE)).1 = .ok () := by
    decide +kernel
  have hspace : (0x2000 : Usize).toNat ≤ X64PagingMetaData.space := by decide
  obtain ⟨-, hundo⟩ := Arch.unmapRegion_exact .x64 hH hnew 0 0x2000 (by decide) hspace
  obtain ⟨hexact, -⟩ := Arch.unmapRegion_exact .x64 hH htwo 0 0x2000 (by decide) hspace
  obtain ⟨-, hU⟩ := mapRegion_ok _ hH (allowed_read X64PagingMetaData rfl)
    (hnew.inv hH _ fun f => allowed_read X64PagingMetaData) hmap
  refine ⟨hexact (fun v' hin => hU.mapped _ rfl hin) ((hU.tiled rfl).pagesInside _ hU.inv)
    fun hc => absurd hc (by decide), (hundo _ .READ _ rfl hmap).2⟩

/-! ### The whole address space -/

/-- The call that maps a gigabyte of an Sv39 table to itself. -/
def gigabyteCall (n : ℕ) : Call :=
  .map (BitVec.ofNat 64 (2 ^ 30 * n)) (BitVec.ofNat 64 (2 ^ 30 * n)) .size1G .READ

/-- A new Sv39 table in which the first gigabytes are mapped one by one. -/
def gigabytesWorld : ℕ → World (Rv64PTE false) ℕ
  | 0 => firstWorld (Rv64PTE false)
  | n + 1 => (gigabyteCall n).next (firstTable ⟨true, true⟩ Sv39MetaData (Rv64PTE false) 8)
    (gigabytesWorld n)

theorem gigabytesWorld_reachable (n : ℕ) : Reachable Readable
    (firstTable ⟨true, true⟩ Sv39MetaData (Rv64PTE false) 8) (gigabytesWorld n) := by
  induction n with
  | zero => exact .new (tryNew_blankWorld 7)
  | succ n ih => exact ih.call (gigabyteCall n) rfl

/-- With three levels a gigabyte is mapped in the root. -/
theorem map_gigabyte [LawfulPTE M PTE] (self : PageTable64 B M PTE H) {w : World PTE σ}
    (hL : M.LEVELS = 3) {f : MappingFlags 64} (hf : debugAssert PTE f = true) {v : VirtAddr}
    (target : PhysAddr) (h : w.mem self.rootPaddr (p3Index v) = empty) :
    (self.map v target .size1G f w).2.mem = Radix.set w.mem self.rootPaddr (p3Index v)
      (newPage (MemoryAddr.alignDown target (PageSize.size1G.toUsize 64)) f true) := by
  have hfound : self.getEntryMutOrCreate v .size1G w = (.ok ⟨self.rootPaddr, p3Index v⟩, w) := by
    simp [PageTable64.getEntryMutOrCreate, hL, Op.bind_apply]
  have hunused : isUnused (w.mem self.rootPaddr (p3Index v)) = true :=
    (LawfulPTE.isUnused_iff (M := M) _).mpr h
  rw [PageTable64.map, Op.bind_ok hfound, Op.bind_ok (readEntry_eq _ _)]
  simp only [World.entry, hunused, Bool.not_true, Bool.false_eq_true, if_false]
  rw [Op.bind_ok (assertFlags_of_pass (flagsPass_of_accepted hf) _),
    Op.bind_ok (writeEntry_eq _ _ _), push_eq]
  rfl

/-- The entries of the root after the first gigabytes have been mapped. -/
theorem gigabytesWorld_mem {n : ℕ} (hn : n ≤ 512) : ∀ i : Fin ENTRY_COUNT,
    (gigabytesWorld n).mem 0x1000 i = if i.val < n then
      newPage (MemoryAddr.alignDown (BitVec.ofNat 64 (2 ^ 30 * i.val))
        (PageSize.size1G.toUsize 64)) .READ true else empty := by
  induction n with
  | zero => exact fun _ => rfl
  | succ n ih =>
    intro i
    have hidx : (p3Index (BitVec.ofNat 64 (2 ^ 30 * n))).val = n := by
      rw [p3Index, val_tableIndex, BitVec.toNat_ofNat]
      omega
    have hold : (gigabytesWorld n).mem 0x1000 (p3Index (BitVec.ofNat 64 (2 ^ 30 * n))) = empty := by
      rw [ih (by omega), if_neg (by omega)]
    have hmem : (gigabytesWorld (n + 1)).mem = Radix.set (gigabytesWorld n).mem 0x1000
        (p3Index (BitVec.ofNat 64 (2 ^ 30 * n))) _ :=
      map_gigabyte (firstTable ⟨true, true⟩ Sv39MetaData (Rv64PTE false) 8) rfl rfl
        (BitVec.ofNat 64 (2 ^ 30 * n)) hold
    rw [hmem, Radix.set_apply]
    by_cases hi : i.val = n
    · rw [if_pos ⟨rfl, Fin.ext (hi.trans hidx.symm)⟩, if_pos (by omega), hi]
    · rw [if_neg fun h => hi (by rw [h.2, hidx]), ih (by omega)]
      congr 1
      exact propext ⟨fun h => by omega, fun h => by omega⟩

/-- Every address of that table is mapped by a page of 1G. -/
theorem gigabytesWorld_leafAt {n : ℕ} (hn : n = 512) (v : VirtAddr) :
    ∃ e, leafAt Sv39MetaData (gigabytesWorld n).mem 0x1000 v = some (e, 2) := by
  have hentry := gigabytesWorld_mem hn.le (p3Index v)
  rw [if_pos (by rw [hn]; exact (p3Index v).isLt)] at hentry
  have hhuge : isHuge ((gigabytesWorld n).mem 0x1000 (p3Index v)) = true := by
    rw [hentry]
    exact LawfulPTE.isHuge_newPage (M := Sv39MetaData) _ rfl
  have hpresent : isPresent ((gigabytesWorld n).mem 0x1000 (p3Index v)) = true := by
    rw [hentry, LawfulPTE.isPresent_newPage (M := Sv39MetaData)]
    rfl
  have hseek := seek_cons_of_huge (π := [p2Index v, p1Index v]) (by simp) hhuge
  exact ⟨_, by rw [leafAt, vpath_three rfl, leaf_of_seek_ok hseek, if_pos hpresent]; rfl⟩

/-- There `unmap_region` of the whole address space from the middle of a page removes the page
and panics. -/
theorem unmapRegion_panics_in_page : ∃ w : World (Rv64PTE false) ℕ,
    Reachable Readable (firstTable ⟨true, true⟩ Sv39MetaData (Rv64PTE false) 8) w ∧
      (∀ v', InRegion Sv39MetaData 0x1000 (2 ^ 39) v' →
        Mapped (firstTable ⟨true, true⟩ Sv39MetaData (Rv64PTE false) 8) w v') ∧
      PagesInside (firstTable ⟨true, true⟩ Sv39MetaData (Rv64PTE false) 8) w 0x1000 (2 ^ 39) ∧
      ((firstTable ⟨true, true⟩ Sv39MetaData (Rv64PTE false) 8).unmapRegion 0x1000
        (BitVec.ofNat 64 (2 ^ 39)) w).1 = .panic := by
  have hH : FreshFrames Sv39MetaData (bumpHandler 8) bumped :=
    freshFrames_bumpHandler (by decide) (by decide)
  obtain ⟨n, hn⟩ : ∃ n : ℕ, n = 512 := ⟨_, rfl⟩
  have I := (gigabytesWorld_reachable n).inv hH _ fun f => allowed_read Sv39MetaData
  refine ⟨gigabytesWorld n, gigabytesWorld_reachable n, fun v' _ => ?_, fun _ _ _ _ u _ => ?_, ?_⟩
  · obtain ⟨e, he⟩ := gigabytesWorld_leafAt hn v'
    exact (mapped_iff _ I v').mpr (he ▸ Option.some_ne_none _)
  · -- the region is everything
    refine ⟨(u.toNat % 2 ^ 39 + 2 ^ 39 - 0x1000) % 2 ^ 39, Nat.mod_lt _ (by decide), ?_⟩
    show u.toNat % 2 ^ 39 = (0x1000 + (u.toNat % 2 ^ 39 + 2 ^ 39 - 0x1000) % 2 ^ 39) % 2 ^ 39
    omega
  · obtain ⟨e, he⟩ := gigabytesWorld_leafAt hn 0x1000
    exact unmapRegion_misaligned _ I (by decide) he (by decide)

end PageTableMultiarch
