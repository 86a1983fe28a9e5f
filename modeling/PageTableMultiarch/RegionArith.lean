/-
The arithmetic on addresses and sizes in the region methods.

The loops advance the address behind each page before they test the size that is left, and
`copy_from` adds the size to the address before it subtracts one, so a region that ends at the top
of the address space makes the last sum overflow.

* `PageTable64.arithFits_iff`, `Bits32.PageTable32.arithFits_iff` — nothing overflows exactly if
  the region ends below the top, or a page of it is not handled;
* `region_arith_iff` — both.
-/
import PageTableMultiarch.Table64.Remap
import PageTableMultiarch.Table32.Code

namespace PageTableMultiarch

/-- The region methods with their arguments besides the region. -/
inductive RegionCall (w : ℕ) where
  | mapRegion (getPaddr : BitVec w → BitVec w) (f : MappingFlags w) (allowHuge : Bool)
  | unmapRegion
  | protectRegion (f : MappingFlags w)
  | copyFrom

section Step

variable {S : Type} {w : ℕ}

/-- A round that ends with the assertions has handled a page in the rest of the region. -/
theorem assertStep_returns (hw : 32 ≤ w) (ps : PageSize) (v size : BitVec w) :
    Op.Returns (fun ps => ps.bytes ≤ size.toNat) (assertStep ps v size : Op S PageSize) := by
  intro s ps' s' h
  rw [assertStep_apply] at h
  split at h
  · next hfit =>
    obtain rfl := Res.ok.inj (Prod.mk.inj h).1
    rw [← PageSize.toNat_toUsize hw]
    exact hfit.2
  · nomatch h

theorem four_k_le {size : BitVec w} (h0 : size ≠ 0) (h : size.toNat % 0x1000 = 0) :
    0x1000 ≤ size.toNat := by
  have hpos : size.toNat ≠ 0 := fun hc => h0 (BitVec.eq_of_toNat_eq (by rw [hc]; simp))
  omega

/-- The sum that `copy_from` computes. -/
theorem copyFrom_fits_iff {v size : BitVec w} :
    (size ≠ 0 → AddFits v size ∧ SubFits (v + size) 1) ↔ v.toNat + size.toNat < 2 ^ w := by
  constructor
  · intro h
    by_cases h0 : size = 0
    · subst h0
      simpa using v.isLt
    · exact (h h0).1
  · intro h h0
    have hpos : size.toNat ≠ 0 := fun hc => h0 (BitVec.eq_of_toNat_eq (by rw [hc]; simp))
    refine ⟨h, ?_⟩
    rw [SubFits, BitVec.toNat_add, Nat.mod_eq_of_lt h]
    have hone := Nat.mod_le 1 (2 ^ w)
    rw [show (1 : BitVec w) = BitVec.ofNat w 1 from rfl, BitVec.toNat_ofNat]
    omega

end Step

/-! ### `PageTable64` -/

namespace PageTable64

variable {B : Build} {M : PagingMetaData} {PTE σ : Type} {H : PagingHandler 64 σ}
  [GenericPTE 64 PTE]

/-- The sums and differences of addresses and sizes that a region method computes do not
overflow. -/
def ArithFits (self : PageTable64 B M PTE H) (v : VirtAddr) (size : Usize) (w : World PTE σ) :
    RegionCall 64 → Prop
  | .mapRegion getPaddr f allowHuge =>
    PageSize.size4K.isAligned v = true → PageSize.size4K.isAligned size = true →
      Rounds B (self.mapRegionStep getPaddr f allowHuge)
        (RoundFits (self.mapRegionStep getPaddr f allowHuge)) (regionFuel size) v size w
  | .unmapRegion =>
    Rounds B self.unmapRegionStep (RoundFits self.unmapRegionStep) (regionFuel size) v size w
  | .protectRegion f => Rounds B (self.protectRegionStep f) (RoundFits (self.protectRegionStep f))
    (regionFuel size) v size w
  | .copyFrom => size ≠ 0 → AddFits v size ∧ SubFits (v + size) 1

/-- A region method handles every page of the region: none cannot be mapped, is not mapped, or
does not lie in the region. -/
def HandlesAll (self : PageTable64 B M PTE H) (v : VirtAddr) (size : Usize) (w : World PTE σ) :
    RegionCall 64 → Prop
  | .mapRegion getPaddr f allowHuge =>
    Finishes (self.mapRegionStep getPaddr f allowHuge) (regionFuel size) v size w
  | .unmapRegion => Finishes self.unmapRegionStep (regionFuel size) v size w
  | .protectRegion f => Finishes (self.protectRegionStep f) (regionFuel size) v size w
  | .copyFrom => True

theorem regionPageSize_le {v : VirtAddr} {p : PhysAddr} {size : Usize} {allowHuge : Bool}
    (h : 0x1000 ≤ size.toNat) : (regionPageSize v p size allowHuge).bytes ≤ size.toNat := by
  have hle : ∀ s : PageSize, s.toUsize 64 ≤ size → s.bytes ≤ size.toNat := fun s hs => by
    rwa [BitVec.le_def, PageSize.toNat_toUsize (by decide)] at hs
  rw [regionPageSize]
  split
  · split
    · next h1G => exact hle .size1G (by simp_all)
    · split
      · next h2M => exact hle .size2M (by simp_all)
      · exact h
  · exact h

section

variable (self : PageTable64 B M PTE H) {f : MappingFlags 64} {v : VirtAddr} {size : Usize}

theorem mapRegionStep_returns {getPaddr : VirtAddr → PhysAddr} {allowHuge : Bool}
    (hsize : 0x1000 ≤ size.toNat) : Op.Returns (fun ps => ps.bytes ≤ size.toNat)
      (self.mapRegionStep getPaddr f allowHuge v size) :=
  .bind fun _ => .pure (regionPageSize_le hsize)

theorem unmapRegionStep_returns :
    Op.Returns (fun ps => ps.bytes ≤ size.toNat) (self.unmapRegionStep v size) :=
  .bind fun _ => assertStep_returns (by decide) _ v size

theorem protectRegionStep_returns :
    Op.Returns (fun ps => ps.bytes ≤ size.toNat) (self.protectRegionStep f v size) := by
  have hassert := fun ps => assertStep_returns (S := World PTE σ) (by decide) ps v size
  refine .bind fun found => ?_
  match found with
  | .ok (slot, ps) =>
    refine .bind fun entry => ?_
    dsimp only
    split
    · exact .bind fun _ => .bind fun _ => .bind fun _ => .bind fun _ => hassert _
    · exact .bind fun _ => hassert _
  | .error .notMapped => exact .bind fun _ => hassert _
  | .error .noMemory | .error .notAligned | .error .alreadyMapped | .error .mappedToHugePage =>
    exact .bind fun _ => hassert _

end

/-- Nothing overflows exactly if the region ends below the top of the address space or a page of
it is not handled. -/
theorem arithFits_iff (self : PageTable64 B M PTE H) (c : RegionCall 64) {v : VirtAddr}
    {size : Usize} (hv : v.toNat % 0x1000 = 0) (hsize : size.toNat % 0x1000 = 0)
    (hle : v.toNat + size.toNat ≤ 2 ^ 64) (w : World PTE σ) :
    self.ArithFits v size w c ↔ v.toNat + size.toNat < 2 ^ 64 ∨ ¬ self.HandlesAll v size w c := by
  have hfuel := toNat_regionFuel size
  cases c with
  | mapRegion getPaddr f allowHuge =>
    have hv' : PageSize.size4K.isAligned v = true := (PageSize.isAligned_iff (by decide) _ _).mpr hv
    have hsize' : PageSize.size4K.isAligned size = true :=
      (PageSize.isAligned_iff (by decide) _ _).mpr hsize
    rw [ArithFits, forall_prop_of_true hv', forall_prop_of_true hsize']
    exact rounds_fit_iff (by decide) (fun v size w ps w' h0 hmod h =>
      self.mapRegionStep_returns (four_k_le h0 hmod) w ps w' h) _ hfuel hsize hle w
  | unmapRegion =>
    exact rounds_fit_iff (by decide) (fun v size w ps w' _ _ h =>
      self.unmapRegionStep_returns w ps w' h) _ hfuel hsize hle w
  | protectRegion f =>
    exact rounds_fit_iff (by decide) (fun v size w ps w' _ _ h =>
      self.protectRegionStep_returns w ps w' h) _ hfuel hsize hle w
  | copyFrom =>
    rw [HandlesAll, not_true, or_false]
    exact copyFrom_fits_iff

end PageTable64

/-! ### `PageTable32` -/

namespace Bits32.PageTable32

variable {B : Build} {M : PagingMetaData} {PTE σ : Type} {H : PagingHandler 32 σ}
  [GenericPTE 32 PTE]

/-- The sums and differences of addresses and sizes that a region method computes do not
overflow. -/
def ArithFits (self : PageTable32 B M PTE H) (v : VirtAddr) (size : Usize) (w : World PTE σ) :
    RegionCall 32 → Prop
  | .mapRegion getPaddr f allowHuge =>
    PageSize.size4K.isAligned v = true → PageSize.size4K.isAligned size = true →
      Rounds B (self.mapRegionStep getPaddr f allowHuge)
        (RoundFits (self.mapRegionStep getPaddr f allowHuge)) (regionFuel size) v size w
  | .unmapRegion =>
    Rounds B self.unmapRegionStep (RoundFits self.unmapRegionStep) (regionFuel size) v size w
  | .protectRegion f => Rounds B (self.protectRegionStep f) (RoundFits (self.protectRegionStep f))
    (regionFuel size) v size w
  | .copyFrom => size ≠ 0 → AddFits v size ∧ SubFits (v + size) 1

/-- A region method handles every page of the region: none cannot be mapped, is not mapped, or
does not lie in the region. -/
def HandlesAll (self : PageTable32 B M PTE H) (v : VirtAddr) (size : Usize) (w : World PTE σ) :
    RegionCall 32 → Prop
  | .mapRegion getPaddr f allowHuge =>
    Finishes (self.mapRegionStep getPaddr f allowHuge) (regionFuel size) v size w
  | .unmapRegion => Finishes self.unmapRegionStep (regionFuel size) v size w
  | .protectRegion f => Finishes (self.protectRegionStep f) (regionFuel size) v size w
  | .copyFrom => True

theorem regionPageSize_le {v : VirtAddr} {p : PhysAddr} {size : Usize} {allowHuge : Bool}
    (h : 0x1000 ≤ size.toNat) : (regionPageSize v p size allowHuge).bytes ≤ size.toNat := by
  have hle : ∀ s : PageSize, s.toUsize 32 ≤ size → s.bytes ≤ size.toNat := fun s hs => by
    rwa [BitVec.le_def, PageSize.toNat_toUsize (by decide)] at hs
  rw [regionPageSize]
  split
  · next h1M => exact hle .size1M (by simp_all)
  · exact h

section

variable (self : PageTable32 B M PTE H) {f : MappingFlags 32} {v : VirtAddr} {size : Usize}

theorem mapRegionStep_returns {getPaddr : VirtAddr → PhysAddr} {allowHuge : Bool}
    (hsize : 0x1000 ≤ size.toNat) : Op.Returns (fun ps => ps.bytes ≤ size.toNat)
      (self.mapRegionStep getPaddr f allowHuge v size) :=
  .bind fun _ => .pure (regionPageSize_le hsize)

theorem unmapRegionStep_returns :
    Op.Returns (fun ps => ps.bytes ≤ size.toNat) (self.unmapRegionStep v size) :=
  .bind fun _ => assertStep_returns (by decide) _ v size

theorem protectRegionStep_returns :
    Op.Returns (fun ps => ps.bytes ≤ size.toNat) (self.protectRegionStep f v size) := by
  have hassert := fun ps => assertStep_returns (S := World PTE σ) (by decide) ps v size
  refine .bind fun found => ?_
  match found with
  | .ok (slot, ps) =>
    refine .bind fun entry => ?_
    dsimp only
    split
    · exact .bind fun _ => .bind fun _ => .bind fun _ => hassert _
    · exact .bind fun _ => hassert _
  | .error .notMapped => exact .bind fun _ => hassert _
  | .error .noMemory | .error .notAligned | .error .alreadyMapped | .error .mappedToHugePage =>
    exact .bind fun _ => hassert _

end

/-- Nothing overflows exactly if the region ends below the top of the address space or a page of
it is not handled. -/
theorem arithFits_iff (self : PageTable32 B M PTE H) (c : RegionCall 32) {v : VirtAddr}
    {size : Usize} (hv : v.toNat % 0x1000 = 0) (hsize : size.toNat % 0x1000 = 0)
    (hle : v.toNat + size.toNat ≤ 2 ^ 32) (w : World PTE σ) :
    self.ArithFits v size w c ↔ v.toNat + size.toNat < 2 ^ 32 ∨ ¬ self.HandlesAll v size w c := by
  have hfuel := toNat_regionFuel size
  cases c with
  | mapRegion getPaddr f allowHuge =>
    have hv' : PageSize.size4K.isAligned v = true := (PageSize.isAligned_iff (by decide) _ _).mpr hv
    have hsize' : PageSize.size4K.isAligned size = true :=
      (PageSize.isAligned_iff (by decide) _ _).mpr hsize
    rw [ArithFits, forall_prop_of_true hv', forall_prop_of_true hsize']
    exact rounds_fit_iff (by decide) (fun v size w ps w' h0 hmod h =>
      self.mapRegionStep_returns (four_k_le h0 hmod) w ps w' h) _ hfuel hsize hle w
  | unmapRegion =>
    exact rounds_fit_iff (by decide) (fun v size w ps w' _ _ h =>
      self.unmapRegionStep_returns w ps w' h) _ hfuel hsize hle w
  | protectRegion f =>
    exact rounds_fit_iff (by decide) (fun v size w ps w' _ _ h =>
      self.protectRegionStep_returns w ps w' h) _ hfuel hsize hle w
  | copyFrom =>
    rw [HandlesAll, not_true, or_false]
    exact copyFrom_fits_iff

end Bits32.PageTable32

/-- In both kinds of tables the region methods compute no sum or difference of addresses and sizes
that overflows, exactly if the region ends below the top of the address space or a page of it is
not handled. -/
theorem region_arith_iff (B : Build) (M : PagingMetaData) :
    (∀ {PTE σ : Type} {H : PagingHandler 64 σ} [GenericPTE 64 PTE]
        (self : PageTable64 B M PTE H) (c : RegionCall 64) {v size : BitVec 64}
        (_ : v.toNat % 0x1000 = 0) (_ : size.toNat % 0x1000 = 0)
        (_ : v.toNat + size.toNat ≤ 2 ^ 64) (w : World PTE σ),
      self.ArithFits v size w c ↔
        v.toNat + size.toNat < 2 ^ 64 ∨ ¬ self.HandlesAll v size w c) ∧
    ∀ {PTE σ : Type} {H : PagingHandler 32 σ} [GenericPTE 32 PTE]
        (self : Bits32.PageTable32 B M PTE H) (c : RegionCall 32) {v size : BitVec 32}
        (_ : v.toNat % 0x1000 = 0) (_ : size.toNat % 0x1000 = 0)
        (_ : v.toNat + size.toNat ≤ 2 ^ 32) (w : Bits32.World PTE σ),
      self.ArithFits v size w c ↔
        v.toNat + size.toNat < 2 ^ 32 ∨ ¬ self.HandlesAll v size w c :=
  ⟨fun self c _ _ hv hsize hle w => PageTable64.arithFits_iff self c hv hsize hle w,
    fun self c _ _ hv hsize hle w => Bits32.PageTable32.arithFits_iff self c hv hsize hle w⟩

/-- A region at the top of a new table of x86_64, and one of a table of ARMv7-A. -/
theorem region_arith_iff_run :
    ((firstTable ⟨true, true⟩ X64PagingMetaData X64PTE 8).ArithFits 0xfffffffffffff000 0x1000
        (firstWorld X64PTE) .unmapRegion ↔
      (0xfffffffffffff000 : BitVec 64).toNat + (0x1000 : BitVec 64).toNat < 2 ^ 64 ∨
        ¬ (firstTable ⟨true, true⟩ X64PagingMetaData X64PTE 8).HandlesAll 0xfffffffffffff000 0x1000
          (firstWorld X64PTE) .unmapRegion) ∧
    ∀ H : PagingHandler 32 ℕ, ((⟨0x4000, fun _ => false⟩ :
        Bits32.PageTable32 ⟨true, true⟩ A32PagingMetaData A32PTE H).ArithFits 0x100000 0x3000
        ⟨fun _ => ⟨0⟩, 0, [], .none⟩ .copyFrom ↔
      (0x100000 : BitVec 32).toNat + (0x3000 : BitVec 32).toNat < 2 ^ 32 ∨
        ¬ (⟨0x4000, fun _ => false⟩ : Bits32.PageTable32 ⟨true, true⟩ A32PagingMetaData A32PTE
          H).HandlesAll 0x100000 0x3000 ⟨fun _ => ⟨0⟩, 0, [], .none⟩ .copyFrom) :=
  ⟨(region_arith_iff _ _).1 _ _ (by decide) (by decide) (by decide) _,
    fun _ => (region_arith_iff _ _).2 _ _ (by decide) (by decide) (by decide) _⟩

/-- Mapping the last page of the address space adds its size to its address, which a build with
overflow checks does not survive. -/
theorem mapRegion_overflows :
    Reachable Readable (firstTable ⟨true, true⟩ X64PagingMetaData X64PTE 8) (firstWorld X64PTE) ∧
      ¬ (firstTable ⟨true, true⟩ X64PagingMetaData X64PTE 8).ArithFits 0xfffffffffffff000 0x1000
        (firstWorld X64PTE) (.mapRegion (fun _ => 0x5000) .READ false) ∧
      ((firstTable ⟨true, true⟩ X64PagingMetaData X64PTE 8).mapRegion 0xfffffffffffff000
        (fun _ => 0x5000) 0x1000 .READ false (firstWorld X64PTE)).1 = .panic := by
  refine ⟨.new (tryNew_blankWorld 7), fun h => ?_, by decide +kernel⟩
  have hok : ((firstTable ⟨true, true⟩ X64PagingMetaData X64PTE 8).mapRegionStep (fun _ => 0x5000)
      .READ false 0xfffffffffffff000 0x1000 (firstWorld X64PTE)).1 = .ok .size4K := by
    decide +kernel
  have hfits := (h (by decide) (by decide) (by decide)).1 .size4K _ (Prod.ext hok rfl)
  exact absurd hfits.1 (by unfold AddFits; decide)

end PageTableMultiarch
