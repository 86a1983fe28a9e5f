/-
The addresses that `walk` reports.

The walk adds up the indices on the way to an entry, so the addresses that it reports are
below the size of the address space: those of the upper half lose their sign extension.
`MapRun` keeps, beside the state of a run, the address that was given to the call of `map`
which created the leaf at the end of each path.

* `MapRun.createdBy` — every leaf has been created by a call of `map` for its page;
* `reportsMapped_iff`, `Arch.walk_reportsMapped_iff` — a leaf is reported at the address it
  was mapped at exactly if this address is in the lower half.
-/
import PageTableMultiarch.Table64.WalkLimit

namespace PageTableMultiarch

open GenericPTE Radix

variable {B : Build} {M : PagingMetaData} {PTE σ : Type} {H : PagingHandler 64 σ}

/-- The valid addresses of a page table whose levels translate all bits of an address: those of
the lower and of the upper half. -/
theorem vaddrIsValid_iff (hL : M.LEVELS = 3 ∨ M.LEVELS = 4)
    (hva : M.VA_MAX_BITS = 12 + 9 * M.LEVELS) (v : VirtAddr) : M.vaddrIsValid v = true ↔
      v.toNat < 2 ^ (M.VA_MAX_BITS - 1) ∨ 2 ^ 64 - 2 ^ (M.VA_MAX_BITS - 1) ≤ v.toNat := by
  have hlt := v.isLt
  have hzero : (0 : VirtAddr).toNat = 0 := rfl
  have htop : ∀ k, k ≤ 64 → (BitVec.allOnes 64 <<< k).toNat = 2 ^ 64 - 2 ^ k →
      (v &&& (BitVec.allOnes 64 <<< k)).toNat = v.toNat - v.toNat % 2 ^ k :=
    fun k hk hmask => Mask.toNat_and_of_lt hk hmask v.isLt
  rw [PagingMetaData.vaddrIsValid, Bool.or_eq_true, beq_iff_eq, beq_iff_eq, ← BitVec.toNat_inj,
    ← BitVec.toNat_inj, hva, hzero]
  obtain h | h := hL
  · have hmask : (BitVec.allOnes 64 <<< 38).toNat = 2 ^ 64 - 2 ^ 38 := by decide
    rw [h, htop 38 (by decide) hmask, hmask]
    omega
  · have hmask : (BitVec.allOnes 64 <<< 47).toNat = 2 ^ 64 - 2 ^ 47 := by decide
    rw [h, htop 47 (by decide) hmask, hmask]
    omega

/-! ### Runs -/

section Runs

variable [GenericPTE 64 PTE]

/-- The address and the page size given to the call of `map` that created the entry at the end of
a path. -/
abbrev Origins := List (Fin ENTRY_COUNT) → Option (VirtAddr × PageSize)

/-- The states reached from `try_new` by calls of `map` and `unmap`, with the origins of the
leaves; the addresses and sizes to be mapped satisfy `ok`. -/
inductive MapRun (ok : VirtAddr → PageSize → Prop) (self : PageTable64 B M PTE H) :
    World PTE σ → Origins → Prop
  | new {w₀ w : World PTE σ} (h : PageTable64.tryNew B M PTE H w₀ = (.ok self, w)) :
    MapRun ok self w fun _ => none
  | map {w : World PTE σ} {origins : Origins} (h : MapRun ok self w origins) {v : VirtAddr}
    (target : PhysAddr) {size : PageSize} {f : MappingFlags 64} (hv : ok v size) (hf : Readable f) :
    MapRun ok self (self.map v target size f w).2
      (if (self.map v target size f w).1 = .ok () then
        Function.update origins (pathTo M size.height v) (some (v, size)) else origins)
  | unmap {w : World PTE σ} {origins : Origins} (h : MapRun ok self w origins) (v : VirtAddr) :
    MapRun ok self (self.unmap v w).2 origins

/-- The origin of the leaf of each address is a call of `map` for the page of the leaf. -/
def CreatedBy (ok : VirtAddr → PageSize → Prop) (M : PagingMetaData)
    (m : PhysAddr → Fin ENTRY_COUNT → PTE) (root : PhysAddr) (origins : Origins) : Prop :=
  ∀ v e k, leafAt M m root v = some (e, k) → ∃ v₀ size, origins (pathTo M k v) = some (v₀, size) ∧
    size.height = k ∧ SamePage M k v₀ v ∧ ok v₀ size

variable {ok : VirtAddr → PageSize → Prop} {self : PageTable64 B M PTE H} {w : World PTE σ}
  {origins : Origins}

theorem MapRun.reachable (h : MapRun ok self w origins) : Reachable Readable self w := by
  induction h with
  | new h => exact .new h
  | map _ target _ hf ih => exact ih.call (.map _ target _ _) hf
  | unmap _ v ih => exact ih.call (.unmap v) trivial

variable [LawfulPTE M PTE] {inUse : σ → Set PhysAddr}

theorem MapRun.createdBy (hH : FreshFrames M H inUse) (h : MapRun ok self w origins) :
    CreatedBy ok M w.mem self.rootPaddr origins := by
  have hL := LawfulPTE.levels (M := M) PTE
  induction h with
  | new h =>
    intro v e k hleaf
    rw [tryNew_leafAt self h v] at hleaf
    exact absurd hleaf (by simp)
  | @map w origins hrun v target size f hv hf ih =>
    have I := hrun.reachable.inv hH self fun f => allowed_read M
    obtain ⟨⟨err, herr⟩, hsame⟩ | ⟨hok, -, hnew⟩ :=
      map_leaf self I hH target size (LawfulPTE.read_accepted M hf) v
    · intro v' e k hleaf
      rw [hsame] at hleaf
      rw [if_neg (by rw [herr]; nofun)]
      exact ih v' e k hleaf
    · intro v' e k hleaf
      rw [hnew] at hleaf
      rw [if_pos hok]
      by_cases hpage : SamePage M size.height v v'
      · -- the leaf is the new one
        rw [if_pos hpage, if_pos (LawfulPTE.presentWith_read M hf), Option.some_inj,
          Prod.mk.injEq] at hleaf
        obtain ⟨-, rfl⟩ := hleaf
        have hpath : pathTo M size.height v' = pathTo M size.height v := hpage.symm
        rw [hpath, Function.update_self]
        exact ⟨v, size, rfl, rfl, hpage, hv⟩
      · -- another leaf, and so another path
        rw [if_neg hpage] at hleaf
        have hne : pathTo M k v' ≠ pathTo M size.height v := by
          intro hpath
          have hk := leafAt_height_le hleaf
          have hsize := size.height_le
          have hlen := congrArg List.length hpath
          rw [length_pathTo hL, length_pathTo hL] at hlen
          obtain rfl : k = size.height := by omega
          exact hpage hpath.symm
        rw [Function.update_of_ne hne]
        exact ih v' e k hleaf
  | @unmap w origins hrun v ih =>
    have I := hrun.reachable.inv hH self fun f => allowed_read M
    intro v' e k hleaf
    cases hl : leafAt M w.mem self.rootPaddr v with
    | none =>
      rw [(unmap_no_leaf self I hl).2] at hleaf
      exact ih v' e k hleaf
    | some leaf =>
      rw [(unmap_leaf self I hl).2] at hleaf
      by_cases hpage : SamePage M leaf.2 v v'
      · rw [if_pos hpage] at hleaf
        exact absurd hleaf (by simp)
      · rw [if_neg hpage] at hleaf
        exact ih v' e k hleaf

end Runs

/-! ### Reported addresses -/

/-- The start of the page of an address, modulo the size of the address space, is valid and the
address rounded down exactly if the address is in the lower half, and the page is not smaller
than asked for. -/
theorem pageStart_iff (hL : M.LEVELS = 3 ∨ M.LEVELS = 4) (hva : M.VA_MAX_BITS = 12 + 9 * M.LEVELS)
    {v v' : VirtAddr} {size : PageSize}
    (hpage : SamePage M size.height v v') (hlt : v'.toNat < M.space)
    (halign : v'.toNat % 2 ^ (12 + 9 * size.height) = 0) :
    M.vaddrIsValid v' = true ∧ v' = MemoryAddr.alignDown v (size.toUsize 64) ↔
      v.toNat < 2 ^ (M.VA_MAX_BITS - 1) ∧ v.toNat % size.bytes < 2 ^ (12 + 9 * size.height) := by
  have h64 := v.isLt
  rw [samePage_iff hL size.height_le] at hpage
  rw [vaddrIsValid_iff hL hva, ← BitVec.toNat_inj, PageSize.toNat_alignDown (by decide)]
  rw [PagingMetaData.space] at hpage hlt
  rw [hva]
  obtain h | h := hL <;> rw [h] at hpage hlt ⊢ <;> cases size <;>
    simp only [PageSize.height, PageSize.bytes] at hpage halign ⊢ <;> omega

/-- An entry is reported at a valid address, and this is the address that was given to `map`,
rounded down to the page size. -/
def ReportsMapped (M : PagingMetaData) (origins : Origins) (x : Visited PTE) : Prop :=
  M.vaddrIsValid x.vaddr = true ∧
    ∃ v size, origins (pathTo M (x.height M) x.vaddr) = some (v, size) ∧
    x.vaddr = MemoryAddr.alignDown v (size.toUsize 64)

section Reports

variable [GenericPTE 64 PTE] [LawfulPTE M PTE] {inUse : σ → Set PhysAddr}
  {ok : VirtAddr → PageSize → Prop} {self : PageTable64 B M PTE H} {w : World PTE σ}
  {origins : Origins}

/-- A leaf has been created by a call of `map`, and it is reported at the address given to that
call exactly if the address is in the lower half. -/
theorem reportsMapped_iff (hH : FreshFrames M H inUse) (hva : M.VA_MAX_BITS = 12 + 9 * M.LEVELS)
    (h : MapRun ok self w origins) {limit : Usize} {c : WalkCall PTE}
    (hc : c ∈ self.reported limit w) (hleaf : c.visited.IsLeaf M) :
    ∃ v size, origins (pathTo M (c.visited.height M) c.visited.vaddr) = some (v, size) ∧
      ok v size ∧ (ReportsMapped M origins c.visited ↔ v.toNat < 2 ^ (M.VA_MAX_BITS - 1) ∧
        v.toNat % size.bytes < 2 ^ (12 + 9 * size.height)) := by
  have hL := LawfulPTE.levels (M := M) PTE
  have I := h.reachable.inv hH self fun f => allowed_read M
  have hentry := isEntry_of_reported self w hc
  have hcovers := (hentry.samePage_iff_covers hL _).mp (SamePage.refl _ _)
  obtain ⟨v, size, horigin, hsize, hpage, hv⟩ :=
    h.createdBy hH _ _ _ (hentry.leafAt_eq I hleaf hcovers)
  have haligned := hentry.aligned
  rw [Visited.bytes, ← hsize] at haligned
  rw [← hsize] at hpage
  refine ⟨v, size, horigin, hv, ?_⟩
  rw [← pageStart_iff hL hva hpage hentry.vaddr_lt haligned, ReportsMapped, horigin]
  simp

/-- The leaf of an address is reported. -/
theorem exists_reported_leaf (hT : ∀ p, ValidFrame M p → isPresent (newTable p : PTE) = true)
    (hH : FreshFrames M H inUse) (h : Reachable Readable self w) {v : VirtAddr}
    (hv : leafAt M w.mem self.rootPaddr v ≠ none) :
    ∃ c ∈ self.reported 512 w, c.visited.IsLeaf M := by
  have I := h.inv hH self fun f => allowed_read M
  obtain ⟨⟨e, k⟩, hleaf⟩ := Option.ne_none_iff_exists'.mp hv
  obtain ⟨x, hx, hxleaf, -⟩ := exists_isEntry_of_leafAt hleaf
  refine ⟨.pre x, ?_, hxleaf⟩
  rw [reported_eq (by decide) self w]
  exact (pre_mem_walkCalls (LawfulPTE.levels (M := M) PTE) (I.tablesPresent hT)).mpr hx

end Reports

/-- Where addresses are valid that are sign extended (everywhere but on AArch64), each leaf that
`walk` reports has been created by a call of `map`; it is reported at a valid address, the one
given to that call rounded down to the page size, exactly if the address is in the lower half
and the page is not smaller than asked for. -/
theorem Arch.walk_reportsMapped_iff (arch : Arch) (harch : ∀ armEl2, arch ≠ .a64 armEl2)
    {H : PagingHandler 64 σ} {inUse : σ → Set PhysAddr} (hH : FreshFrames arch.metaData H inUse)
    {ok : VirtAddr → PageSize → Prop} {self : PageTable64 B arch.metaData arch.PTE H}
    {w : World arch.PTE σ} {origins : Origins}
    (h : MapRun ok self w origins) {limit : Usize} {c : WalkCall arch.PTE}
    (hc : c ∈ self.reported limit w) (hleaf : c.visited.IsLeaf arch.metaData) :
    ∃ v size, origins (pathTo arch.metaData (c.visited.height arch.metaData) c.visited.vaddr) =
        some (v, size) ∧
      ok v size ∧ (ReportsMapped arch.metaData origins c.visited ↔
        v.toNat < 2 ^ (arch.metaData.VA_MAX_BITS - 1) ∧
          v.toNat % size.bytes < 2 ^ (12 + 9 * size.height)) := by
  refine reportsMapped_iff hH ?_ h hc hleaf
  cases arch <;> rfl

/-- A new table of x86_64 in which one 4K page has been mapped at an address. -/
def onePageWorld (v : VirtAddr) : World X64PTE ℕ :=
  ((firstTable ⟨true, true⟩ X64PagingMetaData X64PTE 8).map v 0x1000 .size4K .READ
    (firstWorld X64PTE)).2

/-- The origin of that page. -/
def onePageOrigins (v : VirtAddr) : Origins :=
  Function.update (fun _ => none) (pathTo X64PagingMetaData 0 v) (some (v, .size4K))

theorem onePageWorld_run {ok : VirtAddr → PageSize → Prop} {v : VirtAddr} (hv : ok v .size4K)
    (hmap : ((firstTable ⟨true, true⟩ X64PagingMetaData X64PTE 8).map v 0x1000 .size4K .READ
      (firstWorld X64PTE)).1 = .ok ()) :
    MapRun ok (firstTable ⟨true, true⟩ X64PagingMetaData X64PTE 8) (onePageWorld v)
      (onePageOrigins v) := by
  have hnew : MapRun ok (firstTable ⟨true, true⟩ X64PagingMetaData X64PTE 8) (firstWorld X64PTE)
      fun _ => none := .new (tryNew_blankWorld 7)
  have hrun := hnew.map 0x1000 hv (show Readable .READ by decide)
  rwa [if_pos hmap] at hrun

/-- The page is reported. -/
theorem onePageWorld_leaf {v : VirtAddr}
    (hmap : ((firstTable ⟨true, true⟩ X64PagingMetaData X64PTE 8).map v 0x1000 .size4K .READ
      (firstWorld X64PTE)).1 = .ok ()) :
    ∃ c ∈ (firstTable ⟨true, true⟩ X64PagingMetaData X64PTE 8).reported 512 (onePageWorld v),
      c.visited.IsLeaf X64PagingMetaData := by
  have hH : FreshFrames X64PagingMetaData (bumpHandler 8) bumped :=
    freshFrames_bumpHandler (by decide) (by decide)
  have hnew : Reachable Readable (firstTable ⟨true, true⟩ X64PagingMetaData X64PTE 8)
      (firstWorld X64PTE) := .new (tryNew_blankWorld 7)
  have I := hnew.inv hH _ fun f => allowed_read X64PagingMetaData
  refine exists_reported_leaf (fun p _ => X64PTE.isPresent_newTable p) hH
    (hnew.call (.map v 0x1000 .size4K .READ) rfl) (v := v) ?_
  obtain ⟨⟨err, herr⟩, -⟩ | ⟨-, -, hleaf⟩ := map_leaf _ I hH 0x1000 .size4K
    (show debugAssert X64PTE .READ = true from rfl) v
  · rw [hmap] at herr
    nomatch herr
  · have hv := hleaf v
    rw [if_pos (SamePage.refl _ v), if_pos (show presentWith X64PTE .READ = true from rfl)] at hv
    rw [onePageWorld, hv]
    exact Option.some_ne_none _

/-- A page in the lower half. -/
theorem Arch.walk_reportsMapped_iff_run :
    ∃ c ∈ (firstTable ⟨true, true⟩ X64PagingMetaData X64PTE 8).reported 512 (onePageWorld 0x1000),
      c.visited.IsLeaf X64PagingMetaData ∧ ∃ v size,
        onePageOrigins 0x1000 (pathTo X64PagingMetaData (c.visited.height X64PagingMetaData)
          c.visited.vaddr) = some (v, size) ∧ X64PagingMetaData.vaddrIsValid v = true ∧
        (ReportsMapped X64PagingMetaData (onePageOrigins 0x1000) c.visited ↔
          v.toNat < 2 ^ 47 ∧ v.toNat % size.bytes < 2 ^ (12 + 9 * size.height)) := by
  have hH : FreshFrames X64PagingMetaData (bumpHandler 8) bumped :=
    freshFrames_bumpHandler (by decide) (by decide)
  have hmap : ((firstTable ⟨true, true⟩ X64PagingMetaData X64PTE 8).map 0x1000 0x1000 .size4K .READ
      (firstWorld X64PTE)).1 = .ok () := by decide +kernel
  have hrun : MapRun (fun v _ => X64PagingMetaData.vaddrIsValid v = true) _ _ _ :=
    onePageWorld_run (by decide) hmap
  obtain ⟨c, hc, hleaf⟩ := onePageWorld_leaf hmap
  exact ⟨c, hc, hleaf, Arch.walk_reportsMapped_iff .x64 nofun hH hrun hc hleaf⟩

/-- A page in the upper half is reported at an address that is not valid. -/
theorem walk_reports_invalid :
    MapRun (fun v _ => X64PagingMetaData.vaddrIsValid v = true)
        (firstTable ⟨true, true⟩ X64PagingMetaData X64PTE 8) (onePageWorld 0xffff800000000000)
        (onePageOrigins 0xffff800000000000) ∧
      ¬ ∀ c ∈ (firstTable ⟨true, true⟩ X64PagingMetaData X64PTE 8).reported 512
          (onePageWorld 0xffff800000000000), c.visited.IsLeaf X64PagingMetaData →
        ReportsMapped X64PagingMetaData (onePageOrigins 0xffff800000000000) c.visited := by
  have hH : FreshFrames X64PagingMetaData (bumpHandler 8) bumped :=
    freshFrames_bumpHandler (by decide) (by decide)
  have hmap : ((firstTable ⟨true, true⟩ X64PagingMetaData X64PTE 8).map 0xffff800000000000 0x1000
      .size4K .READ (firstWorld X64PTE)).1 = .ok () := by decide +kernel
  have hrun : MapRun (fun v _ => X64PagingMetaData.vaddrIsValid v = true) _ _ _ :=
    onePageWorld_run (by decide) hmap
  refine ⟨hrun, fun hall => ?_⟩
  obtain ⟨c, hc, hleaf⟩ := onePageWorld_leaf hmap
  obtain ⟨v, size, horigin, -, hiff⟩ := reportsMapped_iff hH rfl hrun hc hleaf
  -- the only origin is the address of the page
  rw [onePageOrigins, Function.update_apply] at horigin
  split at horigin
  · obtain ⟨rfl, rfl⟩ := Prod.mk.inj (Option.some_inj.mp horigin)
    exact absurd (hiff.mp (hall c hc hleaf)).1 (by decide)
  · nomatch horigin

end PageTableMultiarch
