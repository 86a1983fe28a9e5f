/-
`remap` and `unmap` followed by `map`.

Both store an entry for the page of an address, but `map` rounds the address of the frame down to
the page size and `remap` does not.

* `remap_query`, `unmap_map_query` — what the two answer afterwards, at every address;
* `remap_agrees_iff`, `Arch.remapAgrees_iff` — they agree exactly if the frame is aligned to the
  page size, up to bits below 4K.
-/
import PageTableMultiarch.Table64.MapOutcome

namespace PageTableMultiarch

open GenericPTE Radix

variable {B : Build} {M : PagingMetaData} {PTE σ : Type} {H : PagingHandler 64 σ}
  [GenericPTE 64 PTE]

/-- `remap` succeeds with the size of the page and does to all answers of `query` what `unmap`
followed by `map` does. -/
structure RemapAgrees (table : PageTable64 B M PTE H) (w : World PTE σ) (v : VirtAddr)
    (target : PhysAddr) (f : MappingFlags 64) (size : PageSize) : Prop where
  remap_ok : (table.remap v target f w).1 = .ok size
  unmap_ok : ∃ frame f', (table.unmap v w).1 = .ok (frame, f', size)
  map_ok : (table.map v target size f (table.unmap v w).2).1 = .ok ()
  query (v' : VirtAddr) : (table.query v' (table.remap v target f w).2).1 =
    (table.query v' (table.map v target size f (table.unmap v w).2).2).1
  page {v' : VirtAddr} (h : SamePage M size.height v v') :
    (table.query v' (table.remap v target f w).2).1 =
      .ok (MemoryAddr.alignDown target (size.toUsize 64) + size.alignOffset v', normalise PTE f,
        size)

section Lawful

variable [LawfulPTE M PTE] {inUse : σ → Set PhysAddr} (self : PageTable64 B M PTE H)
  {w : World PTE σ} {v : VirtAddr} {e : PTE} {k : ℕ} {target : PhysAddr} {f : MappingFlags 64}
  (hH : FreshFrames M H inUse) (I : Inv (fun _ => True) M inUse self.rootPaddr w)
  (h : leafAt M w.mem self.rootPaddr v = some (e, k))
include hH I h

/-- After a page has been unmapped, it can be mapped. -/
theorem map_unmap_ok (hf : debugAssert PTE f = true) :
    (self.map v target (heightSize k) f (self.unmap v w).2).1 = .ok () := by
  have hL := LawfulPTE.levels (M := M) PTE
  obtain ⟨slot, hs, rfl, hpresent⟩ := leaf_eq_some h
  obtain ⟨hslot, hk, -⟩ := slotAt_of_seek hL hs
  have hlen := length_pathTo hL k v
  obtain ⟨acc, -, heq⟩ := unmap_apply hL self v w
  have hp : isPresent (w.entry slot) = true := hpresent
  simp only [hs, hp, if_true, LawfulPTE.clear_eq M] at heq
  have I' : Inv (fun _ => True) M inUse self.rootPaddr (self.unmap v w).2 :=
    Call.inv hH self I (.unmap v) trivial
  rw [heq] at I' ⊢
  -- the path to the page is as before, and its slot is unused
  have hslot' : SlotAt (((w.touch acc).store slot empty).queue v).mem self.rootPaddr
      (pathTo M (heightSize k).height v) slot := by
    rw [height_heightSize hk]
    exact hslot.set I.forest (by omega) empty
  have hunused : isUnused ((((w.touch acc).store slot empty).queue v).entry slot) = true := by
    rw [LawfulPTE.isUnused_iff M]
    simp [World.entry, World.store, World.queue, Radix.set]
  rw [map_of_slotAt self hH I' hf hslot', if_pos hunused]

variable (ht : target.toNat ≤ M.PA_MAX_ADDR) (hf : Readable f)
include ht hf

/-- What `query` answers after `remap`. -/
theorem remap_query (v' : VirtAddr) : (self.query v' (self.remap v target f w).2).1 =
    if SamePage M k v v' then
      .ok (MemoryAddr.alignDown target (PageSize.size4K.toUsize 64) +
        (heightSize k).alignOffset v', normalise PTE f, heightSize k)
    else (self.query v' w).1 := by
  have haccepted : debugAssert PTE f = true := LawfulPTE.read_accepted M hf
  have I' : Inv (fun _ => True) M inUse self.rootPaddr (self.remap v target f w).2 :=
    Call.inv hH self I (.remap v target f) (allowed_true haccepted)
  obtain ⟨-, hleaf⟩ := remap_leaf self I haccepted target h
  have hquery := query_leaf self I' v'
  rw [hleaf v', LawfulPTE.presentWith_read M hf, if_pos rfl] at hquery
  rw [hquery]
  by_cases hpage : SamePage M k v v'
  · simp only [if_pos hpage, LawfulPTE.paddr_setFlags M, LawfulPTE.paddr_setPaddr (M := M) e ht,
      LawfulPTE.flags_setFlags M]
  · simp only [if_neg hpage, query_leaf self I]

/-- What it answers after `unmap` and `map`. -/
theorem unmap_map_query (v' : VirtAddr) :
    (self.query v' (self.map v target (heightSize k) f (self.unmap v w).2).2).1 =
      if SamePage M k v v' then
        .ok (MemoryAddr.alignDown target ((heightSize k).toUsize 64) +
          (heightSize k).alignOffset v', normalise PTE f, heightSize k)
      else (self.query v' w).1 := by
  have haccepted : debugAssert PTE f = true := LawfulPTE.read_accepted M hf
  have I₁ : Inv (fun _ => True) M inUse self.rootPaddr (self.unmap v w).2 :=
    Call.inv hH self I (.unmap v) trivial
  have I₂ : Inv (fun _ => True) M inUse self.rootPaddr
      (self.map v target (heightSize k) f (self.unmap v w).2).2 :=
    Call.inv hH self I₁ (.map v target (heightSize k) f) (allowed_true haccepted)
  obtain ⟨-, hunmap⟩ := unmap_leaf self I h
  obtain ⟨⟨err, herr⟩, -⟩ | ⟨-, -, hleaf⟩ := map_leaf self I₁ hH target (heightSize k) haccepted v
  · rw [map_unmap_ok self hH I h haccepted] at herr
    nomatch herr
  · have hquery := query_leaf self I₂ v'
    rw [hleaf v', height_heightSize (leafAt_height_le h),
      LawfulPTE.presentWith_read M hf, if_pos rfl, hunmap v'] at hquery
    rw [hquery]
    by_cases hpage : SamePage M k v v'
    · simp only [if_pos hpage, paddr_alignDown ht, LawfulPTE.flags_newPage M]
    · simp only [if_neg hpage, query_leaf self I]

/-- `remap` agrees with `unmap` and `map` exactly if the address of the frame is aligned to the
page size, up to bits below 4K. -/
theorem remap_agrees_iff : RemapAgrees self w v target f (heightSize k) ↔
    target.toNat % (heightSize k).bytes < 0x1000 := by
  have haccepted : debugAssert PTE f = true := LawfulPTE.read_accepted M hf
  have hk := leafAt_height_le h
  have hround : MemoryAddr.alignDown target (PageSize.size4K.toUsize 64) =
      MemoryAddr.alignDown target ((heightSize k).toUsize 64) ↔
        target.toNat % (heightSize k).bytes < 0x1000 := by
    rw [BitVec.toNat_inj.symm, PageSize.toNat_alignDown (by decide),
      PageSize.toNat_alignDown (by decide)]
    have hmod := Nat.mod_mod_of_dvd target.toNat (heightSize k).four_k_dvd_bytes
    have hle := Nat.mod_le target.toNat (heightSize k).bytes
    rw [show PageSize.size4K.bytes = 0x1000 from rfl]
    omega
  rw [← hround]
  constructor
  · intro hagree
    have hpage := hagree.page (SamePage.refl _ v)
    rw [remap_query self hH I h ht hf, if_pos (SamePage.refl _ v)] at hpage
    have hframe := congrArg Prod.fst (Res.ok.inj hpage)
    exact (BitVec.add_left_inj _).mp hframe
  · intro heq
    refine ⟨(remap_leaf self I haccepted target h).1, ⟨_, _, (unmap_leaf self I h).1⟩,
      map_unmap_ok self hH I h haccepted, fun v' => ?_, fun {v'} hpage => ?_⟩
    · rw [remap_query self hH I h ht hf, unmap_map_query self hH I h ht hf, heq]
    · rw [height_heightSize hk] at hpage
      rw [remap_query self hH I h ht hf, if_pos hpage, heq]

end Lawful

/-- The same for every architecture. -/
theorem Arch.remapAgrees_iff (arch : Arch) {H : PagingHandler 64 σ} {inUse : σ → Set PhysAddr}
    (hH : FreshFrames arch.metaData H inUse) {self : PageTable64 B arch.metaData arch.PTE H}
    {w : World arch.PTE σ} (hw : Reachable (fun f => debugAssert arch.PTE f = true) self w)
    {v : VirtAddr} {frame : PhysAddr} {f₀ : MappingFlags 64} {size : PageSize}
    (hquery : (self.query v w).1 = .ok (frame, f₀, size)) {target : PhysAddr}
    (ht : target.toNat ≤ arch.metaData.PA_MAX_ADDR) {f : MappingFlags 64} (hf : Readable f) :
    RemapAgrees self w v target f size ↔ target.toNat % size.bytes < 0x1000 := by
  have I : Inv (fun _ => True) arch.metaData inUse self.rootPaddr w :=
    hw.inv hH self fun _ h => allowed_true h
  rw [query_leaf self I] at hquery
  rcases hleaf : leafAt arch.metaData w.mem self.rootPaddr v with _ | ⟨e, k⟩
  · rw [hleaf] at hquery
    nomatch hquery
  · rw [hleaf] at hquery
    obtain rfl : heightSize k = size := congrArg (fun x => x.2.2) (Res.ok.inj hquery)
    exact remap_agrees_iff self hH I hleaf ht hf

/-- A page of 2M that is remapped to an address aligned to it up to bits below 4K. -/
theorem Arch.remapAgrees_iff_run :
    RemapAgrees (firstTable ⟨true, true⟩ X64PagingMetaData X64PTE 8) (hugePageWorld 0x40000000)
        0x1000 0x80000123 .READ .size2M ↔
      (0x80000123 : PhysAddr).toNat % PageSize.size2M.bytes < 0x1000 :=
  Arch.remapAgrees_iff .x64
    (freshFrames_bumpHandler (by decide) (by decide) : FreshFrames X64PagingMetaData _ bumped)
    ((Reachable.new (tryNew_blankWorld 7)).call (.map 0 0x40000000 .size2M .READ) rfl)
    (by decide +kernel : ((firstTable ⟨true, true⟩ X64PagingMetaData X64PTE 8).query 0x1000
      (hugePageWorld 0x40000000)).1 = .ok (0x40001000, .READ, .size2M)) (by decide) rfl

/-- A page of 2M that is remapped to an address aligned to 4K only. -/
theorem remap_not_rounded :
    Reachable Readable (firstTable ⟨true, true⟩ X64PagingMetaData X64PTE 8)
        (hugePageWorld 0x40000000) ∧
      ((firstTable ⟨true, true⟩ X64PagingMetaData X64PTE 8).query 0 (hugePageWorld 0x40000000)).1 =
        .ok (0x40000000, .READ, .size2M) ∧
      ((firstTable ⟨true, true⟩ X64PagingMetaData X64PTE 8).query 0
        ((firstTable ⟨true, true⟩ X64PagingMetaData X64PTE 8).remap 0 0x80001000 .READ
          (hugePageWorld 0x40000000)).2).1 = .ok (0x80001000, .READ, .size2M) ∧
      ¬ RemapAgrees (firstTable ⟨true, true⟩ X64PagingMetaData X64PTE 8) (hugePageWorld 0x40000000)
        0 0x80001000 .READ .size2M := by
  refine ⟨hugePageWorld_reachable 0x40000000, by decide +kernel, by decide +kernel, fun h => ?_⟩
  have hpage := h.page (SamePage.refl _ 0)
  revert hpage
  decide +kernel

end PageTableMultiarch
