/-
Pages that are protected with the flags that `query` returns for them.

* `PagesReachable.entries` — in a run of `map`, `protect` and `unmap` with `READ` and without
  pages of 1M, every entry of a page is as it was stored with some flags;
* `protect_keeps_iff` — `protect` leaves all entries as they are exactly if the leaf is not
  changed by its own flags;
* `Arch.protect_queried_iff` — with the flags that `query` returns it does, unless the leaf has
  the memory type of a device of XuanTie cores.
-/
import PageTableMultiarch.Table64.Remap
import PageTableMultiarch.Entry.Reencode

namespace PageTableMultiarch

open GenericPTE Radix

variable {B : Build} {M : PagingMetaData} {PTE σ : Type} {H : PagingHandler 64 σ}
  [GenericPTE 64 PTE] {self : PageTable64 B M PTE H} {w : World PTE σ}

/-- The states of a table reached by `map` with pages of 4K, 2M and 1G, `protect` and `unmap`,
with readable flags. -/
inductive PagesReachable (self : PageTable64 B M PTE H) : World PTE σ → Prop
  | new {w₀ w : World PTE σ} (h : PageTable64.tryNew B M PTE H w₀ = (.ok self, w)) :
    PagesReachable self w
  | map {w : World PTE σ} (h : PagesReachable self w) (v : VirtAddr) (target : PhysAddr)
    {size : PageSize} (hsize : size ≠ .size1M) {f : MappingFlags 64} (hf : Readable f) :
    PagesReachable self (self.map v target size f w).2
  | protect {w : World PTE σ} (h : PagesReachable self w) (v : VirtAddr) {f : MappingFlags 64}
    (hf : Readable f) : PagesReachable self (self.protect v f w).2
  | unmap {w : World PTE σ} (h : PagesReachable self w) (v : VirtAddr) :
    PagesReachable self (self.unmap v w).2

theorem PagesReachable.reachable (h : PagesReachable self w) : Reachable Readable self w := by
  induction h with
  | new h => exact .new h
  | map _ v target _ hf ih => exact ih.call (.map v target _ _) hf
  | protect _ v hf ih => exact ih.call (.protect v _) hf
  | unmap _ v ih => exact ih.call (.unmap v) trivial

/-! ### The entries of pages -/

/-- An entry at the end of a path of `len` indices that is unused or that of a page, and then huge
exactly above the last level. -/
def PageEntry (M : PagingMetaData) (len : ℕ) (e : PTE) : Prop :=
  e = empty ∨ ∃ f, Readable f ∧ MadeWith f (decide (len < M.LEVELS)) e

/-- The entries that such calls store. -/
def PageStore (M : PagingMetaData) (ρ : List (Fin ENTRY_COUNT)) (e : PTE) : Prop :=
  NoTable M ρ.length e ∧ PageEntry M ρ.length e

section Lawful

variable [LawfulPTE M PTE]

theorem pageStore_empty (ρ : List (Fin ENTRY_COUNT)) : PageStore M ρ (empty : PTE) :=
  ⟨Or.inr (child_empty M), Or.inl rfl⟩

/-- The entry for a page of height `k`. -/
theorem pageStore_of_madeWith (v : VirtAddr) {k : ℕ} (hk : k ≤ 2) {f : MappingFlags 64}
    (hf : Readable f) {h : Bool} (hh : h = decide (0 < k)) {e : PTE} (he : MadeWith f h e)
    (hleaf : LeafEntry (fun _ => True) M (M.LEVELS - k) e) : PageStore M (pathTo M k v) e := by
  have hL := LawfulPTE.levels (M := M) PTE
  have hlen := length_pathTo hL k v
  have hheight : decide (M.LEVELS - k < M.LEVELS) = decide (0 < k) :=
    decide_eq_decide.mpr (by omega)
  rw [PageStore, PageEntry, hlen, hheight, ← hh]
  exact ⟨hleaf.noTable, Or.inr ⟨f, hf, he⟩⟩

/-- In a run of such calls every entry is a table, unused, or that of a page. -/
theorem PagesReachable.entries {inUse : σ → Set PhysAddr} (hH : FreshFrames M H inUse)
    (h : PagesReachable self w) : Entries (PageEntry M) M self.rootPaddr w := by
  have hQ : ∀ n, PageEntry M n (empty : PTE) := fun n => Or.inl rfl
  have hall : ∀ f, Readable f → Allowed (fun _ : PTE => True) f :=
    fun f hf => allowed_true (LawfulPTE.read_accepted M hf)
  induction h with
  | new h =>
    -- a new table has no entry in use
    have I : Inv (fun _ => False) M inUse self.rootPaddr _ := tryNew_inv hH self h
    intro ρ slot hslot hρ
    exact (I.entries hslot hρ).imp_right fun hleaf => Or.inl (hleaf.resolve_right fun hc => hc.1)
  | @map w hw v target size hsize f hf ih =>
    have T := (hw.reachable.inv hH self hall).toTree
    have hsteps := Steps.map self hH T v target size f (W := PageStore M) fun _ _ => ?_
    · exact fun {ρ slot} => hsteps.entries hH hQ (fun _ _ he => he) T ih
    refine pageStore_of_madeWith v size.height_le hf ?_ (Or.inl ⟨_, rfl⟩)
      (newPage_leafEntry (hall f hf) _ size)
    rw [← isHuge_heightSize, heightSize_height hsize]
  | @protect w hw v f hf ih =>
    have T := (hw.reachable.inv hH self hall).toTree
    have hstore : ∀ (slot : Slot) k, seek w.mem self.rootPaddr (vpath M v) = .ok (slot, k) →
        PageStore M (pathTo M k v) (setFlags (w.entry slot) f (heightSize k).isHuge) := by
      intro slot k hs
      have hk := (slotAt_of_seek (LawfulPTE.levels PTE) hs).2.1
      exact pageStore_of_madeWith v hk hf (isHuge_heightSize k) (Or.inr ⟨_, rfl⟩)
        (setFlags_leafEntry (hall f hf) _ hk)
    have hsteps := Steps.protect (H := H) (A := fun _ => True) self v f
      fun slot k hs _ _ => hstore slot k hs
    exact fun {ρ slot} => hsteps.entries hH hQ (fun _ _ he => he) T ih
  | @unmap w hw v ih =>
    have T := (hw.reachable.inv hH self hall).toTree
    have hsteps := Steps.unmap (H := H) (A := fun _ => True) (W := PageStore M) (w := w) self v
      fun k => pageStore_empty _
    exact fun {ρ slot} => hsteps.entries hH hQ (fun _ _ he => he) T ih

/-- The leaf of an address has been stored for a page of its size. -/
theorem PagesReachable.leaf_madeWith {inUse : σ → Set PhysAddr} (hH : FreshFrames M H inUse)
    (h : PagesReachable self w) {v : VirtAddr} {e : PTE} {k : ℕ}
    (hleaf : leafAt M w.mem self.rootPaddr v = some (e, k)) :
    ∃ f, Readable f ∧ MadeWith f (heightSize k).isHuge e := by
  have hL := LawfulPTE.levels (M := M) PTE
  obtain ⟨slot, hs, rfl, hpresent⟩ := leaf_eq_some hleaf
  obtain ⟨hslot, hk, hhuge⟩ := slotAt_of_seek hL hs
  have hlen := length_pathTo hL k v
  obtain ⟨htable, p, -, hnew⟩ | hempty | ⟨f, hf, hmade⟩ := h.entries hH hslot (by omega)
  · -- a walk does not end at a table
    rw [hlen] at htable
    have hhuge := hhuge (by omega)
    rw [World.entry] at hnew
    rw [hnew, LawfulPTE.isHuge_newTable M] at hhuge
    exact absurd hhuge Bool.false_ne_true
  · rw [World.entry] at hempty
    rw [hempty, LawfulPTE.isPresent_empty M] at hpresent
    exact absurd hpresent Bool.false_ne_true
  · have hheight : decide (M.LEVELS - k < M.LEVELS) = decide (0 < k) :=
      decide_eq_decide.mpr (by omega)
    rw [hlen, hheight, ← isHuge_heightSize] at hmade
    exact ⟨f, hf, hmade⟩

/-! ### `protect` -/

/-- `protect` leaves all entries as they are exactly if it leaves the leaf as it is. -/
theorem protect_keeps_iff (self : PageTable64 B M PTE H) {v : VirtAddr} {f : MappingFlags 64}
    (hf : debugAssert PTE f = true) {e : PTE} {k : ℕ}
    (hleaf : leafAt M w.mem self.rootPaddr v = some (e, k)) :
    (self.protect v f w).1 = .ok (heightSize k) ∧ (self.protect v f w).2.mem = w.mem ↔
      setFlags e f (heightSize k).isHuge = e := by
  obtain ⟨slot, hs, rfl, hpresent⟩ := leaf_eq_some hleaf
  obtain ⟨acc, -, heq⟩ := protect_apply_of_accepted (LawfulPTE.levels PTE) self hf (w := w) (v := v)
  simp only [hs] at heq
  rw [World.entry, if_pos hpresent] at heq
  rw [heq]
  refine ⟨fun h => ?_, fun h => ⟨rfl, ?_⟩⟩
  · have hentry := congrFun (congrFun h.2 slot.table) slot.index
    simpa [World.store, World.queue, Radix.set] using hentry
  · rw [h]
    simp [World.store, World.queue, Radix.set]

end Lawful

/-- `protect` with the flags that `query` returns for an address leaves all entries as they are,
unless the leaf of the address has the memory type of a device of XuanTie cores. -/
theorem Arch.protect_queried_iff (arch : Arch) {H : PagingHandler 64 σ} {inUse : σ → Set PhysAddr}
    (hH : FreshFrames arch.metaData H inUse) {self : PageTable64 B arch.metaData arch.PTE H}
    {w : World arch.PTE σ} (hw : PagesReachable self w) {v : VirtAddr} {frame : PhysAddr}
    {f : MappingFlags 64} {size : PageSize} (hquery : (self.query v w).1 = .ok (frame, f, size)) :
    (self.protect v f w).1 = .ok size ∧ (self.protect v f w).2.mem = w.mem ↔
      ∀ e k, leafAt arch.metaData w.mem self.rootPaddr v = some (e, k) →
        arch.stronglyOrdered e = false := by
  have I : Inv (fun e : arch.PTE => isPresent e = true) arch.metaData inUse self.rootPaddr w :=
    hw.reachable.inv hH self fun _ => allowed_read arch.metaData
  rw [query_leaf self I] at hquery
  rcases hleaf : leafAt arch.metaData w.mem self.rootPaddr v with _ | ⟨e, k⟩
  · rw [hleaf] at hquery
    nomatch hquery
  · rw [hleaf] at hquery
    obtain ⟨-, hpair⟩ := Prod.mk.inj (Res.ok.inj hquery)
    obtain ⟨hflags, rfl⟩ := Prod.mk.inj hpair
    obtain ⟨f', hf', hmade⟩ := hw.leaf_madeWith hH hleaf
    have haccepted : debugAssert arch.PTE f = true := by
      have hnormal : flags e = normalise arch.PTE f' := by
        obtain ⟨p, rfl⟩ | ⟨e₀, rfl⟩ := hmade
        · exact LawfulPTE.flags_newPage arch.metaData p f' _
        · exact LawfulPTE.flags_setFlags arch.metaData e₀ f' _
      rw [← hflags, hnormal]
      exact arch.debugAssert_normalise hf'
    rw [protect_keeps_iff self haccepted hleaf, ← hflags, arch.setFlags_flags_iff hf' hmade]
    simp

/-- A new Sv39 table for XuanTie cores in which the first page of 2M is mapped with the flags. -/
def xuantieWorld (f : MappingFlags 64) : World (Rv64PTE true) ℕ :=
  ((firstTable ⟨true, true⟩ Sv39MetaData (Rv64PTE true) 8).map 0 0x40000000 .size2M f
    (firstWorld (Rv64PTE true))).2

theorem xuantieWorld_reachable {f : MappingFlags 64} (hf : Readable f) :
    PagesReachable (firstTable ⟨true, true⟩ Sv39MetaData (Rv64PTE true) 8) (xuantieWorld f) :=
  (PagesReachable.new (tryNew_blankWorld 7)).map 0 0x40000000 (by decide) hf

theorem Arch.protect_queried_iff_run :
    ((firstTable ⟨true, true⟩ Sv39MetaData (Rv64PTE true) 8).protect 0x1000 .READ
        (xuantieWorld .READ)).1 = .ok .size2M ∧
      ((firstTable ⟨true, true⟩ Sv39MetaData (Rv64PTE true) 8).protect 0x1000 .READ
        (xuantieWorld .READ)).2.mem = (xuantieWorld .READ).mem ↔
      ∀ e k, leafAt Sv39MetaData (xuantieWorld .READ).mem 0x1000 0x1000 = some (e, k) →
        (Arch.sv39 true).stronglyOrdered e = false :=
  Arch.protect_queried_iff (.sv39 true)
    (freshFrames_bumpHandler (by decide) (by decide) : FreshFrames Sv39MetaData _ bumped)
    (xuantieWorld_reachable (f := .READ) rfl)
    (by decide +kernel : ((firstTable ⟨true, true⟩ Sv39MetaData
      (Rv64PTE true) 8).query 0x1000 (xuantieWorld .READ)).1 = .ok (0x40001000, .READ, .size2M))

/-- There a page of a device is read without `DEVICE`, and `protect` with these flags makes it
one of normal memory. -/
theorem protect_forgets_device :
    PagesReachable (firstTable ⟨true, true⟩ Sv39MetaData (Rv64PTE true) 8)
        (xuantieWorld (.READ ||| .DEVICE)) ∧
      ((firstTable ⟨true, true⟩ Sv39MetaData (Rv64PTE true) 8).query 0
        (xuantieWorld (.READ ||| .DEVICE))).1 = .ok (0x40000000, .READ, .size2M) ∧
      ((firstTable ⟨true, true⟩ Sv39MetaData (Rv64PTE true) 8).protect 0 .READ
        (xuantieWorld (.READ ||| .DEVICE))).2.mem ≠ (xuantieWorld (.READ ||| .DEVICE)).mem := by
  refine ⟨xuantieWorld_reachable (by decide), by decide +kernel, fun h => ?_⟩
  have hentry := congrFun (congrFun h 0x2000) ⟨0, by decide⟩
  revert hentry
  decide +kernel

end PageTableMultiarch
