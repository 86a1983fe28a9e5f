/-
What `remap` may change.

`remap` has no check for a present entry: it overwrites whatever entry the walk finds.
`RemapSafe` says that it fails where a table is missing and changes the answers of
`query` for one page only, the one that contains the address.  This rests on a zero
entry not being taken for a huge page, which fails on AArch64.

* `remapSafe_iff` — `remap` is safe exactly when the walk does not stop at a zero entry
  that the encoding takes for a huge page;
* `Arch.remapSafe_iff_no_zero_block` — the condition for every architecture.
-/
import PageTableMultiarch.Table64.Run
import PageTableMultiarch.Entry.Arch

namespace PageTableMultiarch

open GenericPTE Radix

variable {B : Build} {M : PagingMetaData} {PTE σ : Type} {H : PagingHandler 64 σ}
  [GenericPTE 64 PTE]

/-- Flags with `READ`. -/
def Readable (f : MappingFlags 64) : Prop := f.contains .READ = true

instance : DecidablePred Readable := fun _ => inferInstanceAs (Decidable (_ = _))

/-- The entry of height `j` on the path of an address is zero in a table that exists. -/
def ZeroAt (M : PagingMetaData) (m : PhysAddr → Fin ENTRY_COUNT → PTE) (root : PhysAddr)
    (v : VirtAddr) (j : ℕ) : Prop :=
  ∃ slot, SlotAt m root (pathTo M j v) slot ∧ m slot.table slot.index = empty

/-- Some intermediate table on the path of the address is absent. -/
def TableMissing (M : PagingMetaData) (m : PhysAddr → Fin ENTRY_COUNT → PTE) (root : PhysAddr)
    (v : VirtAddr) : Prop :=
  ∃ j, 0 < j ∧ j < M.LEVELS ∧ ZeroAt M m root v j

/-- The call `remap(v, target, f)` fails and changes no entry where a table is missing;
and whenever the answer of `query` changes at an address, the address lies in the leaf
page of `v`, or in the 4K page of `v` if there is no leaf. -/
def RemapSafe (self : PageTable64 B M PTE H) (w : World PTE σ) (v : VirtAddr)
    (target : PhysAddr) (f : MappingFlags 64) : Prop :=
  (TableMissing M w.mem self.rootPaddr v →
    (self.remap v target f w).1 = .err .notMapped ∧ (self.remap v target f w).2.mem = w.mem) ∧
  ∀ v', (self.query v' (self.remap v target f w).2).1 ≠ (self.query v' w).1 →
    match leafAt M w.mem self.rootPaddr v with
    | some (_, k) => SamePage M k v v'
    | none => SamePage M 0 v v'

section Lawful

variable [LawfulPTE M PTE] {inUse : σ → Set PhysAddr} {w : World PTE σ}

/-- Where a table is missing, the walk stops: at the zero entry if the encoding takes it
for a huge page, with an error if not. -/
theorem seek_of_zeroAt {m : PhysAddr → Fin ENTRY_COUNT → PTE} {root : PhysAddr} {v : VirtAddr}
    {j : ℕ} (h0 : 0 < j) (hj : j < M.LEVELS) (hz : ZeroAt M m root v j) :
    (j ≤ 2 ∧ isHuge (empty : PTE) = true ∧
      ∃ slot, seek m root (vpath M v) = .ok (slot, j) ∧ m slot.table slot.index = empty) ∨
    (¬ (j ≤ 2 ∧ isHuge (empty : PTE) = true) ∧
      seek m root (vpath M v) = .error .notMapped) := by
  have hL := LawfulPTE.levels (M := M) PTE
  obtain ⟨slot, hslot, hempty⟩ := hz
  obtain ⟨τ, hτ, rfl⟩ := (SamePage.refl j v).exists_append hL hj
  have hτne : τ ≠ [] := List.ne_nil_of_length_pos h0
  have hchild : child (m slot.table slot.index) = none := by
    rw [hempty]
    exact child_empty M
  obtain ⟨hok, herr⟩ := hslot.seek_append (Or.inr hchild)
  rw [hτ]
  by_cases hhuge : τ.length ≤ 2 ∧ isHuge (empty : PTE) = true
  · refine Or.inl ⟨hhuge.1, hhuge.2, slot, hok (Or.inr ?_), hempty⟩
    rw [hempty]
    exact hhuge
  · obtain ⟨e, he, hseek⟩ := herr (by
      rintro (h | h)
      · exact hτne h
      · rw [hempty] at h
        exact hhuge h)
    rw [hempty, PageTable64.nextTable, if_pos (by simp [LawfulPTE.paddr_empty M])] at he
    obtain rfl : e = .notMapped := by simpa using he.symm
    exact Or.inr ⟨hhuge, hseek⟩

/-- `remap` is safe exactly when the walk does not stop at a zero entry taken for a huge
page. -/
theorem remapSafe_iff (self : PageTable64 B M PTE H)
    (hH : FreshFrames M H inUse) (hw : Reachable Readable self w) (v : VirtAddr)
    (target : PhysAddr) {f : MappingFlags 64} (hf : Readable f) :
    RemapSafe self w v target f ↔
      (isHuge (empty : PTE) = true → ∀ j, 0 < j → j ≤ 2 → ¬ ZeroAt M w.mem self.rootPaddr v j) := by
  have hL := LawfulPTE.levels (M := M) PTE
  have I : Inv (fun e : PTE => isPresent e = true) M inUse self.rootPaddr w :=
    hw.inv hH self fun f hf => allowed_read M hf
  have hall : Allowed (fun e : PTE => isPresent e = true) f := allowed_read M hf
  obtain ⟨acc, -, heq⟩ := remap_apply_of_accepted hL self v w hall.accepted target
  constructor
  · -- a zero entry taken for a huge page is overwritten, so `remap` succeeds
    intro hsafe hhuge j h0 hj hz
    have hjL : j < M.LEVELS := by omega
    obtain ⟨hres, -⟩ := hsafe.1 ⟨j, h0, hjL, hz⟩
    rcases seek_of_zeroAt h0 hjL hz with ⟨-, -, slot, hs, -⟩ | ⟨hno, -⟩
    · simp only [hs] at heq
      rw [heq] at hres
      exact absurd hres (by simp)
    · exact hno ⟨hj, hhuge⟩
  · intro hcond
    refine ⟨fun hmiss => ?_, fun v' hne => ?_⟩
    · obtain ⟨j, h0, hjL, hz⟩ := hmiss
      rcases seek_of_zeroAt h0 hjL hz with ⟨hj, hhuge, -⟩ | ⟨-, hs⟩
      · exact absurd hz (hcond hhuge j h0 hj)
      · simp only [hs] at heq
        rw [heq]
        exact ⟨rfl, rfl⟩
    · have I' : Inv (fun e : PTE => isPresent e = true) M inUse self.rootPaddr
          (self.remap v target f w).2 := Call.inv hH self I (.remap v target f) hall
      rw [query_leaf self I', query_leaf self I] at hne
      rcases hs : seek w.mem self.rootPaddr (vpath M v) with e | ⟨slot, k⟩
      · simp only [hs] at heq
        rw [heq] at hne
        exact absurd rfl hne
      · obtain ⟨hslot, hk, hh⟩ := slotAt_of_seek hL hs
        -- a huge entry that the walk finds is a leaf
        have hleaf : leafAt M w.mem self.rootPaddr v = some (w.entry slot, k) ∨
            leafAt M w.mem self.rootPaddr v = none ∧ k = 0 := by
          rw [leafAt_of_seek hs]
          rcases Nat.eq_zero_or_pos k with rfl | hk0
          · split
            · exact Or.inl rfl
            · exact Or.inr ⟨rfl, rfl⟩
          · refine Or.inl (if_pos ?_)
            have hlen := length_pathTo hL k v
            have hhuge : isHuge (w.entry slot) = true := hh hk0
            obtain he | ⟨he, -⟩ := I.leafEntry_of_isHuge hslot (by omega) hhuge
            · rw [he] at hhuge
              exact absurd ⟨slot, hslot, he⟩ (hcond hhuge k hk0 hk)
            · exact he
        have hsame : SamePage M k v v' := by
          by_contra hno
          have hstore := I.leafAt_store_found hs
            (setFlags_leafEntry hall (setPaddr (w.entry slot) target) hk) v'
          rw [if_neg hno] at hstore
          simp only [hs] at heq
          rw [heq] at hne
          simp only [World.queue_mem, World.store_mem, World.touch_mem] at hstore hne
          exact hne (by rw [hstore])
        rcases hleaf with hl | ⟨hl, rfl⟩
        · rw [hl]
          exact hsame
        · rw [hl]
          exact hsame

end Lawful

/-- A zero entry decodes as a huge page on AArch64 only. -/
theorem Arch.isHuge_empty (arch : Arch) :
    isHuge (empty : arch.PTE) = true ↔ ∃ armEl2, arch = .a64 armEl2 := by
  cases arch with
  | x64 => exact ⟨fun h => absurd h (by decide), fun ⟨_, h⟩ => nomatch h⟩
  | a64 armEl2 => exact ⟨fun _ => ⟨armEl2, rfl⟩, fun _ => A64PTE.isHuge_empty⟩
  | sv39 xuantie =>
    exact ⟨fun h => absurd h (by cases xuantie <;> decide), fun ⟨_, h⟩ => nomatch h⟩
  | sv48 xuantie =>
    exact ⟨fun h => absurd h (by cases xuantie <;> decide), fun ⟨_, h⟩ => nomatch h⟩
  | la64 => exact ⟨fun h => absurd h (by decide), fun ⟨_, h⟩ => nomatch h⟩

/-- `remap` is safe except on AArch64 where the entry for 1G or 2M on the path of the
address is zero. -/
theorem Arch.remapSafe_iff_no_zero_block (arch : Arch) {H : PagingHandler 64 σ}
    {inUse : σ → Set PhysAddr} (hH : FreshFrames arch.metaData H inUse)
    {self : PageTable64 B arch.metaData arch.PTE H} {w : World arch.PTE σ}
    (hw : Reachable Readable self w) (v : VirtAddr) (target : PhysAddr) {f : MappingFlags 64}
    (hf : Readable f) :
    RemapSafe self w v target f ↔ ∀ armEl2, arch = .a64 armEl2 →
      ∀ j, 0 < j → j ≤ 2 → ¬ ZeroAt arch.metaData w.mem self.rootPaddr v j := by
  rw [remapSafe_iff self hH hw v target hf, arch.isHuge_empty]
  exact ⟨fun h b hb => h ⟨b, hb⟩, fun h ⟨b, hb⟩ => h b hb⟩

/-- An AArch64 table in which 4K at address 0 is mapped. -/
theorem Arch.remapSafe_iff_no_zero_block_run :
    RemapSafe (firstTable ⟨true, true⟩ A64PagingMetaData (A64PTE false) 8)
        (Call.next (firstTable ⟨true, true⟩ A64PagingMetaData (A64PTE false) 8)
          (firstWorld (A64PTE false)) (.map 0 0x1000 .size4K .READ)) 0 0x5000 .READ ↔
      ∀ armEl2, Arch.a64 false = .a64 armEl2 → ∀ j, 0 < j → j ≤ 2 →
        ¬ ZeroAt A64PagingMetaData (Call.next (firstTable ⟨true, true⟩ A64PagingMetaData
          (A64PTE false) 8) (firstWorld (A64PTE false)) (.map 0 0x1000 .size4K .READ)).mem
          0x1000 0 j :=
  Arch.remapSafe_iff_no_zero_block (.a64 false)
    (freshFrames_bumpHandler (by decide) (by decide))
    (.call (.new (tryNew_blankWorld 7)) (.map 0 0x1000 .size4K .READ) rfl) 0 0x5000 rfl

/-- On that table `remap` of an address in the next gigabyte, where no table exists,
succeeds and makes a 1G page. -/
theorem remap_creates_huge_page :
    Reachable Readable (firstTable ⟨true, true⟩ A64PagingMetaData (A64PTE false) 8)
        (Call.next (firstTable ⟨true, true⟩ A64PagingMetaData (A64PTE false) 8)
          (firstWorld (A64PTE false)) (.map 0 0x1000 .size4K .READ)) ∧
      ¬ RemapSafe (firstTable ⟨true, true⟩ A64PagingMetaData (A64PTE false) 8)
        (Call.next (firstTable ⟨true, true⟩ A64PagingMetaData (A64PTE false) 8)
          (firstWorld (A64PTE false)) (.map 0 0x1000 .size4K .READ)) 0x40000000 0x80000000
        .READ := by
  refine ⟨.call (.new (tryNew_blankWorld 7)) _ rfl, fun h => ?_⟩
  have hmissing : TableMissing A64PagingMetaData (Call.next (firstTable ⟨true, true⟩
      A64PagingMetaData (A64PTE false) 8) (firstWorld (A64PTE false))
      (.map 0 0x1000 .size4K .READ)).mem 0x1000 0x40000000 :=
    ⟨2, by decide, by decide, ⟨0x2000, p3Index 0x40000000⟩,
      ⟨[p4Index 0x40000000], rfl, by decide +kernel⟩, by decide +kernel⟩
  have hok : ((firstTable ⟨true, true⟩ A64PagingMetaData (A64PTE false) 8).remap 0x40000000
      0x80000000 .READ (Call.next (firstTable ⟨true, true⟩ A64PagingMetaData (A64PTE false) 8)
        (firstWorld (A64PTE false)) (.map 0 0x1000 .size4K .READ))).1 = .ok .size1G := by
    decide +kernel
  exact absurd (hok.symm.trans (h.1 hmissing).1) (by simp)

end PageTableMultiarch
