/-
`protect_region` and holes.

The loop advances by the size of the block at which the walk stops, whether or not the
entry there is present, and asserts that the block is aligned and fits in the rest of
the region.  Protecting pages changes no walk, so the blocks are those of the state
before the call.

* `protectRegion_run` — the loop succeeds, with the effect one expects, or it panics,
  according to the blocks at the two ends of the region;
* `protected_iff` — it does what it should exactly when these blocks start and end with
  the region;
* `Arch.protectRegion_tolerates_iff` — the condition for every architecture: on AArch64 a
  zero entry is taken for a huge page, so a hole of 1G or 2M must not stick out of the region.
-/
import PageTableMultiarch.Table64.Region
import PageTableMultiarch.Table64.Remap

namespace PageTableMultiarch

open GenericPTE Radix Cyclic

variable {B : Build} {M : PagingMetaData} {PTE σ : Type} {H : PagingHandler 64 σ}
  [GenericPTE 64 PTE]

/-- The block at which the walk of `v` stops starts at `v`. -/
def BlockStarts (M : PagingMetaData) (m : PhysAddr → Fin ENTRY_COUNT → PTE) (root : PhysAddr)
    (v : VirtAddr) : Prop :=
  ∀ slot k, seek m root (vpath M v) = .ok (slot, k) → v.toNat % 2 ^ (12 + 9 * k) = 0

/-- The block at which the walk of the last 4K of `[v, v + n)` stops ends at `v + n`. -/
def BlockEnds (M : PagingMetaData) (m : PhysAddr → Fin ENTRY_COUNT → PTE) (root : PhysAddr)
    (v : VirtAddr) (n : ℕ) : Prop :=
  ∀ slot k, seek m root (vpath M (v + BitVec.ofNat 64 (n - 0x1000))) = .ok (slot, k) →
    (v.toNat + n) % 2 ^ (12 + 9 * k) = 0

/-- The region is empty, or the blocks at its ends start and end with it. -/
def EndsOnBlocks (M : PagingMetaData) (m : PhysAddr → Fin ENTRY_COUNT → PTE) (root : PhysAddr)
    (v : VirtAddr) (n : ℕ) : Prop :=
  n = 0 ∨ BlockStarts M m root v ∧ BlockEnds M m root v n

/-- Every huge leaf that meets the region lies inside it. -/
def LeavesInside (M : PagingMetaData) (m : PhysAddr → Fin ENTRY_COUNT → PTE) (root : PhysAddr)
    (v : VirtAddr) (n : ℕ) : Prop :=
  ∀ x < n, ∀ e k, leafAt M m root (v + BitVec.ofNat 64 x) = some (e, k) → 0 < k →
    ∀ v', SamePage M k (v + BitVec.ofNat 64 x) v' → InRegion M v n v'

/-- `protect_region` succeeds; in the region it gives the pages new flags, leaving their
frames, their sizes and the holes as they were, and outside it changes nothing. -/
def ProtectedRegion (self : PageTable64 B M PTE H) (w : World PTE σ) (v : VirtAddr)
    (size : Usize) (f : MappingFlags 64) : Prop :=
  (self.protectRegion v size f w).1 = .ok () ∧ ∀ v',
    (InRegion M v size.toNat v' → (self.query v' (self.protectRegion v size f w).2).1 =
      match (self.query v' w).1 with
      | .ok (p, _, s) => .ok (p, normalise PTE f, s)
      | r => r) ∧
    (¬ InRegion M v size.toNat v' → (self.query v' (self.protectRegion v size f w).2).1 =
      (self.query v' w).1)

/-- A leaf with new flags. -/
def reflag (f : MappingFlags 64) (leaf : PTE × ℕ) : PTE × ℕ :=
  (setFlags leaf.1 f (heightSize leaf.2).isHuge, leaf.2)

/-- After the first `n` bytes of a region the leaves there have new flags. -/
def Reflagged (M : PagingMetaData) (root : PhysAddr) (v : VirtAddr) (n : ℕ)
    (f : MappingFlags 64) (w₀ w : World PTE σ) : Prop :=
  ∀ v', (InRegion M v n v' → leafAt M w.mem root v' = (leafAt M w₀.mem root v').map (reflag f)) ∧
    (¬ InRegion M v n v' → leafAt M w.mem root v' = leafAt M w₀.mem root v')

section Lawful

variable [LawfulPTE M PTE] {inUse : σ → Set PhysAddr} {w₀ : World PTE σ}

/-- Where a block ends, the next one starts. -/
theorem BlockEnds.starts {m : PhysAddr → Fin ENTRY_COUNT → PTE} {root : PhysAddr}
    {v : VirtAddr} {n x : ℕ} (hno : v.toNat + n < 2 ^ 64) (hv : v.toNat % 0x1000 = 0)
    (hx : x % 0x1000 = 0) (hx0 : 0 < x) (hxn : x ≤ n) (h : BlockEnds M m root v x) :
    BlockStarts M m root (v + BitVec.ofNat 64 x) := by
  have hL := LawfulPTE.levels (M := M) PTE
  intro slot k hs
  have hk := (slotAt_of_seek hL hs).2.1
  rw [toNat_add_ofNat hno hxn]
  by_contra hmis
  -- the 4K before would be in the same block
  have hsame : SamePage M k (v + BitVec.ofNat 64 x) (v + BitVec.ofNat 64 (x - 0x1000)) := by
    refine samePage_of_lt hL hk ?_
    rw [toNat_add_ofNat hno hxn, toNat_add_ofNat hno (by omega)]
    obtain rfl | rfl | rfl : k = 0 ∨ k = 1 ∨ k = 2 := by omega
    all_goals omega
  exact hmis (h slot k (seek_samePage hL hs hsame))

/-- A block ends where it ends. -/
theorem blockEnds_of_seek {m : PhysAddr → Fin ENTRY_COUNT → PTE} {root : PhysAddr} {v : VirtAddr}
    {x : ℕ} {slot : Slot} {k : ℕ} (hno : v.toNat + (x + 2 ^ (12 + 9 * k)) < 2 ^ 64)
    (hs : seek m root (vpath M (v + BitVec.ofNat 64 x)) = .ok (slot, k))
    (hstart : (v.toNat + x) % 2 ^ (12 + 9 * k) = 0) :
    BlockEnds M m root v (x + 2 ^ (12 + 9 * k)) := by
  have hL := LawfulPTE.levels (M := M) PTE
  obtain ⟨-, hk, -⟩ := slotAt_of_seek hL hs
  intro slot' k' hs'
  -- its last 4K lie in the block
  have hsame : SamePage M k (v + BitVec.ofNat 64 x)
      (v + BitVec.ofNat 64 (x + 2 ^ (12 + 9 * k) - 0x1000)) := by
    refine samePage_of_lt hL hk ?_
    rw [toNat_add_ofNat hno (by omega), toNat_add_ofNat hno (by omega)]
    obtain rfl | rfl | rfl : k = 0 ∨ k = 1 ∨ k = 2 := by omega
    all_goals omega
  rw [seek_samePage hL hs hsame] at hs'
  obtain ⟨-, rfl⟩ : slot = slot' ∧ k = k' := by simpa using hs'
  rw [← Nat.add_assoc, Nat.add_mod_right]
  exact hstart

/-- What holds after the first `x` bytes have been protected. -/
structure ProtectedUpTo (M : PagingMetaData) (inUse : σ → Set PhysAddr) (root : PhysAddr)
    (v : VirtAddr) (f : MappingFlags 64) (w₀ : World PTE σ) (x : ℕ) (w : World PTE σ) :
    Prop where
  inv : Inv (fun e : PTE => isPresent e = true) M inUse root w
  aligned : x % 0x1000 = 0
  walks (v' : VirtAddr) : seek w.mem root (vpath M v') = seek w₀.mem root (vpath M v')
  leaves : Reflagged M root v x f w₀ w
  starts : 0 < x → BlockStarts M w₀.mem root v
  ends : 0 < x → BlockEnds M w₀.mem root v x

variable (self : PageTable64 B M PTE H) {v : VirtAddr} {size : Usize}
  {f : MappingFlags 64} {x : ℕ} {w : World PTE σ}

/-- One round over a hole. -/
theorem protectRegion_hole (hno : v.toNat + size.toNat < 2 ^ 64)
    (hv : v.toNat % 0x1000 = 0) (hx : x + 0x1000 ≤ size.toNat)
    (I : ProtectedUpTo M inUse self.rootPaddr v f w₀ x w) {e : PagingError}
    (hs : seek w.mem self.rootPaddr (vpath M (v + BitVec.ofNat 64 x)) = .error e)
    (acc : List PhysAddr) :
    ProtectedUpTo M inUse self.rootPaddr v f w₀ (x + 0x1000) (w.touch acc) := by
  have hL := LawfulPTE.levels (M := M) PTE
  have hxv := toNat_add_ofNat hno (show x ≤ size.toNat by omega)
  have halign := I.aligned
  have hs₀ := (I.walks _).symm.trans hs
  refine ⟨⟨⟨I.inv.forest, I.inv.inUse⟩, I.inv.entries⟩, by omega, I.walks, fun v' => ?_,
    fun _ => ?_, fun _ slot k hlast => ?_⟩
  · -- the addresses of the 4K have no leaf
    have hhole : InRegion M (v + BitVec.ofNat 64 x) 0x1000 v' →
        leafAt M w₀.mem self.rootPaddr v' = none := by
      intro hin
      have hsame : SamePage M 0 (v + BitVec.ofNat 64 x) v' :=
        (samePage_iff_inRegion hL (by omega) (by rw [hxv]; omega)).mpr hin
      rw [leafAt, ← hsame.vpath_eq hL]
      exact leaf_of_seek_error hs₀
    -- 4K further on the region is the old one and these addresses
    have hsplit : InRegion M v (x + 0x1000) v' ↔
        InRegion M v x v' ∨ InRegion M (v + BitVec.ofNat 64 x) 0x1000 v' := by
      rw [InRegion, InRegion, InRegion, hxv]
      exact within_add
    obtain ⟨hin, hout⟩ := I.leaves v'
    refine ⟨fun h => ?_, fun h => hout fun h' => h (hsplit.mpr (Or.inl h'))⟩
    by_cases hin' : InRegion M v x v'
    · exact hin hin'
    · have hnone := hhole ((hsplit.mp h).resolve_left hin')
      rw [World.touch_mem, hout hin', hnone]
      rfl
  · rcases Nat.eq_zero_or_pos x with rfl | hx0
    · intro slot k h
      rw [show v = v + BitVec.ofNat 64 0 by simp, hs₀] at h
      exact absurd h (by simp)
    · exact I.starts hx0
  · rw [Nat.add_sub_cancel, hs₀] at hlast
    exact absurd hlast (by simp)

/-- One round over a block. -/
theorem protectRegion_block (hH : FreshFrames M H inUse) (hf : Readable f)
    (hno : v.toNat + size.toNat < 2 ^ 64) (hspace : size.toNat ≤ M.space)
    (I : ProtectedUpTo M inUse self.rootPaddr v f w₀ x w) {slot : Slot} {k : ℕ}
    (hs : seek w.mem self.rootPaddr (vpath M (v + BitVec.ofNat 64 x)) = .ok (slot, k))
    (hx : x + 2 ^ (12 + 9 * k) ≤ size.toNat)
    (hstart : (v.toNat + x) % 2 ^ (12 + 9 * k) = 0) {acc : List PhysAddr}
    (hacc : ∀ t ∈ acc, t ∈ nodes child w.mem {self.rootPaddr} (M.LEVELS - 1)) :
    ProtectedUpTo M inUse self.rootPaddr v f w₀ (x + 2 ^ (12 + 9 * k))
      (if isPresent (w.entry slot) then
        ((w.touch acc).store slot (setFlags (w.entry slot) f (heightSize k).isHuge)).queue
          (v + BitVec.ofNat 64 x)
      else w.touch acc) := by
  have hL := LawfulPTE.levels (M := M) PTE
  obtain ⟨-, hk, -⟩ := slotAt_of_seek hL hs
  have hall : Allowed (fun e : PTE => isPresent e = true) f := allowed_read M hf
  have hnew := setFlags_leafEntry (M := M) hall (w.entry slot) hk
  have hpow := Nat.two_pow_pos (12 + 9 * k)
  have hxv := toNat_add_ofNat hno (show x ≤ size.toNat by omega)
  have hdvd : 2 ^ (12 + 9 * k) % 0x1000 = 0 := by
    obtain rfl | rfl | rfl : k = 0 ∨ k = 1 ∨ k = 2 := by omega
    all_goals rfl
  have hs₀ := (I.walks _).symm.trans hs
  have hpage : ∀ v', SamePage M k (v + BitVec.ofNat 64 x) v' ↔
      InRegion M (v + BitVec.ofNat 64 x) (2 ^ (12 + 9 * k)) v' := fun v' =>
    samePage_iff_inRegion hL hk (by rw [hxv]; exact hstart)
  have hsplit : ∀ v', InRegion M v (x + 2 ^ (12 + 9 * k)) v' ↔
      InRegion M v x v' ∨ SamePage M k (v + BitVec.ofNat 64 x) v' := by
    intro v'
    rw [hpage, InRegion, InRegion, InRegion, hxv]
    exact within_add
  -- the addresses of the block still have their old leaf
  have hold : ∀ v', SamePage M k (v + BitVec.ofNat 64 x) v' → ¬ InRegion M v x v' := by
    intro v' hsame hin
    refine not_within_of_within (show x + 2 ^ (12 + 9 * k) ≤ M.space by omega) hin ?_
    rw [← hxv]
    exact (hpage v').mp hsame
  have hlast : BlockEnds M w₀.mem self.rootPaddr v (x + 2 ^ (12 + 9 * k)) :=
    blockEnds_of_seek (by omega) hs₀ hstart
  have hfirst : BlockStarts M w₀.mem self.rootPaddr v := by
    rcases Nat.eq_zero_or_pos x with rfl | hx0
    · intro slot' k' hs'
      rw [show v = v + BitVec.ofNat 64 0 by simp, hs₀] at hs'
      obtain ⟨-, rfl⟩ : slot = slot' ∧ k = k' := by simpa using hs'
      exact hstart
    · exact I.starts hx0
  have haligned : (x + 2 ^ (12 + 9 * k)) % 0x1000 = 0 := by
    have := I.aligned
    omega
  split
  · next hp =>
    have hsteps := Steps.store_found (H := H) (A := fun _ => True) hL hacc hs (hnew.leafStore hL)
    refine ⟨(hsteps.queue _).inv hH (fun _ _ h => h) I.inv, haligned, fun v' => ?_, fun v' => ?_,
      fun _ => hfirst, fun _ => hlast⟩
    · rw [← I.walks v']
      refine I.inv.toTree.seek_store_found hs ?_ v'
      rcases Nat.eq_zero_or_pos k with h0 | h0
      · exact Or.inl h0
      · rw [isHuge_heightSize, decide_eq_true h0]
        exact Or.inr (LawfulPTE.isHuge_setFlags M _ hall.accepted)
    · have hstore : leafAt M (((w.touch acc).store slot (setFlags (w.entry slot) f
          (heightSize k).isHuge)).queue (v + BitVec.ofNat 64 x)).mem self.rootPaddr v' = _ :=
        I.inv.leafAt_store_found hs hnew v'
      obtain ⟨hin, hout⟩ := I.leaves v'
      rw [hstore, LawfulPTE.isPresent_setFlags M, LawfulPTE.presentWith_read M hf]
      by_cases hsame : SamePage M k (v + BitVec.ofNat 64 x) v'
      · refine ⟨fun _ => ?_, fun h => absurd ((hsplit v').mpr (Or.inr hsame)) h⟩
        rw [if_pos hsame, ← hout (hold v' hsame), leafAt_samePage hs hsame, leafAt_of_seek hs,
          if_pos hp]
        rfl
      · rw [if_neg hsame]
        exact ⟨fun h => hin (((hsplit v').mp h).resolve_right hsame),
          fun h => hout fun h' => h ((hsplit v').mpr (Or.inl h'))⟩
  · next hp =>
    refine ⟨⟨⟨I.inv.forest, I.inv.inUse⟩, I.inv.entries⟩, haligned, I.walks, fun v' => ?_,
      fun _ => hfirst, fun _ => hlast⟩
    obtain ⟨hin, hout⟩ := I.leaves v'
    rw [World.touch_mem]
    by_cases hsame : SamePage M k (v + BitVec.ofNat 64 x) v'
    · refine ⟨fun _ => ?_, fun h => absurd ((hsplit v').mpr (Or.inr hsame)) h⟩
      rw [← hout (hold v' hsame), leafAt_samePage hs hsame, leafAt_of_seek hs, if_neg hp]
      rfl
    · exact ⟨fun h => hin (((hsplit v').mp h).resolve_right hsame),
        fun h => hout fun h' => h ((hsplit v').mpr (Or.inl h'))⟩

/-- If a block is reached that sticks out of the region, the region does not end with a block. -/
theorem ProtectedUpTo.not_endsOnBlocks (hno : v.toNat + size.toNat < 2 ^ 64)
    (hv : v.toNat % 0x1000 = 0) (hsize : size.toNat % 0x1000 = 0) (hx : x < size.toNat)
    (I : ProtectedUpTo M inUse self.rootPaddr v f w₀ x w) {slot : Slot} {k : ℕ}
    (hs : seek w.mem self.rootPaddr (vpath M (v + BitVec.ofNat 64 x)) = .ok (slot, k))
    (hfit : ¬ ((v.toNat + x) % 2 ^ (12 + 9 * k) = 0 ∧ 2 ^ (12 + 9 * k) ≤ size.toNat - x)) :
    ¬ EndsOnBlocks M w₀.mem self.rootPaddr v size.toNat := by
  have hL := LawfulPTE.levels (M := M) PTE
  obtain ⟨-, hk, -⟩ := slotAt_of_seek hL hs
  have halign := I.aligned
  have hxv := toNat_add_ofNat hno hx.le
  rintro (h0 | ⟨hstart, hend⟩)
  · omega
  · -- the block at `v + x` is the one at the end of the region
    have hs₀ := (I.walks _).symm.trans hs
    have hxstart : (v.toNat + x) % 2 ^ (12 + 9 * k) = 0 := by
      rcases Nat.eq_zero_or_pos x with rfl | hx0
      · rw [Nat.add_zero]
        exact hstart slot k (by rw [show v = v + BitVec.ofNat 64 0 by simp]; exact hs₀)
      · have := (I.ends hx0).starts hno hv halign hx0 hx.le slot k hs₀
        rwa [hxv] at this
    have hbig : size.toNat - x < 2 ^ (12 + 9 * k) := by
      by_contra hc
      exact hfit ⟨hxstart, by omega⟩
    have hsame : SamePage M k (v + BitVec.ofNat 64 x)
        (v + BitVec.ofNat 64 (size.toNat - 0x1000)) := by
      refine samePage_of_lt hL hk ?_
      rw [hxv, toNat_add_ofNat hno (by omega)]
      obtain rfl | rfl | rfl : k = 0 ∨ k = 1 ∨ k = 2 := by omega
      all_goals omega
    have hlast := hend slot k (seek_samePage hL hs₀ hsame)
    obtain rfl | rfl | rfl : k = 0 ∨ k = 1 ∨ k = 2 := by omega
    all_goals omega

/-- The loop succeeds, with the effect one expects, or it panics, according to the blocks
at the two ends of the region. -/
theorem protectRegion_run (hH : FreshFrames M H inUse) (hf : Readable f)
    (hno : v.toNat + size.toNat < 2 ^ 64) (hspace : size.toNat ≤ M.space)
    (hv : v.toNat % 0x1000 = 0) (hsize : size.toNat % 0x1000 = 0)
    (I : Inv (fun e : PTE => isPresent e = true) M inUse self.rootPaddr w₀) :
    (self.protectRegion v size f w₀).1 = .ok () ∧
        ProtectedUpTo M inUse self.rootPaddr v f w₀ size.toNat
          (self.protectRegion v size f w₀).2 ∧
        EndsOnBlocks M w₀.mem self.rootPaddr v size.toNat ∨
      (self.protectRegion v size f w₀).1 = .panic ∧
        ¬ EndsOnBlocks M w₀.mem self.rootPaddr v size.toNat := by
  have hL := LawfulPTE.levels (M := M) PTE
  have hacc : debugAssert PTE f = true := LawfulPTE.read_accepted M hf
  refine regionLoop_rule (by decide) (I := ProtectedUpTo M inUse self.rootPaddr v f w₀)
    (Q := fun r w => r = .ok () ∧ ProtectedUpTo M inUse self.rootPaddr v f w₀ size.toNat w ∧
        EndsOnBlocks M w₀.mem self.rootPaddr v size.toNat ∨
      r = .panic ∧ ¬ EndsOnBlocks M w₀.mem self.rootPaddr v size.toNat) hno ?_ ?_ ?_
  · intro x w hx Ix
    have halign := Ix.aligned
    have hxv := toNat_add_ofNat hno hx.le
    have hrest := toNat_sub_ofNat hx.le
    obtain ⟨acc, hreach, heq⟩ :=
      protectRegionStep_apply_of_accepted hL self (v + BitVec.ofNat 64 x) w hacc
      (size - BitVec.ofNat 64 x)
    rcases hs : seek w.mem self.rootPaddr (vpath M (v + BitVec.ofNat 64 x)) with e | ⟨slot, k⟩
    · -- a hole is passed over, 4K at a time
      obtain ⟨rfl, -⟩ := Ix.inv.seek_error hs
      simp only [hs] at heq
      have hassert := assertStep_ok (k := 0) (by omega) (by rw [hxv]; omega)
        (show 2 ^ (12 + 9 * 0) ≤ (size - BitVec.ofNat 64 x).toNat by rw [hrest]; omega)
        (w.touch acc)
      have hx' : x + 0x1000 ≤ size.toNat := by omega
      exact Or.inl ⟨.size4K, w.touch acc, heq.trans hassert, hx',
        protectRegion_hole self hno hv hx' Ix hs acc⟩
    · obtain ⟨-, hk, -⟩ := slotAt_of_seek hL hs
      simp only [hs] at heq
      by_cases hfit : (v + BitVec.ofNat 64 x).toNat % 2 ^ (12 + 9 * k) = 0 ∧
          2 ^ (12 + 9 * k) ≤ (size - BitVec.ofNat 64 x).toNat
      · -- the block is in the region
        rw [assertStep_ok hk hfit.1 hfit.2] at heq
        rw [hxv, hrest] at hfit
        have hfits : x + 2 ^ (12 + 9 * k) ≤ size.toNat := by omega
        rw [← bytes_heightSize hk] at hfits
        refine Or.inl ⟨_, _, heq, hfits, ?_⟩
        rw [bytes_heightSize hk] at hfits ⊢
        exact protectRegion_block self hH hf hno hspace Ix hs hfits hfit.1 hreach
      · -- the block sticks out, so the region ends inside a block
        rw [assertStep_panic hk hfit] at heq
        rw [hxv, hrest] at hfit
        exact Or.inr (Or.inr ⟨_, heq, Or.inr ⟨rfl,
          Ix.not_endsOnBlocks self hno hv hsize hx hs hfit⟩⟩)
  · intro w Iend
    refine Or.inl ⟨rfl, Iend, ?_⟩
    rcases Nat.eq_zero_or_pos size.toNat with h0 | h0
    · exact Or.inl h0
    · exact Or.inr ⟨Iend.starts h0, Iend.ends h0⟩
  · refine ⟨I, rfl, fun _ => rfl, fun v' => ⟨fun h => absurd h not_within_zero, fun _ => rfl⟩,
      fun h => absurd h (by omega), fun h => absurd h (by omega)⟩

/-- `protect_region` does what it should exactly when the blocks at the ends of the
region start and end with it. -/
theorem protected_iff (hH : FreshFrames M H inUse) (hf : Readable f)
    (hno : v.toNat + size.toNat < 2 ^ 64) (hspace : size.toNat ≤ M.space)
    (hv : v.toNat % 0x1000 = 0) (hsize : size.toNat % 0x1000 = 0)
    (I : Inv (fun e : PTE => isPresent e = true) M inUse self.rootPaddr w₀) :
    ProtectedRegion self w₀ v size f ↔
      EndsOnBlocks M w₀.mem self.rootPaddr v size.toNat := by
  rcases protectRegion_run self hH hf hno hspace hv hsize I with ⟨hok, Iend, hends⟩ | ⟨hp, hno'⟩
  · refine ⟨fun _ => hends, fun _ => ⟨hok, fun v' => ?_⟩⟩
    obtain ⟨hin, hout⟩ := Iend.leaves v'
    rw [query_leaf self Iend.inv, query_leaf self I]
    refine ⟨fun h => ?_, fun h => by rw [hout h]⟩
    rw [hin h]
    rcases leafAt M w₀.mem self.rootPaddr v' with _ | ⟨e, k⟩
    · rfl
    · simp only [Option.map_some, reflag, LawfulPTE.paddr_setFlags M, LawfulPTE.flags_setFlags M]
  · refine ⟨fun h => ?_, fun h => absurd h hno'⟩
    rw [h.1] at hp
    exact absurd hp (by simp)

/-! ### Holes taken for huge pages -/

/-- Every zero entry for 1G or 2M that meets the region has its range inside it. -/
def HolesInside (M : PagingMetaData) (m : PhysAddr → Fin ENTRY_COUNT → PTE) (root : PhysAddr)
    (v : VirtAddr) (n : ℕ) : Prop :=
  ∀ x < n, ∀ k, 0 < k → k ≤ 2 → ZeroAt M m root (v + BitVec.ofNat 64 x) k →
    ∀ v', SamePage M k (v + BitVec.ofNat 64 x) v' → InRegion M v n v'

omit [LawfulPTE M PTE] in
/-- A page that meets a region lies inside it when the ends of the region are not in it,
unless they are its ends too. -/
theorem inRegion_of_samePage (hL : M.LEVELS = 3 ∨ M.LEVELS = 4) {n k : ℕ} (hk : k ≤ 2)
    (hno : v.toNat + n < 2 ^ 64) (hv : v.toNat % 0x1000 = 0) (hn : n % 0x1000 = 0) {a : ℕ}
    (ha : a < n) (hstart : SamePage M k (v + BitVec.ofNat 64 a) v → v.toNat % 2 ^ (12 + 9 * k) = 0)
    (hend : SamePage M k (v + BitVec.ofNat 64 a) (v + BitVec.ofNat 64 (n - 0x1000)) →
      (v.toNat + n) % 2 ^ (12 + 9 * k) = 0) {v' : VirtAddr}
    (hs : SamePage M k (v + BitVec.ofNat 64 a) v') : InRegion M v n v' := by
  have hav := toNat_add_ofNat hno ha.le
  have hlast := toNat_add_ofNat hno (show n - 0x1000 ≤ n by omega)
  have hpow := Nat.two_pow_pos (12 + 9 * k)
  set b := 2 ^ (12 + 9 * k) with hb
  have hmod := Nat.div_add_mod (v.toNat + a) b
  have hlt := Nat.mod_lt (v.toNat + a) hpow
  -- the first address of the page
  set o := b * ((v.toNat + a) / b) with ho
  have ho4 : o % 0x1000 = 0 := by
    obtain ⟨q, hq⟩ : 0x1000 ∣ b := Nat.pow_dvd_pow 2 (show 12 ≤ 12 + 9 * k by omega)
    rw [ho, hq, Nat.mul_assoc, Nat.mul_mod_right]
  have hdiv : ∀ c, o ≤ c → c < o + b → c / b = (v.toNat + a) / b := by
    intro c hoc hcb
    rw [Nat.div_eq_iff hpow]
    rw [Nat.mul_comm] at ho
    constructor <;> omega
  have hfirst : v.toNat ≤ o := by
    by_contra hc
    have hsame : SamePage M k (v + BitVec.ofNat 64 a) v :=
      samePage_of_lt hL hk (by rw [hav, ← hb, hdiv v.toNat (by omega) (by omega)])
    have hbo : b ∣ v.toNat - o := Nat.dvd_sub (Nat.dvd_of_mod_eq_zero (hstart hsame)) ⟨_, ho⟩
    have := Nat.le_of_dvd (by omega) hbo
    omega
  have hsecond : o + b ≤ v.toNat + n := by
    by_contra hc
    have hsame : SamePage M k (v + BitVec.ofNat 64 a) (v + BitVec.ofNat 64 (n - 0x1000)) :=
      samePage_of_lt hL hk (by rw [hav, hlast, ← hb]; exact (hdiv _ (by omega) (by omega)).symm)
    have hbo : b ∣ v.toNat + n - o := Nat.dvd_sub (Nat.dvd_of_mod_eq_zero (hend hsame)) ⟨_, ho⟩
    have := Nat.le_of_dvd (by omega) hbo
    omega
  have hblock : Within M.space o b v'.toNat := by
    have hdvd := two_pow_dvd_space hL hk
    obtain ⟨q, hq⟩ := hdvd
    rw [within_block_iff hpow (two_pow_dvd_space hL hk) ⟨_, ho⟩, ← (samePage_iff hL hk).mp hs,
      hav, hq, Nat.mod_mul_right_div_self, Nat.mod_mul_right_div_self, hdiv o le_rfl (by omega)]
  have hsum : o = v.toNat + (o - v.toNat) := by omega
  rw [hsum] at hblock
  exact (within_add.mpr (Or.inr hblock)).mono (by omega)

/-- The blocks at the ends are those of the region when neither leaves nor holes of 1G or
2M stick out of it.  In the whole address space nothing sticks out, but a block can come
round to where it starts. -/
theorem endsOnBlocks_iff {n : ℕ} (hno : v.toNat + n < 2 ^ 64) (hspace : n ≤ M.space)
    (hv : v.toNat % 0x1000 = 0) (hn : n % 0x1000 = 0) {root : PhysAddr}
    (I : Inv (fun e : PTE => isPresent e = true) M inUse root w)
    (hleaves : LeavesInside M w.mem root v n) :
    EndsOnBlocks M w.mem root v n ↔
      (isHuge (empty : PTE) = true → HolesInside M w.mem root v n) ∧
        (n = M.space → BlockStarts M w.mem root v) := by
  have hL := LawfulPTE.levels (M := M) PTE
  have hspace0 : 0 < M.space := Nat.two_pow_pos _
  constructor
  · refine fun hends => ⟨fun hhuge x hx k hk0 hk hz v' hs => ?_, fun h => ?_⟩
    · rcases hends with h0 | ⟨hstart, hend⟩
      · omega
      rcases seek_of_zeroAt hk0 (by omega) hz with ⟨-, -, slot, hseek, -⟩ | ⟨hc, -⟩
      · refine inRegion_of_samePage hL hk hno hv hn hx (fun h => ?_) (fun h => ?_) hs
        · exact hstart slot k (seek_samePage hL hseek h)
        · exact hend slot k (seek_samePage hL hseek h)
      · exact absurd ⟨hk, hhuge⟩ hc
    · exact (hends.resolve_left (by omega)).1
  · rintro ⟨hholes, hwhole⟩
    rcases Nat.eq_zero_or_pos n with h0 | hn0
    · exact Or.inl h0
    -- the page of a huge entry that the walk finds lies in the region
    have hinside : ∀ x < n, ∀ slot k, seek w.mem root (vpath M (v + BitVec.ofNat 64 x)) =
        .ok (slot, k) → 0 < k → ∀ v', SamePage M k (v + BitVec.ofNat 64 x) v' →
        InRegion M v n v' := by
      intro x hx slot k hs hk0
      obtain ⟨hslot, hk, hh⟩ := slotAt_of_seek hL hs
      have hlen := length_pathTo hL k (v + BitVec.ofNat 64 x)
      have hhuge : isHuge (w.entry slot) = true := hh hk0
      obtain he | ⟨he, -⟩ := I.leafEntry_of_isHuge hslot (by omega) hhuge
      · rw [he] at hhuge
        exact hholes hhuge x hx k hk0 hk ⟨slot, hslot, he⟩
      · refine hleaves x hx (w.entry slot) k ?_ hk0
        rw [leafAt_of_seek hs, if_pos he]
    have hstarts : BlockStarts M w.mem root v := by
      rcases hspace.eq_or_lt with hwh | hlt
      · exact hwhole hwh
      intro slot k hs
      obtain ⟨-, hk, -⟩ := slotAt_of_seek hL hs
      rcases Nat.eq_zero_or_pos k with rfl | hk0
      · exact hv
      by_contra hmis
      -- the address before the region is in the block
      have hpos : v.toNat % 2 ^ (12 + 9 * k) ≤ v.toNat := Nat.mod_le _ _
      have hprev : (v - 1).toNat = v.toNat - 1 := toNat_sub_ofNat (x := 1) (by omega)
      have hsame : SamePage M k (v + BitVec.ofNat 64 0) (v - 1) := by
        rw [show v + BitVec.ofNat 64 0 = v by simp]
        refine samePage_of_lt hL hk ?_
        rw [hprev]
        obtain rfl | rfl : k = 1 ∨ k = 2 := by omega
        all_goals omega
      have hin := hinside 0 hn0 slot k (by rw [show v + BitVec.ofNat 64 0 = v by simp]; exact hs)
        hk0 (v - 1) hsame
      have hone : Within M.space (v.toNat - 1) 1 (v - 1).toNat := by
        rw [hprev]
        exact within_self (by omega)
      refine not_within_of_within (show 1 + n ≤ M.space by omega) hone ?_
      rwa [show v.toNat - 1 + 1 = v.toNat by omega]
    refine Or.inr ⟨hstarts, fun slot k hs => ?_⟩
    obtain ⟨-, hk, -⟩ := slotAt_of_seek hL hs
    have hlast := toNat_add_ofNat hno (show n - 0x1000 ≤ n by omega)
    have hall := toNat_add_ofNat hno le_rfl
    rcases Nat.eq_zero_or_pos k with rfl | hk0
    · omega
    by_contra hmis
    -- the address after the region is in the block
    have hsame : SamePage M k (v + BitVec.ofNat 64 (n - 0x1000)) (v + BitVec.ofNat 64 n) := by
      refine samePage_of_lt hL hk ?_
      rw [hlast, hall]
      obtain rfl | rfl : k = 1 ∨ k = 2 := by omega
      all_goals omega
    rcases hspace.eq_or_lt with hwh | hlt
    · -- it is the first one of the region again
      have hround : SamePage M k (v + BitVec.ofNat 64 n) v := by
        rw [samePage_iff hL hk, hall, hwh, Nat.add_mod_right]
      have := hstarts slot k (seek_samePage hL (seek_samePage hL hs hsame) hround)
      refine hmis ?_
      obtain ⟨q, hq⟩ := two_pow_dvd_space hL hk
      rw [hwh, hq, Nat.add_mul_mod_self_left, this]
    · have hin := hinside _ (by omega) slot k hs hk0 _ hsame
      refine not_within_of_within (show n + 1 ≤ M.space by omega) hin ?_
      rw [hall]
      exact within_self (by omega)

omit [LawfulPTE M PTE] in
/-- A region of one 4K page has no huge leaf sticking out if the page has no huge leaf. -/
theorem leavesInside_page (hL : M.LEVELS = 3 ∨ M.LEVELS = 4)
    {m : PhysAddr → Fin ENTRY_COUNT → PTE} {root : PhysAddr} (hno : v.toNat + 0x1000 < 2 ^ 64)
    (hv : v.toNat % 0x1000 = 0) (h : ∀ e k, leafAt M m root v = some (e, k) → k = 0) :
    LeavesInside M m root v 0x1000 := by
  intro x hx e k hleaf hk
  have hsame : SamePage M 0 v (v + BitVec.ofNat 64 x) := by
    refine samePage_of_lt hL (by omega) ?_
    rw [toNat_add_ofNat hno hx.le]
    omega
  rw [leafAt, ← hsame.vpath_eq hL] at hleaf
  have := h e k hleaf
  omega

end Lawful

/-- `protect_region` tolerates holes except on AArch64 where the range of a zero entry for
1G or 2M sticks out of the region, and, where the region is the whole address space, if
its first address lies inside a block. -/
theorem Arch.protectRegion_tolerates_iff (arch : Arch) {H : PagingHandler 64 σ}
    {inUse : σ → Set PhysAddr} (hH : FreshFrames arch.metaData H inUse)
    {self : PageTable64 B arch.metaData arch.PTE H} {w : World arch.PTE σ}
    (hw : Reachable Readable self w) (v : VirtAddr) (size : Usize) {f : MappingFlags 64}
    (hf : Readable f) (hno : v.toNat + size.toNat < 2 ^ 64)
    (hspace : size.toNat ≤ arch.metaData.space) (hv : v.toNat % 0x1000 = 0)
    (hsize : size.toNat % 0x1000 = 0)
    (hleaves : LeavesInside arch.metaData w.mem self.rootPaddr v size.toNat) :
    ProtectedRegion self w v size f ↔
      (∀ armEl2, arch = .a64 armEl2 →
        HolesInside arch.metaData w.mem self.rootPaddr v size.toNat) ∧
      (size.toNat = arch.metaData.space → BlockStarts arch.metaData w.mem self.rootPaddr v) := by
  have I : Inv (fun e : arch.PTE => isPresent e = true) arch.metaData inUse self.rootPaddr w :=
    hw.inv hH self fun f hf => allowed_read arch.metaData hf
  rw [protected_iff self hH hf hno hspace hv hsize I,
    endsOnBlocks_iff hno hspace hv hsize I hleaves, arch.isHuge_empty]
  exact and_congr_left fun _ => ⟨fun h b hb => h ⟨b, hb⟩, fun h ⟨b, hb⟩ => h b hb⟩

/-- An AArch64 table in which 4K at address 0 is mapped, and the region of that page. -/
theorem Arch.protectRegion_tolerates_iff_run :
    ProtectedRegion (firstTable ⟨true, true⟩ A64PagingMetaData (A64PTE false) 8)
        (Call.next (firstTable ⟨true, true⟩ A64PagingMetaData (A64PTE false) 8)
          (firstWorld (A64PTE false)) (.map 0 0x5000 .size4K .READ)) 0 0x1000 .READ ↔
      (∀ armEl2, Arch.a64 false = .a64 armEl2 → HolesInside A64PagingMetaData
        (Call.next (firstTable ⟨true, true⟩ A64PagingMetaData (A64PTE false) 8)
          (firstWorld (A64PTE false)) (.map 0 0x5000 .size4K .READ)).mem 0x1000 0 0x1000) ∧
      (0x1000 = A64PagingMetaData.space → BlockStarts A64PagingMetaData
        (Call.next (firstTable ⟨true, true⟩ A64PagingMetaData (A64PTE false) 8)
          (firstWorld (A64PTE false)) (.map 0 0x5000 .size4K .READ)).mem 0x1000 0) := by
  refine Arch.protectRegion_tolerates_iff (.a64 false)
    (freshFrames_bumpHandler (by decide) (by decide))
    (.call (.new (tryNew_blankWorld 7)) (.map 0 0x5000 .size4K .READ) rfl) 0 0x1000 rfl
    (by decide) (by decide) rfl rfl (leavesInside_page (Or.inr rfl) (by decide) rfl fun e k h => ?_)
  have hk : (leafAt A64PagingMetaData (Call.next (firstTable ⟨true, true⟩ A64PagingMetaData
      (A64PTE false) 8) (firstWorld (A64PTE false)) (.map 0 0x5000 .size4K .READ)).mem 0x1000
      0).map Prod.snd = some 0 := by decide +kernel
  have h' := congrArg (Option.map Prod.snd) h
  exact Option.some.inj (h'.symm.trans hk)

/-- On that table, protecting 4K in the next gigabyte, where nothing is mapped, panics. -/
theorem protectRegion_panics_in_hole :
    Reachable Readable (firstTable ⟨true, true⟩ A64PagingMetaData (A64PTE false) 8)
        (Call.next (firstTable ⟨true, true⟩ A64PagingMetaData (A64PTE false) 8)
          (firstWorld (A64PTE false)) (.map 0 0x5000 .size4K .READ)) ∧
      LeavesInside A64PagingMetaData (Call.next (firstTable ⟨true, true⟩ A64PagingMetaData
        (A64PTE false) 8) (firstWorld (A64PTE false)) (.map 0 0x5000 .size4K .READ)).mem 0x1000
        0x40001000 0x1000 ∧
      ¬ ProtectedRegion (firstTable ⟨true, true⟩ A64PagingMetaData (A64PTE false) 8)
        (Call.next (firstTable ⟨true, true⟩ A64PagingMetaData (A64PTE false) 8)
          (firstWorld (A64PTE false)) (.map 0 0x5000 .size4K .READ)) 0x40001000 0x1000 .READ := by
  refine ⟨.call (.new (tryNew_blankWorld 7)) _ rfl,
    leavesInside_page (Or.inr rfl) (by decide) rfl fun e k h => ?_, fun h => ?_⟩
  · have hnone : leafAt A64PagingMetaData (Call.next (firstTable ⟨true, true⟩ A64PagingMetaData
        (A64PTE false) 8) (firstWorld (A64PTE false)) (.map 0 0x5000 .size4K .READ)).mem 0x1000
        0x40001000 = none := by decide +kernel
    exact absurd (hnone.symm.trans h) (by simp)
  · have hpanic : ((firstTable ⟨true, true⟩ A64PagingMetaData (A64PTE false) 8).protectRegion
        0x40001000 0x1000 .READ (Call.next (firstTable ⟨true, true⟩ A64PagingMetaData
          (A64PTE false) 8) (firstWorld (A64PTE false)) (.map 0 0x5000 .size4K .READ))).1 =
        .panic := by decide +kernel
    exact absurd (hpanic.symm.trans h.1) (by simp)

end PageTableMultiarch
