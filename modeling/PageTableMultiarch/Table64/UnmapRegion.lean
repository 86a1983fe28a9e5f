/-
`unmap_region` after `map_region` and calls of `protect`.

A region mapped by `map_region` is covered by pages (`Tiled`), and protecting pages keeps
the cover (`Call.keeps`), but it can leave a page that is not present.  `unmap_region`
goes from page to page and stops at the first one that is not present.

* `unmapRegion_run` — the loop over a covered region;
* `Arch.unmapRegion_clears_iff` — it leaves nothing mapped exactly when no address that is
  not mapped comes before one that is.
-/
import PageTableMultiarch.Table64.MapRegion

namespace PageTableMultiarch

open GenericPTE Radix Cyclic

variable {B : Build} {M : PagingMetaData} {PTE σ : Type} {H : PagingHandler 64 σ}
  [GenericPTE 64 PTE]

/-- `query` succeeds at the address. -/
def Mapped (self : PageTable64 B M PTE H) (w : World PTE σ) (v : VirtAddr) : Prop :=
  ∃ r, (self.query v w).1 = .ok r

/-- The calls `protect` and `protect_region`. -/
def Call.IsProtect : Call → Prop
  | .protect _ _ | .protectRegion _ _ _ => True
  | _ => False

/-- The states that calls of `protect` and `protect_region` with accepted flags lead to. -/
inductive Protects (self : PageTable64 B M PTE H) (w : World PTE σ) : World PTE σ → Prop
  | start : Protects self w w
  | call {w' : World PTE σ} (h : Protects self w w') (c : Call) (hp : c.IsProtect)
    (hc : c.FlagsIn fun f => debugAssert PTE f = true) : Protects self w (c.next self w')

/-- The walks are the same and there are no new leaves. -/
structure Keeps (M : PagingMetaData) (root : PhysAddr) (w w' : World PTE σ) : Prop where
  walks (v : VirtAddr) : seek w'.mem root (vpath M v) = seek w.mem root (vpath M v)
  leaves (v : VirtAddr) : leafAt M w.mem root v = none → leafAt M w'.mem root v = none

theorem Keeps.of_mem_eq {root : PhysAddr} {w w' : World PTE σ} (h : w'.mem = w.mem) :
    Keeps M root w w' :=
  ⟨fun v => by rw [h], fun v hv => by rw [h, hv]⟩

theorem Keeps.trans {root : PhysAddr} {w w' w'' : World PTE σ} (h : Keeps M root w w')
    (h' : Keeps M root w' w'') : Keeps M root w w'' :=
  ⟨fun v => (h'.walks v).trans (h.walks v), fun v hv => h'.leaves v (h.leaves v hv)⟩

/-- From `x` to `n` bytes the region is covered by the blocks at which walks stop. -/
def Tiled (M : PagingMetaData) (m : PhysAddr → Fin ENTRY_COUNT → PTE) (root : PhysAddr)
    (v : VirtAddr) (x n : ℕ) : Prop :=
  ∀ z, x ≤ z → z < n → ∃ slot k x₀,
    seek m root (vpath M (v + BitVec.ofNat 64 z)) = .ok (slot, k) ∧ x ≤ x₀ ∧ x₀ ≤ z ∧
      z < x₀ + 2 ^ (12 + 9 * k) ∧ x₀ + 2 ^ (12 + 9 * k) ≤ n ∧
      (v.toNat + x₀) % 2 ^ (12 + 9 * k) = 0

section Lawful

variable [LawfulPTE M PTE] {P : PTE → Prop} {inUse : σ → Set PhysAddr} {w₀ w : World PTE σ}

/-- `query` succeeds where there is a leaf. -/
theorem mapped_iff (self : PageTable64 B M PTE H) (I : Inv P M inUse self.rootPaddr w)
    (v : VirtAddr) : Mapped self w v ↔ leafAt M w.mem self.rootPaddr v ≠ none := by
  rw [Mapped, query_leaf self I]
  cases leafAt M w.mem self.rootPaddr v with
  | none => simp
  | some leaf => simp

/-! ### Protecting keeps the cover -/

/-- Giving a present page new flags. -/
theorem Inv.keeps_setFlags {root : PhysAddr} (I : Inv P M inUse root w) {f : MappingFlags 64}
    (hf : debugAssert PTE f = true) {v : VirtAddr} {slot : Slot} {k : ℕ} {acc : List PhysAddr}
    (hs : seek w.mem root (vpath M v) = .ok (slot, k)) (hp : isPresent (w.entry slot) = true) :
    Keeps M root w (((w.touch acc).store slot
      (setFlags (w.entry slot) f (heightSize k).isHuge)).queue v) := by
  have hk := (slotAt_of_seek (LawfulPTE.levels (M := M) PTE) hs).2.1
  have hleaf := setFlags_leafEntry (M := M) (allowed_true hf) (w.entry slot) hk
  refine ⟨fun v' => ?_, fun v' hv' => ?_⟩
  · refine I.toTree.seek_store_found hs ?_ v'
    rcases Nat.eq_zero_or_pos k with h0 | h0
    · exact Or.inl h0
    · rw [isHuge_heightSize, decide_eq_true h0]
      exact Or.inr (LawfulPTE.isHuge_setFlags M _ hf)
  · by_cases hsame : SamePage M k v v'
    · -- the page had a leaf before
      rw [leafAt_samePage hs hsame, leafAt_of_seek hs, if_pos hp] at hv'
      exact absurd hv' (by simp)
    · have hstore := I.leafAt_store_found hs hleaf v'
      rw [if_neg hsame] at hstore
      exact hstore.trans hv'

theorem protect_keeps (self : PageTable64 B M PTE H) (I : Inv P M inUse self.rootPaddr w)
    {f : MappingFlags 64} (hf : debugAssert PTE f = true) (v : VirtAddr) :
    Keeps M self.rootPaddr w (self.protect v f w).2 := by
  obtain ⟨acc, -, heq⟩ := protect_apply_of_accepted (LawfulPTE.levels PTE) self v w hf
  rw [heq]
  split
  · next slot k hs =>
    split
    · next hp => exact I.keeps_setFlags hf hs hp
    · exact .of_mem_eq rfl
  · exact .of_mem_eq rfl

theorem protectRegionStep_keeps (self : PageTable64 B M PTE H)
    (I : Inv P M inUse self.rootPaddr w) {f : MappingFlags 64} (hf : debugAssert PTE f = true)
    (v : VirtAddr) (size : Usize) :
    Keeps M self.rootPaddr w (self.protectRegionStep f v size w).2 := by
  obtain ⟨acc, -, heq⟩ :=
    protectRegionStep_apply_of_accepted (LawfulPTE.levels PTE) self v w hf size
  rw [heq]
  split
  · next slot k hs =>
    rw [assertStep_snd]
    split
    · next hp => exact I.keeps_setFlags hf hs hp
    · exact .of_mem_eq rfl
  · rw [assertStep_snd]
    exact .of_mem_eq rfl
  · exact .of_mem_eq rfl

/-- A call of `protect` or `protect_region` changes no walk and makes no leaf. -/
theorem Call.keeps (hH : FreshFrames M H inUse) (self : PageTable64 B M PTE H)
    (I : Inv (fun _ => True) M inUse self.rootPaddr w) {c : Call} (hp : c.IsProtect)
    (hc : c.FlagsIn fun f => debugAssert PTE f = true) :
    Keeps M self.rootPaddr w (c.next self w) := by
  cases c with
  | protect v f => exact protect_keeps self I hc v
  | protectRegion v size f =>
    refine regionLoop_rel (J := Inv (fun _ : PTE => True) M inUse self.rootPaddr)
      (r := Keeps M self.rootPaddr) (fun _ => .of_mem_eq rfl) Keeps.trans
      (fun v size w' I' => ⟨?_, ?_⟩) _ v size I
    · exact protectRegionStep_keeps self I' hc v size
    · exact (protectRegionStep_steps (A := fun _ => True) self (allowed_true hc) v size).inv hH
        (fun _ _ h => h) I'
  | _ => exact absurd hp (by simp [Call.IsProtect])

theorem Protects.keeps (hH : FreshFrames M H inUse) (self : PageTable64 B M PTE H)
    (I : Inv (fun _ => True) M inUse self.rootPaddr w₀) (h : Protects self w₀ w) :
    Keeps M self.rootPaddr w₀ w ∧ Inv (fun _ => True) M inUse self.rootPaddr w := by
  induction h with
  | start => exact ⟨.of_mem_eq rfl, I⟩
  | call _ c hp hc ih =>
    obtain ⟨hkeeps, I'⟩ := ih
    refine ⟨hkeeps.trans (Call.keeps hH self I' hp hc), Call.inv hH self I' c ?_⟩
    cases c <;> first | trivial | exact allowed_true hc

/-! ### The cover -/

/-- Where the leaves are present, `map_region` covers the region. -/
theorem MappedUpTo.tiled {root : PhysAddr} {v : VirtAddr} {getPaddr : VirtAddr → PhysAddr}
    {f : MappingFlags 64} {n : ℕ} (h : MappedUpTo P M inUse root v getPaddr f w₀ n w)
    (hpresent : presentWith PTE f = true) : Tiled M w.mem root v 0 n := by
  have hL := LawfulPTE.levels (M := M) PTE
  intro z _ hz
  obtain ⟨s, x₀, hpicked, hleaf⟩ :=
    h.pages (v + BitVec.ofNat 64 z) hz (toNat_add_ofNat_mod v z (space_dvd hL))
  rw [mappedLeaf, if_pos hpresent] at hleaf
  obtain ⟨slot, hs, -, -⟩ := leaf_eq_some hleaf
  have hbytes : 2 ^ (12 + 9 * s.height) = s.bytes := by
    rw [← bytes_heightSize s.height_le, heightSize_height hpicked.ne]
  refine ⟨slot, s.height, x₀, hs, Nat.zero_le _, hpicked.le, ?_⟩
  rw [hbytes]
  exact ⟨hpicked.lt, hpicked.fits, hpicked.start⟩

omit [LawfulPTE M PTE] in
/-- Where the leaves are not present, nothing is mapped in the region. -/
theorem MappedUpTo.leafAt_eq_none {root : PhysAddr} {v : VirtAddr}
    {getPaddr : VirtAddr → PhysAddr} {f : MappingFlags 64} {n : ℕ}
    (h : MappedUpTo P M inUse root v getPaddr f w₀ n w) (habsent : ¬ presentWith PTE f = true)
    {v' : VirtAddr} (hin : InRegion M v n v') : leafAt M w.mem root v' = none := by
  obtain ⟨z, hz, hv'⟩ := hin
  obtain ⟨s, x₀, -, hleaf⟩ := h.pages v' hz hv'
  rw [hleaf, mappedLeaf, if_neg habsent]

omit [LawfulPTE M PTE] in
theorem Keeps.tiled {root : PhysAddr} {v : VirtAddr} {x n : ℕ} (h : Keeps M root w₀ w)
    (ht : Tiled M w₀.mem root v x n) : Tiled M w.mem root v x n := by
  intro z hxz hzn
  rw [h.walks]
  exact ht z hxz hzn

omit [LawfulPTE M PTE] in
/-- The cover after its first block. -/
theorem Tiled.next (hL : M.LEVELS = 3 ∨ M.LEVELS = 4)
    {m : PhysAddr → Fin ENTRY_COUNT → PTE} {root : PhysAddr} {v : VirtAddr} {x n : ℕ}
    (h : Tiled M m root v x n) {slot : Slot} {k : ℕ}
    (hs : seek m root (vpath M (v + BitVec.ofNat 64 x)) = .ok (slot, k))
    (hstart : (v.toNat + x) % 2 ^ (12 + 9 * k) = 0) :
    Tiled M m root v (x + 2 ^ (12 + 9 * k)) n := by
  intro z hxz hzn
  obtain ⟨slot', k', x₀, hs', hx₀, hle, hlt, hfits, hstart'⟩ := h z (by omega) hzn
  have hk := (slotAt_of_seek hL hs).2.1
  have hk' := (slotAt_of_seek hL hs').2.1
  have hpow := Nat.two_pow_pos (12 + 9 * k)
  refine ⟨slot', k', x₀, hs', ?_, hle, hlt, hfits, hstart'⟩
  by_contra hc
  -- the two blocks share the address where the second one starts, so they are the same
  have hfirst := seek_samePage hL hs (samePage_add hL hk hstart hx₀ (by omega))
  have hsecond := seek_samePage hL hs' (samePage_add hL hk' hstart' hle hlt).symm
  rw [hfirst] at hsecond
  obtain ⟨-, rfl⟩ : slot = slot' ∧ k = k' := by simpa using hsecond
  have hdvd : 2 ^ (12 + 9 * k) ∣ x₀ - x := by
    have := Nat.dvd_sub (Nat.dvd_of_mod_eq_zero hstart') (Nat.dvd_of_mod_eq_zero hstart)
    rwa [Nat.add_sub_add_left] at this
  have := Nat.eq_zero_of_dvd_of_lt hdvd (by omega)
  omega

/-! ### The loop -/

/-- The first `x` bytes of the region, which were all mapped, have been unmapped. -/
structure Unmapped (M : PagingMetaData) (root : PhysAddr) (v : VirtAddr) (w₀ : World PTE σ)
    (x : ℕ) (w : World PTE σ) : Prop where
  present {z : ℕ} : z < x → leafAt M w₀.mem root (v + BitVec.ofNat 64 z) ≠ none
  gone {v' : VirtAddr} : InRegion M v x v' → leafAt M w.mem root v' = none
  frame {v' : VirtAddr} : ¬ InRegion M v x v' → leafAt M w.mem root v' = leafAt M w₀.mem root v'

omit [LawfulPTE M PTE] in
/-- An address further on in a region that does not come round is not in its first part. -/
theorem not_inRegion_of_le (hL : M.LEVELS = 3 ∨ M.LEVELS = 4) {v : VirtAddr} {x z : ℕ}
    (hxz : x ≤ z) (hz : z < M.space) : ¬ InRegion M v x (v + BitVec.ofNat 64 z) := by
  intro hin
  refine not_within_of_within (show x + (M.space - x) ≤ M.space by omega) hin
    ⟨z - x, by omega, ?_⟩
  rw [toNat_add_ofNat_mod v z (space_dvd hL), Nat.add_assoc, Nat.add_sub_cancel' hxz]

variable (self : PageTable64 B M PTE H) {v : VirtAddr} {size : Usize}

/-- One round at a block that is present. -/
theorem unmapRegion_block (hH : FreshFrames M H inUse) (hspace : size.toNat ≤ M.space) {x : ℕ}
    (hx : x < size.toNat) (I : Inv P M inUse self.rootPaddr w)
    (hT : Tiled M w.mem self.rootPaddr v x size.toNat)
    (hU : Unmapped M self.rootPaddr v w₀ x w) {e : PTE} {k : ℕ}
    (hleaf : leafAt M w.mem self.rootPaddr (v + BitVec.ofNat 64 x) = some (e, k)) :
    ∃ w', self.unmapRegionStep (v + BitVec.ofNat 64 x) (size - BitVec.ofNat 64 x) w =
        (.ok (heightSize k), w') ∧ x + (heightSize k).bytes ≤ size.toNat ∧
      Inv P M inUse self.rootPaddr w' ∧
      Tiled M w'.mem self.rootPaddr v (x + (heightSize k).bytes) size.toNat ∧
      Unmapped M self.rootPaddr v w₀ (x + (heightSize k).bytes) w' := by
  have hL := LawfulPTE.levels (M := M) PTE
  obtain ⟨slot, hs, rfl, hp⟩ := leaf_eq_some hleaf
  -- the block starts here and fits
  obtain ⟨slot', k', x₀, hs', hx₀, hle, -, hfits, hstart⟩ := hT x le_rfl hx
  obtain rfl : x = x₀ := le_antisymm hx₀ hle
  rw [hs] at hs'
  obtain ⟨rfl, rfl⟩ : slot = slot' ∧ k = k' := by simpa using hs'
  obtain ⟨-, hk, -⟩ := slotAt_of_seek hL hs
  have hpow := Nat.two_pow_pos (12 + 9 * k)
  obtain ⟨acc, -, heq⟩ := unmap_apply hL self (v + BitVec.ofNat 64 x) w
  have hp' : isPresent (w.entry slot) = true := hp
  simp only [hs, hp', if_true] at heq
  set w' := ((w.touch acc).store slot (clear (w.entry slot))).queue (v + BitVec.ofNat 64 x)
  have hfit : 2 ^ (12 + 9 * k) ≤ (size - BitVec.ofNat 64 x).toNat := by
    rw [toNat_sub_ofNat hx.le]
    omega
  have hvx : (v + BitVec.ofNat 64 x).toNat % 2 ^ (12 + 9 * k) = 0 := by
    rw [toNat_add_ofNat_mod v x (Nat.pow_dvd_pow 2 (by omega)), hstart]
  have hinv : Inv P M inUse self.rootPaddr w' := by
    have := Call.inv hH self I (.unmap (v + BitVec.ofNat 64 x)) trivial
    rwa [Call.next, heq] at this
  have hgone := (unmap_leaf self I hleaf).2
  rw [heq] at hgone
  have hpage : ∀ v', SamePage M k (v + BitVec.ofNat 64 x) v' ↔
      Within M.space (v.toNat + x) (2 ^ (12 + 9 * k)) v'.toNat := fun v' =>
    samePage_iff_within hL hk hstart
  have hsplit : ∀ v', InRegion M v (x + 2 ^ (12 + 9 * k)) v' ↔
      InRegion M v x v' ∨ SamePage M k (v + BitVec.ofNat 64 x) v' := by
    intro v'
    rw [hpage, InRegion, InRegion]
    exact within_add
  rw [bytes_heightSize hk]
  refine ⟨w', ?_, hfits, hinv, ?_, ⟨?_, ?_, ?_⟩⟩
  · rw [PageTable64.unmapRegionStep, Op.bind_ok heq]
    exact assertStep_ok hk hvx hfit w'
  · -- the walks further on do not pass through the block
    intro z hxz hzn
    have hno : ¬ SamePage M k (v + BitVec.ofNat 64 x) (v + BitVec.ofNat 64 z) := by
      intro hsame
      exact not_inRegion_of_le hL hxz (by omega) ((hsplit _).mpr (Or.inr hsame))
    have hwalk := I.toTree.seek_store_of_not_samePage hs (clear (w.entry slot)) hno
    obtain ⟨slot₁, k₁, x₁, hs₁, hrest⟩ := hT.next hL hs hstart z hxz hzn
    exact ⟨slot₁, k₁, x₁, hwalk.trans hs₁, hrest⟩
  · intro z hz
    rcases Nat.lt_or_ge z x with hzx | hxz
    · exact hU.present hzx
    · have hsame := samePage_add (M := M) hL hk hstart hxz hz
      rw [← hU.frame (not_inRegion_of_le hL hxz (by omega)), leafAt_samePage hs hsame, hleaf]
      simp
  · intro v' hin
    rw [hgone]
    split
    · rfl
    · next hno => exact hU.gone (((hsplit v').mp hin).resolve_right hno)
  · intro v' hout
    rw [hgone, if_neg fun hsame => hout ((hsplit v').mpr (Or.inr hsame))]
    exact hU.frame fun hin => hout ((hsplit v').mpr (Or.inl hin))

/-- The loop over a covered region unmaps it, or stops where nothing is mapped. -/
theorem unmapRegion_run (hH : FreshFrames M H inUse) (hspace : size.toNat ≤ M.space)
    (hno : B.overflowChecks = true → v.toNat + size.toNat < 2 ^ 64)
    (I : Inv P M inUse self.rootPaddr w₀)
    (hT : Tiled M w₀.mem self.rootPaddr v 0 size.toNat) :
    ((self.unmapRegion v size w₀).1 = .ok () ∧
        Unmapped M self.rootPaddr v w₀ size.toNat (self.unmapRegion v size w₀).2) ∨
      ∃ x < size.toNat, leafAt M w₀.mem self.rootPaddr (v + BitVec.ofNat 64 x) = none ∧
        (self.unmapRegion v size w₀).1 = .err .notMapped ∧
        Unmapped M self.rootPaddr v w₀ x (self.unmapRegion v size w₀).2 := by
  have hL := LawfulPTE.levels (M := M) PTE
  refine regionLoop_wrap_rule (by decide) (I := fun x w => Inv P M inUse self.rootPaddr w ∧
      Tiled M w.mem self.rootPaddr v x size.toNat ∧ Unmapped M self.rootPaddr v w₀ x w)
    (Q := fun r w => (r = .ok () ∧ Unmapped M self.rootPaddr v w₀ size.toNat w) ∨
      ∃ x < size.toNat, leafAt M w₀.mem self.rootPaddr (v + BitVec.ofNat 64 x) = none ∧
        r = .err .notMapped ∧ Unmapped M self.rootPaddr v w₀ x w) ?_ ?_ ?_ ?_
  · intro x w hx _ hI
    obtain ⟨Iw, hTw, hU⟩ := hI
    cases hleaf : leafAt M w.mem self.rootPaddr (v + BitVec.ofNat 64 x) with
    | some leaf =>
      obtain ⟨w', hr, hfit, hI'⟩ := unmapRegion_block self hH hspace hx Iw hTw hU hleaf
      exact Or.inl ⟨_, w', hr, hfit, hI'⟩
    | none =>
      -- the first address without a page ends the loop
      obtain ⟨herr, hsame⟩ := unmap_no_leaf self Iw hleaf
      refine Or.inr (Or.inl ⟨.notMapped, _, Op.bind_err (Prod.ext herr rfl), Or.inr ⟨x, hx, ?_, rfl,
        hU.present, fun hin => ?_, fun hout => ?_⟩⟩)
      · rw [← hU.frame (not_inRegion_of_le hL le_rfl (by omega)), hleaf]
      · rw [hsame]
        exact hU.gone hin
      · rw [hsame]
        exact hU.frame hout
  · intro x w hx _ hB hover
    have := hno hB
    omega
  · rintro w ⟨-, -, hU⟩ -
    exact Or.inl ⟨rfl, hU⟩
  · exact ⟨I, hT, fun hz => absurd hz (by omega), fun hin => absurd hin not_within_zero,
      fun _ => rfl⟩

/-- `unmap_region` makes no leaf, whatever the region. -/
theorem unmapRegion_no_leaf (hH : FreshFrames M H inUse) (I : Inv P M inUse self.rootPaddr w)
    (v : VirtAddr) (size : Usize) {v' : VirtAddr}
    (h : leafAt M w.mem self.rootPaddr v' = none) :
    leafAt M (self.unmapRegion v size w).2.mem self.rootPaddr v' = none := by
  have hrel : leafAt M w.mem self.rootPaddr v' = none →
      leafAt M (self.unmapRegion v size w).2.mem self.rootPaddr v' = none := by
    refine regionLoop_rel (J := Inv P M inUse self.rootPaddr)
      (r := fun w w' => leafAt M w.mem self.rootPaddr v' = none →
        leafAt M w'.mem self.rootPaddr v' = none) (fun _ h => h)
      (fun hab hbc h => hbc (hab h)) (fun a size w I' => ?_) _ v size I
    rw [unmapRegionStep_snd]
    refine ⟨fun hnone => ?_, Call.inv hH self I' (.unmap a) trivial⟩
    cases hleaf : leafAt M w.mem self.rootPaddr a with
    | none => rw [(unmap_no_leaf self I' hleaf).2, hnone]
    | some leaf =>
      rw [(unmap_leaf self I' hleaf).2, hnone]
      exact ite_self none
  exact hrel h

/-! ### What is left mapped -/

/-- No address of the region is mapped. -/
def ClearedRegion (self : PageTable64 B M PTE H) (w : World PTE σ) (v : VirtAddr) (n : ℕ) : Prop :=
  ∀ v', InRegion M v n v' → ¬ Mapped self w v'

/-- In the region no address that is not mapped comes before one that is. -/
def HolesLast (self : PageTable64 B M PTE H) (w : World PTE σ) (v : VirtAddr) (n : ℕ) : Prop :=
  ∀ x y, x < y → y < n → Mapped self w (v + BitVec.ofNat 64 y) →
    Mapped self w (v + BitVec.ofNat 64 x)

/-- Over a covered region `unmap_region` leaves nothing mapped exactly when the addresses
that are not mapped come last. -/
theorem clears_of_tiled (hH : FreshFrames M H inUse) (hspace : size.toNat ≤ M.space)
    (hno : B.overflowChecks = true → v.toNat + size.toNat < 2 ^ 64)
    (I : Inv P M inUse self.rootPaddr w) (hT : Tiled M w.mem self.rootPaddr v 0 size.toNat) :
    ClearedRegion self (self.unmapRegion v size w).2 v size.toNat ↔
      HolesLast self w v size.toNat := by
  have hL := LawfulPTE.levels (M := M) PTE
  have I' : Inv P M inUse self.rootPaddr (self.unmapRegion v size w).2 :=
    Call.inv hH self I (.unmapRegion v size) trivial
  have hmem : ∀ z < size.toNat, InRegion M v size.toNat (v + BitVec.ofNat 64 z) := fun z hz =>
    ⟨z, hz, toNat_add_ofNat_mod v z (space_dvd hL)⟩
  obtain ⟨-, hU⟩ | ⟨x, hx, hnone, -, hU⟩ := unmapRegion_run self hH hspace hno I hT
  · -- the loop went through: all was mapped and nothing is
    refine iff_of_true (fun v' hin => ?_) fun x y hxy hy _ => ?_
    · rw [mapped_iff self I', hU.gone hin]
      simp
    · exact (mapped_iff self I _).mpr (hU.present (by omega))
  · -- the loop stopped at `x`: nothing may be mapped further on
    constructor
    · intro hclear y z hyz hz hzmapped
      by_cases hyx : y < x
      · exact (mapped_iff self I _).mpr (hU.present hyx)
      · have hgone := hclear _ (hmem z hz)
        rw [mapped_iff self I', hU.frame (not_inRegion_of_le hL (by omega) (by omega)),
          ← mapped_iff self I] at hgone
        exact absurd hzmapped hgone
    · intro hlast v' hin hmapped
      obtain ⟨z, hz, hv'⟩ := hin
      have hpath := vpath_of_mod hL hv'
      by_cases hin' : InRegion M v x v'
      · rw [mapped_iff self I', hU.gone hin'] at hmapped
        exact absurd hmapped (by simp)
      · rw [mapped_iff self I', hU.frame hin', leafAt, hpath, ← leafAt,
          ← mapped_iff self I] at hmapped
        -- the address is behind `x`, so `x` was mapped as well
        have hxz : x ≤ z := by
          by_contra hc
          exact hin' ⟨z, by omega, hv'⟩
        have hxmapped : Mapped self w (v + BitVec.ofNat 64 x) := by
          obtain rfl | hlt := hxz.eq_or_lt
          · exact hmapped
          · exact hlast x z hlt hz hmapped
        rw [mapped_iff self I, hnone] at hxmapped
        exact hxmapped rfl

/-- After a successful `map_region` and calls of `protect` and `protect_region`,
`unmap_region` leaves nothing mapped exactly when the addresses that are not mapped come
last. -/
theorem unmapRegion_clears (hH : FreshFrames M H inUse)
    (I : Inv (fun _ => True) M inUse self.rootPaddr w) {getPaddr : VirtAddr → PhysAddr}
    {f : MappingFlags 64} (hf : debugAssert PTE f = true) {allowHuge : Bool}
    (hmap : (self.mapRegion v getPaddr size f allowHuge w).1 = .ok ()) {w₁ : World PTE σ}
    (hprotect : Protects self (self.mapRegion v getPaddr size f allowHuge w).2 w₁) :
    ClearedRegion self (self.unmapRegion v size w₁).2 v size.toNat ↔
      HolesLast self w₁ v size.toNat := by
  have hL := LawfulPTE.levels (M := M) PTE
  obtain ⟨hno, hU⟩ := mapRegion_ok self hH (allowed_true hf) I hmap
  obtain ⟨hkeeps, I₁⟩ := hprotect.keeps hH self hU.inv
  by_cases hpresent : presentWith PTE f = true
  · exact clears_of_tiled self hH (hU.le_space hpresent) hno I₁ (hkeeps.tiled (hU.tiled hpresent))
  · -- the flags make no page present: nothing was ever mapped in the region
    have hnone : ∀ v', InRegion M v size.toNat v' → leafAt M w₁.mem self.rootPaddr v' = none :=
      fun v' hin => hkeeps.leaves v' (hU.leafAt_eq_none hpresent hin)
    have I₂ : Inv (fun _ => True) M inUse self.rootPaddr (self.unmapRegion v size w₁).2 :=
      Call.inv hH self I₁ (.unmapRegion v size) trivial
    refine iff_of_true (fun v' hin => ?_) fun x y _ hy hmapped => ?_
    · rw [mapped_iff self I₂, unmapRegion_no_leaf self hH I₁ v size (hnone v' hin)]
      simp
    · rw [mapped_iff self I₁, hnone _ ⟨y, hy, toNat_add_ofNat_mod v y (space_dvd hL)⟩] at hmapped
      exact absurd rfl hmapped

end Lawful

/-- The same for every architecture. -/
theorem Arch.unmapRegion_clears_iff (arch : Arch) {H : PagingHandler 64 σ}
    {inUse : σ → Set PhysAddr} (hH : FreshFrames arch.metaData H inUse)
    {self : PageTable64 B arch.metaData arch.PTE H} {w : World arch.PTE σ}
    (hw : Reachable (fun f => debugAssert arch.PTE f = true) self w) (v : VirtAddr)
    (size : Usize) {getPaddr : VirtAddr → PhysAddr} {f : MappingFlags 64}
    (hf : debugAssert arch.PTE f = true) {allowHuge : Bool}
    (hmap : (self.mapRegion v getPaddr size f allowHuge w).1 = .ok ()) {w₁ : World arch.PTE σ}
    (hprotect : Protects self (self.mapRegion v getPaddr size f allowHuge w).2 w₁) :
    ClearedRegion self (self.unmapRegion v size w₁).2 v size.toNat ↔
      HolesLast self w₁ v size.toNat :=
  unmapRegion_clears self hH (hw.inv hH self fun _ hf => allowed_true hf) hf hmap hprotect

/-- A new table of x86_64 in which two 4K pages are mapped. -/
def twoPagesWorld : World X64PTE ℕ :=
  ((firstTable ⟨true, true⟩ X64PagingMetaData X64PTE 8).mapRegion 0 (fun v => v + 0x40000000)
    0x2000 .READ false (firstWorld X64PTE)).2

/-- The same table after the first page is protected with the empty flags. -/
def firstPageProtected : World X64PTE ℕ :=
  Call.next (firstTable ⟨true, true⟩ X64PagingMetaData X64PTE 8) twoPagesWorld (.protect 0 .empty)

theorem firstPageProtected_protects :
    Protects (firstTable ⟨true, true⟩ X64PagingMetaData X64PTE 8) twoPagesWorld
      firstPageProtected :=
  .call .start (.protect 0 .empty) trivial rfl

theorem Arch.unmapRegion_clears_iff_run :
    ClearedRegion (firstTable ⟨true, true⟩ X64PagingMetaData X64PTE 8)
        ((firstTable ⟨true, true⟩ X64PagingMetaData X64PTE 8).unmapRegion 0 0x2000
          firstPageProtected).2 0 0x2000 ↔
      HolesLast (firstTable ⟨true, true⟩ X64PagingMetaData X64PTE 8) firstPageProtected 0 0x2000 :=
  Arch.unmapRegion_clears_iff .x64 (f := .READ) (freshFrames_bumpHandler (by decide) (by decide))
    (.new (tryNew_blankWorld 7)) 0 0x2000 rfl (by decide +kernel) firstPageProtected_protects

/-- There `map_region` and `protect` succeed, but after `unmap_region` the second page is
still mapped. -/
theorem unmapRegion_leaves_page :
    Reachable (fun f => debugAssert X64PTE f = true)
        (firstTable ⟨true, true⟩ X64PagingMetaData X64PTE 8) (firstWorld X64PTE) ∧
      ((firstTable ⟨true, true⟩ X64PagingMetaData X64PTE 8).mapRegion 0 (fun v => v + 0x40000000)
        0x2000 .READ false (firstWorld X64PTE)).1 = .ok () ∧
      ((firstTable ⟨true, true⟩ X64PagingMetaData X64PTE 8).protect 0 .empty twoPagesWorld).1 =
        .ok .size4K ∧
      Protects (firstTable ⟨true, true⟩ X64PagingMetaData X64PTE 8) twoPagesWorld
        firstPageProtected ∧
      ¬ ClearedRegion (firstTable ⟨true, true⟩ X64PagingMetaData X64PTE 8)
        ((firstTable ⟨true, true⟩ X64PagingMetaData X64PTE 8).unmapRegion 0 0x2000
          firstPageProtected).2 0 0x2000 := by
  refine ⟨.new (tryNew_blankWorld 7), by decide +kernel, by decide +kernel,
    firstPageProtected_protects, fun hclear => ?_⟩
  refine hclear 0x1000 ⟨0x1000, by decide, rfl⟩ ⟨(0x40001000, .READ, .size4K), ?_⟩
  decide +kernel

end PageTableMultiarch
