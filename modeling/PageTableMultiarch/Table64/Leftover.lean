/-
Tables that are left behind.

Nothing removes a table before the whole page table is dropped.  When all pages below a
table have been unmapped, or when `map` has created it and then run out of frames, the
entry that points to it is still in use, and a huge page cannot be mapped there.

* `map_error` — why `map` fails where every page is present;
* `map_alreadyMapped_iff` — `AlreadyMapped` comes without a mapped page exactly at a table
  that is left behind;
* `mapRegion_unmapped_iff` — what `map_region` needs over an unmapped region.
-/
import PageTableMultiarch.Table64.UnmapExact

namespace PageTableMultiarch

open GenericPTE Radix Cyclic

variable {B : Build} {M : PagingMetaData} {PTE σ : Type} {H : PagingHandler 64 σ}
  [GenericPTE 64 PTE] {root : PhysAddr} {A : List (Fin ENTRY_COUNT) → Prop}
  {inUse : σ → Set PhysAddr} {w w' : World PTE σ}

/-! ### What growing keeps -/

section Grow

variable [LawfulPTE M PTE] (hH : FreshFrames M H inUse) (T : Tree M inUse root w)
include hH T

/-- Steps that do not create a table at the end of a path leave what it leads to. -/
theorem Steps.resolve_eq {P : PTE → Prop} (h : Steps M H root A (LeafStore P M) w w')
    {ρ : List (Fin ENTRY_COUNT)} (hρ : ρ.length ≤ M.LEVELS - 1) (hA : ¬ A ρ) :
    resolve child w'.mem root ρ = resolve child w.mem root ρ := by
  induction h with
  | refl => rfl
  | tail hsteps hstep ih =>
    rw [← ih]
    have T' := Steps.tree hH (fun _ _ h => h.noTable) T hsteps
    cases hstep with
    | access t ht => rfl
    | flush fl => rfl
    | allocFail os h => rfl
    | store τ slot e h hτ hc hw => exact T'.resolve_store h hτ hc hw.noTable root rfl ρ hρ
    | attach τ slot p os h hτ hold ha hnew =>
      ext u
      rw [T'.resolve_hang_iff h hτ hold (hH.valid ha) (hH.fresh ha) hρ]
      refine or_iff_left fun hc => hA ?_
      rwa [hc.1]

/-- Growing keeps the tables there are. -/
theorem Grow.resolve_some (h : Grow M H root A w w') {ρ : List (Fin ENTRY_COUNT)}
    (hρ : ρ.length ≤ M.LEVELS - 1) {p : PhysAddr} (hp : resolve child w.mem root ρ = some p) :
    resolve child w'.mem root ρ = some p := by
  induction h with
  | refl => exact hp
  | tail hsteps hstep ih =>
    have T' := Grow.tree hH T hsteps
    cases hstep with
    | access t ht => exact ih
    | flush fl => exact ih
    | allocFail os h => exact ih
    | store τ slot e h hτ hc hw => exact hw.elim
    | attach τ slot p os h hτ hold ha hnew =>
      exact (T'.resolve_hang_iff h hτ hold (hH.valid ha) (hH.fresh ha) hρ).mpr (Or.inl ih)

end Grow

/-! ### `map` -/

/-- The entry for a page of the size points to a table, and nothing in the page is mapped. -/
def Leftover (self : PageTable64 B M PTE H) (w : World PTE σ) (size : PageSize) (v : VirtAddr) :
    Prop :=
  0 < size.height ∧
    (resolve child w.mem self.rootPaddr (pathTo M size.height v)).isSome = true ∧
    ∀ v' : VirtAddr, v'.toNat / size.bytes = v.toNat / size.bytes → ¬ Mapped self w v'

section Map

variable [LawfulPTE M PTE] (hH : FreshFrames M H inUse) (self : PageTable64 B M PTE H)
  {target : PhysAddr} {size : PageSize} {f : MappingFlags 64} {v : VirtAddr}
include hH

omit hH in
/-- An entry that is in use and no table maps the addresses of its page. -/
theorem leafAt_of_not_table (I : Inv (fun e : PTE => isPresent e = true) M inUse root w) {k : ℕ}
    (hk : k < M.LEVELS) {slot : Slot} (h : SlotAt w.mem root (pathTo M k v) slot)
    (hne : w.entry slot ≠ empty)
    (hno : ¬ (0 < k ∧ (resolve child w.mem root (pathTo M k v)).isSome = true)) :
    leafAt M w.mem root v ≠ none := by
  have hL := LawfulPTE.levels (M := M) PTE
  have hlen := length_pathTo hL k v
  obtain ⟨hlt, p, hp, hnew⟩ | hold | ⟨hpresent, hplace⟩ := I.entries h (by omega)
  · refine absurd ⟨by omega, ?_⟩ hno
    rw [h.resolve_eq, show w.mem slot.table slot.index = newTable p from hnew, child_newTable hp]
    rfl
  · exact absurd hold hne
  · have hk2 : k ≤ 2 := by
      obtain hlast | ⟨-, hle⟩ := hplace <;> omega
    have hhuge : k = 0 ∨ isHuge (w.mem slot.table slot.index) = true := by
      obtain hlast | ⟨hh, -⟩ := hplace
      · exact Or.inl (by omega)
      · exact Or.inr hh
    rw [h.leafAt_samePage hL hk2 (hhuge.imp_right child_of_isHuge) (.refl k v),
      if_pos ⟨hpresent, hhuge⟩]
    simp

/-- Why `map` fails where every page is present: there is no frame, the address is mapped
already, or a table is in the place of the page. -/
theorem map_error (I : Inv (fun e : PTE => isPresent e = true) M inUse self.rootPaddr w)
    (hf : debugAssert PTE f = true) {e : PagingError}
    (h : (self.map v target size f w).1 = .err e) :
    e = .noMemory ∨ leafAt M w.mem self.rootPaddr v ≠ none ∨
      e = .alreadyMapped ∧ 0 < size.height ∧
        (resolve child w.mem self.rootPaddr (pathTo M size.height v)).isSome = true := by
  have hL := LawfulPTE.levels (M := M) PTE
  have hheight := size.height_le
  have hlen := length_pathTo hL size.height v
  obtain ⟨w', hgrow, ⟨e', heq, hreason⟩ | ⟨slot, -, -, heq⟩⟩ :=
    map_spec hH self v target size hf I.toTree
  swap
  · rw [heq] at h
    exact absurd h (by simp)
  rw [heq] at h
  obtain rfl : e' = e := by simpa using h
  have I' := hgrow.inv hH I
  have hleaf := hgrow.leafAt hH I.toTree v
  obtain ⟨j, hkj, hj, slot, hslot, ⟨rfl, -⟩ | ⟨hne, hnext⟩⟩ | ⟨rfl, slot, hslot, hne⟩ := hreason
  · exact Or.inl rfl
  · -- an entry above is in use, and there is no table under it
    refine Or.inr (Or.inl ?_)
    rw [← hleaf]
    refine leafAt_of_not_table I' hj hslot hne fun hc => ?_
    have hnone : child (w'.mem slot.table slot.index) = none := child_of_nextTable_error hnext
    rw [hslot.resolve_eq, hnone] at hc
    exact absurd hc.2 (by simp)
  · by_cases hno : 0 < size.height ∧
        (resolve child w'.mem self.rootPaddr (pathTo M size.height v)).isSome = true
    · -- a table below the entry: it was there before, as the call makes none so deep
      refine Or.inr (Or.inr ⟨rfl, hno.1, ?_⟩)
      have hsame := Steps.resolve_eq (P := fun e => isPresent e = true) hH I.toTree hgrow.steps
        (show (pathTo M size.height v).length ≤ M.LEVELS - 1 by omega) ?_
      · rw [← hsame]
        exact hno.2
      · rintro ⟨j, hkj, -, hpath, -⟩
        have hj := congrArg List.length hpath
        rw [hlen, length_pathTo hL] at hj
        omega
    · refine Or.inr (Or.inl ?_)
      rw [← hleaf]
      exact leafAt_of_not_table I' (by omega) hslot hne hno

/-- Where a table is in the place of the page, `map` says that something is mapped. -/
theorem map_over_table (T : Tree M inUse self.rootPaddr w) (hf : debugAssert PTE f = true)
    (hk : 0 < size.height)
    (h : (resolve child w.mem self.rootPaddr (pathTo M size.height v)).isSome = true) :
    (self.map v target size f w).1 = .err .alreadyMapped := by
  have hL := LawfulPTE.levels (M := M) PTE
  obtain ⟨w', hgrow, hres⟩ := map_spec hH self v target size hf T
  -- from there up, every entry of the path points to a table, now and before
  have htable : ∀ j slot, size.height ≤ j → j < M.LEVELS →
      SlotAt w'.mem self.rootPaddr (pathTo M j v) slot →
      child (w'.mem slot.table slot.index) ≠ none := by
    intro j slot hkj hj hslot hnone
    have hlen := length_pathTo hL j v
    obtain ⟨τ, hτ⟩ : pathTo M j v <+: pathTo M size.height v :=
      List.take_prefix_take_left (by omega)
    have hsome : (resolve child w.mem self.rootPaddr (pathTo M j v)).isSome = true := by
      rw [← hτ, resolve_append] at h
      cases hr : resolve child w.mem self.rootPaddr (pathTo M j v) with
      | none =>
        rw [hr] at h
        exact absurd h (by simp)
      | some p => rfl
    obtain ⟨p, hp⟩ := Option.isSome_iff_exists.mp hsome
    have hp' := hgrow.resolve_some hH T (by omega) hp
    rw [hslot.resolve_eq, hnone] at hp'
    exact absurd hp' (by simp)
  have hheight := size.height_le
  obtain ⟨e, heq, hreason⟩ | ⟨slot, hslot, hold, -⟩ := hres
  · obtain ⟨j, hkj, hj, slot, hslot, hblocked⟩ | ⟨rfl, -⟩ := hreason
    · refine absurd ?_ (htable j slot (by omega) hj hslot)
      obtain ⟨-, hold⟩ | ⟨-, hnext⟩ := hblocked
      · rw [show w'.mem slot.table slot.index = empty from hold, child_empty M]
      · exact child_of_nextTable_error hnext
    · rw [heq]
  · refine absurd ?_ (htable _ slot le_rfl (by omega) hslot)
    rw [show w'.mem slot.table slot.index = empty from hold, child_empty M]

/-- `AlreadyMapped` means that something is mapped in the page, unless a table is left behind
there. -/
theorem map_alreadyMapped_iff
    (I : Inv (fun e : PTE => isPresent e = true) M inUse self.rootPaddr w)
    (hf : debugAssert PTE f = true) :
    ((self.map v target size f w).1 = .err .alreadyMapped →
        ∃ v' : VirtAddr, v'.toNat / size.bytes = v.toNat / size.bytes ∧ Mapped self w v') ↔
      ¬ Leftover self w size v := by
  constructor
  · rintro h ⟨hk, htable, hunmapped⟩
    obtain ⟨v', hpage, hmapped⟩ := h (map_over_table hH self I.toTree hf hk htable)
    exact hunmapped v' hpage hmapped
  · intro hno herr
    by_contra hunmapped
    push Not at hunmapped
    have hv : leafAt M w.mem self.rootPaddr v = none := by
      by_contra hleaf
      exact hunmapped v rfl ((mapped_iff self I v).mpr hleaf)
    obtain hmem | hleaf | ⟨-, hk, htable⟩ := map_error hH self I hf herr
    · exact absurd hmem (by simp)
    · exact hleaf hv
    · exact hno ⟨hk, htable, hunmapped⟩

end Map

/-! ### `map_region` -/

/-- The page size that `map_region` with huge pages picks `x` bytes into a region. -/
def pickAt (v : VirtAddr) (getPaddr : VirtAddr → PhysAddr) (size : Usize) (x : ℕ) : PageSize :=
  PageTable64.regionPageSize (v + BitVec.ofNat 64 x) (getPaddr (v + BitVec.ofNat 64 x))
    (size - BitVec.ofNat 64 x) true

/-- Where it starts its pages. -/
def pickStart (v : VirtAddr) (getPaddr : VirtAddr → PhysAddr) (size : Usize) : ℕ → ℕ
  | 0 => 0
  | n + 1 => pickStart v getPaddr size n +
      (pickAt v getPaddr size (pickStart v getPaddr size n)).bytes

theorem pickStart_strictMono (v : VirtAddr) (getPaddr : VirtAddr → PhysAddr) (size : Usize) :
    StrictMono (pickStart v getPaddr size) := by
  refine strictMono_nat_of_lt_succ fun n => ?_
  have := (pickAt v getPaddr size (pickStart v getPaddr size n)).bytes_pos
  rw [pickStart]
  omega

theorem pickStart_aligned (v : VirtAddr) (getPaddr : VirtAddr → PhysAddr) (size : Usize) (n : ℕ) :
    pickStart v getPaddr size n % 0x1000 = 0 := by
  induction n with
  | zero => rfl
  | succ n ih =>
    have := (pickAt v getPaddr size (pickStart v getPaddr size n)).four_k_dvd_bytes
    rw [pickStart]
    omega

/-- The page picked is aligned and fits. -/
theorem pickAt_spec {v : VirtAddr} (getPaddr : VirtAddr → PhysAddr) {size : Usize} {x : ℕ}
    (hv : v.toNat % 0x1000 = 0) (hsize : size.toNat % 0x1000 = 0) (hx : x < size.toNat)
    (hx0 : x % 0x1000 = 0) :
    2 ^ (12 + 9 * (pickAt v getPaddr size x).height) = (pickAt v getPaddr size x).bytes ∧
      (v.toNat + x) % (pickAt v getPaddr size x).bytes = 0 ∧
      x + (pickAt v getPaddr size x).bytes ≤ size.toNat := by
  have hrest := toNat_sub_ofNat hx.le
  obtain ⟨hs1M, hstart, hfit, -⟩ := regionPageSize_spec (v + BitVec.ofNat 64 x)
    (getPaddr (v + BitVec.ofNat 64 x)) (size - BitVec.ofNat 64 x) true
    (by rw [toNat_add_ofNat_mod v x (by decide)]; omega) (by rw [hrest]; omega)
  rw [← pickAt] at hs1M hstart hfit
  have hheight := (pickAt v getPaddr size x).height_le
  have hbytes : 2 ^ (12 + 9 * (pickAt v getPaddr size x).height) =
      (pickAt v getPaddr size x).bytes := by
    rw [← bytes_heightSize hheight, heightSize_height hs1M]
  rw [toNat_add_ofNat_mod v x (by rw [← hbytes]; exact Nat.pow_dvd_pow 2 (by omega))] at hstart
  exact ⟨hbytes, hstart, by omega⟩

/-- What `map_region` with huge pages needs over a region that is not mapped: aligned ends, no
overflow, no more than the address space, and no tables left behind where it puts pages. -/
structure Mappable (table : PageTable64 B M PTE H) (w : World PTE σ) (v : VirtAddr)
    (getPaddr : VirtAddr → PhysAddr) (size : Usize) : Prop where
  aligned : v.toNat % 0x1000 = 0 ∧ size.toNat % 0x1000 = 0
  no_overflow : B.overflowChecks = true → v.toNat + size.toNat < 2 ^ 64
  le_space : size.toNat ≤ M.space
  no_leftover {n : ℕ} : pickStart v getPaddr size n < size.toNat →
    ¬ Leftover table w (pickAt v getPaddr size (pickStart v getPaddr size n))
      (v + BitVec.ofNat 64 (pickStart v getPaddr size n))

section MapRegion

variable [LawfulPTE M PTE] (hH : FreshFrames M H inUse) (self : PageTable64 B M PTE H)
  {v : VirtAddr} {size : Usize} {getPaddr : VirtAddr → PhysAddr} {f : MappingFlags 64}
include hH

/-- Mapping one page leaves the tables alone in the place of pages further on. -/
theorem map_resolve_later (T : Tree M inUse self.rootPaddr w) {P : PTE → Prop} (hf : Allowed P f)
    (s : PageSize) {x y n k : ℕ} (hn : n ≤ M.space) (hxy : x < y) (hk0 : 0 < k) (hk : k ≤ 2)
    (hy : (v.toNat + y) % 2 ^ (12 + 9 * k) = 0) (hfits : y + 2 ^ (12 + 9 * k) ≤ n)
    (target : PhysAddr) :
    resolve child (self.map (v + BitVec.ofNat 64 x) target s f w).2.mem self.rootPaddr
        (pathTo M k (v + BitVec.ofNat 64 y)) =
      resolve child w.mem self.rootPaddr (pathTo M k (v + BitVec.ofNat 64 y)) := by
  have hL := LawfulPTE.levels (M := M) PTE
  have hlen := fun j u => length_pathTo hL j u
  refine Steps.resolve_eq hH T (map_steps self hH T hf (v + BitVec.ofNat 64 x) target s)
    (by rw [hlen]; omega) ?_
  rintro ⟨j, -, hj, hpath, -⟩
  -- a table created on the way to the page at `x` lies above a page that holds `x`
  have hjk := congrArg List.length hpath
  rw [hlen, hlen] at hjk
  obtain rfl : j = k := by omega
  obtain ⟨t, ht, hmod⟩ := (samePage_iff_within hL hk hy).mp hpath
  rw [toNat_add_ofNat_mod v x (space_dvd hL)] at hmod
  have hcongr : v.toNat + x ≡ v.toNat + y + t [MOD M.space] := hmod
  have hdvd := (Nat.modEq_iff_dvd' (show v.toNat + x ≤ v.toNat + y + t by omega)).mp hcongr
  have := Nat.le_of_dvd (show 0 < v.toNat + y + t - (v.toNat + x) by omega) hdvd
  omega

/-- What holds after `n` pages of a region that was not mapped: there were no tables left behind
in their places, and in the places of the pages to come the tables are those there were. -/
structure PickedUpTo (table : PageTable64 B M PTE H) (v : VirtAddr)
    (getPaddr : VirtAddr → PhysAddr) (size : Usize) (w₀ : World PTE σ) (n : ℕ) (w : World PTE σ) :
    Prop where
  done {m : ℕ} : m < n →
    ¬ Leftover table w₀ (pickAt v getPaddr size (pickStart v getPaddr size m))
      (v + BitVec.ofNat 64 (pickStart v getPaddr size m))
  later {m : ℕ} : n ≤ m → pickStart v getPaddr size m < size.toNat →
    0 < (pickAt v getPaddr size (pickStart v getPaddr size m)).height →
    resolve child w.mem table.rootPaddr
        (pathTo M (pickAt v getPaddr size (pickStart v getPaddr size m)).height
          (v + BitVec.ofNat 64 (pickStart v getPaddr size m))) =
      resolve child w₀.mem table.rootPaddr
        (pathTo M (pickAt v getPaddr size (pickStart v getPaddr size m)).height
          (v + BitVec.ofNat 64 (pickStart v getPaddr size m)))

/-- One round over a region that was not mapped. -/
theorem mapRegion_round_unmapped (hf : Readable f) (hv : v.toNat % 0x1000 = 0)
    (hsize : size.toNat % 0x1000 = 0) (hspace : size.toNat ≤ M.space) {w₀ : World PTE σ}
    (I₀ : Inv (fun e : PTE => isPresent e = true) M inUse self.rootPaddr w₀)
    (hclear : ClearedRegion self w₀ v size.toNat) {n x : ℕ} (hn : x = pickStart v getPaddr size n)
    (hx : x < size.toNat)
    (I : MappedUpTo (fun e : PTE => isPresent e = true) M inUse self.rootPaddr v getPaddr f w₀ x w)
    (J : PickedUpTo self v getPaddr size w₀ n w) :
    (∃ w', self.mapRegionStep getPaddr f true (v + BitVec.ofNat 64 x) (size - BitVec.ofNat 64 x) w =
        (.ok (pickAt v getPaddr size x), w') ∧
        x + (pickAt v getPaddr size x).bytes ≤ size.toNat ∧
        MappedUpTo (fun e : PTE => isPresent e = true) M inUse self.rootPaddr v getPaddr f w₀
          (x + (pickAt v getPaddr size x).bytes) w' ∧
        PickedUpTo self v getPaddr size w₀ (n + 1) w') ∨
      ∃ e w', self.mapRegionStep getPaddr f true (v + BitVec.ofNat 64 x)
          (size - BitVec.ofNat 64 x) w = (.err e, w') ∧
        (e = .noMemory ∨
          Leftover self w₀ (pickAt v getPaddr size x) (v + BitVec.ofNat 64 x)) := by
  have hL := LawfulPTE.levels (M := M) PTE
  have hallowed : Allowed (fun e : PTE => isPresent e = true) f := allowed_read M hf
  obtain ⟨hbytes, hstart, hfit⟩ := pickAt_spec getPaddr hv hsize hx I.aligned
  have hheight := (pickAt v getPaddr size x).height_le
  have hround := mapRegion_round self hH hallowed hv hsize hx I true
  have hlater := fun hk => J.later le_rfl (hn ▸ hx) hk
  rw [← hn] at hlater
  -- the page picked lies in the rest of the region, where nothing is mapped
  have hin : ∀ t < (pickAt v getPaddr size x).bytes,
      InRegion M v size.toNat (v + BitVec.ofNat 64 (x + t)) := fun t ht =>
    ⟨x + t, by omega, toNat_add_ofNat_mod v (x + t) (space_dvd hL)⟩
  have hfree : leafAt M w.mem self.rootPaddr (v + BitVec.ofNat 64 x) = none := by
    have hx' : InRegion M v size.toNat (v + BitVec.ofNat 64 x) := hin 0 (PageSize.bytes_pos _)
    rw [I.frame _ fun hout => ?_]
    · by_contra hleaf
      exact hclear _ hx' ((mapped_iff self I₀ _).mpr hleaf)
    · refine not_within_of_within (k := 1) (by omega) hout ⟨0, by omega, ?_⟩
      exact toNat_add_ofNat_mod v x (space_dvd hL)
  obtain ⟨r, w', hr⟩ : ∃ r w', self.map (v + BitVec.ofNat 64 x) (getPaddr (v + BitVec.ofNat 64 x))
      (pickAt v getPaddr size x) f w = (r, w') := ⟨_, _, rfl⟩
  have hres := congrArg Prod.fst hr
  cases r with
  | ok u =>
    have hstep : self.mapRegionStep getPaddr f true (v + BitVec.ofNat 64 x)
        (size - BitVec.ofNat 64 x) w = (.ok (pickAt v getPaddr size x), w') := Op.bind_ok hr
    obtain ⟨ps, w'', hround, -, I'⟩ | ⟨e, w'', hround, -⟩ := hround
    · obtain ⟨rfl, rfl⟩ : pickAt v getPaddr size x = ps ∧ w' = w'' := by
        rw [hstep] at hround
        simpa using hround
      refine Or.inl ⟨w', hstep, hfit, I', ?_, ?_⟩
      · intro m hm hleft
        obtain hm | rfl : m < n ∨ m = n := by omega
        · exact J.done hm hleft
        · -- a table in its place would have stopped `map`
          rw [← hn] at hleft
          have htable : (self.map (v + BitVec.ofNat 64 x) (getPaddr (v + BitVec.ofNat 64 x))
              (pickAt v getPaddr size x) f w).1 = .err .alreadyMapped :=
            map_over_table hH self I.inv.toTree hallowed.accepted hleft.1
              (by rw [hlater hleft.1]; exact hleft.2.1)
          exact absurd (hres.symm.trans htable) (by simp)
      · intro m hm hlt hk
        rw [← J.later (by omega) hlt hk]
        have hxm : x < pickStart v getPaddr size m :=
          hn ▸ pickStart_strictMono v getPaddr size (show n < m by omega)
        obtain ⟨hbytes', hstart', hfit'⟩ :=
          pickAt_spec getPaddr hv hsize hlt (pickStart_aligned v getPaddr size m)
        rw [← hbytes'] at hstart' hfit'
        have hsame := map_resolve_later hH self I.inv.toTree hallowed (pickAt v getPaddr size x)
          hspace hxm hk (PageSize.height_le _) hstart' hfit' (getPaddr (v + BitVec.ofNat 64 x))
        rw [hr] at hsame
        exact hsame
    · rw [hstep] at hround
      exact absurd (congrArg Prod.fst hround) (by simp)
  | err e =>
    refine Or.inr ⟨e, w', Op.bind_err hr, ?_⟩
    obtain rfl | hleaf | ⟨-, hk, htable⟩ := map_error hH self I.inv hallowed.accepted hres
    · exact Or.inl rfl
    · exact absurd hfree hleaf
    · refine Or.inr ⟨hk, by rw [← hlater hk]; exact htable, fun v' hv' => hclear v' ?_⟩
      rw [← hbytes] at hv' hstart
      have hsame : SamePage M (pickAt v getPaddr size x).height (v + BitVec.ofNat 64 x) v' :=
        samePage_of_lt hL hheight hv'.symm
      rw [samePage_iff_within hL hheight hstart, hbytes] at hsame
      exact Within.mono (within_add.mpr (Or.inr hsame)) hfit
  | panic =>
    have hstep : self.mapRegionStep getPaddr f true (v + BitVec.ofNat 64 x)
        (size - BitVec.ofNat 64 x) w = (.panic, w') := Op.bind_panic hr
    obtain ⟨ps, w'', hround, -⟩ | ⟨e, w'', hround, -⟩ := hround
    · rw [hstep] at hround
      exact absurd (congrArg Prod.fst hround) (by simp)
    · rw [hstep] at hround
      exact absurd (congrArg Prod.fst hround) (by simp)

/-- Over a region that is not mapped, `map_region` with huge pages succeeds, if there are enough
frames, exactly where it can. -/
theorem mapRegion_unmapped_iff
    (I : Inv (fun e : PTE => isPresent e = true) M inUse self.rootPaddr w) (hf : Readable f)
    (hclear : ClearedRegion self w v size.toNat)
    (hmem : (self.mapRegion v getPaddr size f true w).1 ≠ .err .noMemory) :
    (self.mapRegion v getPaddr size f true w).1 = .ok () ↔
      Mappable self w v getPaddr size := by
  have hallowed : Allowed (fun e : PTE => isPresent e = true) f := allowed_read M hf
  by_cases haligned : v.toNat % 0x1000 = 0 ∧ size.toNat % 0x1000 = 0
  swap
  · rw [mapRegion_not_aligned self haligned]
    constructor
    · intro h
      exact absurd h (by simp)
    · intro h
      exact absurd h.aligned haligned
  by_cases hspace : size.toNat ≤ M.space
  swap
  · constructor
    · intro h
      have hok := (mapRegion_ok self hH hallowed I h).2
      exact absurd (hok.le_space (LawfulPTE.presentWith_read M hf)) hspace
    · intro h
      exact absurd h.le_space hspace
  obtain ⟨hv, hsize⟩ := haligned
  have main : (((self.mapRegion v getPaddr size f true w).1 = .ok () →
        (B.overflowChecks = true → v.toNat + size.toNat < 2 ^ 64) ∧ ∀ n,
          pickStart v getPaddr size n < size.toNat →
          ¬ Leftover self w (pickAt v getPaddr size (pickStart v getPaddr size n))
            (v + BitVec.ofNat 64 (pickStart v getPaddr size n))) ∧
      ((self.mapRegion v getPaddr size f true w).1 = .panic →
        B.overflowChecks = true ∧ 2 ^ 64 ≤ v.toNat + size.toNat) ∧
      ∀ e, (self.mapRegion v getPaddr size f true w).1 = .err e → e = .noMemory ∨ ∃ n,
        pickStart v getPaddr size n < size.toNat ∧
          Leftover self w (pickAt v getPaddr size (pickStart v getPaddr size n))
            (v + BitVec.ofNat 64 (pickStart v getPaddr size n))) := by
    have hnotAligned : ¬ ((!PageSize.size4K.isAligned v || !PageSize.size4K.isAligned size) =
        true) := by
      rw [(PageSize.isAligned_iff (by decide) .size4K v).mpr hv,
        (PageSize.isAligned_iff (by decide) .size4K size).mpr hsize]
      simp
    rw [PageTable64.mapRegion, if_neg hnotAligned]
    refine regionLoop_wrap_rule (by decide)
      (I := fun x s => ∃ n, x = pickStart v getPaddr size n ∧
        MappedUpTo (fun e : PTE => isPresent e = true) M inUse self.rootPaddr v getPaddr f w x s ∧
        PickedUpTo self v getPaddr size w n s)
      (Q := fun r _ => (r = .ok () →
          (B.overflowChecks = true → v.toNat + size.toNat < 2 ^ 64) ∧ ∀ n,
            pickStart v getPaddr size n < size.toNat →
            ¬ Leftover self w (pickAt v getPaddr size (pickStart v getPaddr size n))
              (v + BitVec.ofNat 64 (pickStart v getPaddr size n))) ∧
        (r = .panic → B.overflowChecks = true ∧ 2 ^ 64 ≤ v.toNat + size.toNat) ∧
        ∀ e, r = .err e → e = .noMemory ∨ ∃ n, pickStart v getPaddr size n < size.toNat ∧
          Leftover self w (pickAt v getPaddr size (pickStart v getPaddr size n))
            (v + BitVec.ofNat 64 (pickStart v getPaddr size n))) ?_ ?_ ?_ ?_
    · rintro x s hx - ⟨n, rfl, Ix, Jx⟩
      obtain ⟨s', hstep, hle, I', J'⟩ | ⟨e, s', hstep, hreason⟩ :=
        mapRegion_round_unmapped hH self hf hv hsize hspace I hclear rfl hx Ix Jx
      · exact Or.inl ⟨_, s', hstep, hle, n + 1, rfl, I', J'⟩
      · refine Or.inr (Or.inl ⟨e, s', hstep, by simp, by simp, ?_⟩)
        rintro e' he
        obtain rfl : e = e' := by simpa using he
        exact hreason.imp_right fun h => ⟨n, hx, h⟩
    · intro x s hx _ hchecks hover
      exact ⟨by simp, fun _ => ⟨hchecks, by omega⟩, by simp⟩
    · rintro s ⟨n, hn, -, Jn⟩ hno
      refine ⟨fun _ => ⟨hno, fun m hm => Jn.done ?_⟩, by simp, by simp⟩
      -- only the pages before the end were picked
      rw [hn] at hm
      exact (pickStart_strictMono v getPaddr size).lt_iff_lt.mp hm
    · refine ⟨0, rfl, ⟨I, rfl, fun _ => Nat.zero_le _, fun v' hin => absurd hin not_within_zero,
        fun v' z hz => absurd hz (by omega), fun v' _ => rfl⟩, fun hm => absurd hm (by omega),
        fun _ _ _ => rfl⟩
  obtain ⟨hok, hpanic, herr⟩ := main
  constructor
  · intro h
    exact ⟨⟨hv, hsize⟩, (hok h).1, hspace, fun {n} hn => (hok h).2 n hn⟩
  · intro h
    cases hr : (self.mapRegion v getPaddr size f true w).1 with
    | ok u => rfl
    | err e =>
      obtain rfl | ⟨n, hn, hleft⟩ := herr e hr
      · exact absurd hr hmem
      · exact absurd hleft (h.no_leftover hn)
    | panic =>
      obtain ⟨hchecks, hover⟩ := hpanic hr
      have := h.no_overflow hchecks
      omega

end MapRegion

/-- `map` says `AlreadyMapped` without a mapped page exactly at a table that is left behind, and
over a region that is not mapped `map_region` with huge pages needs that there is none. -/
theorem Arch.alreadyMapped_iff_no_leftover (arch : Arch) {H : PagingHandler 64 σ}
    {inUse : σ → Set PhysAddr} (hH : FreshFrames arch.metaData H inUse)
    {self : PageTable64 B arch.metaData arch.PTE H} {w : World arch.PTE σ}
    (hw : Reachable Readable self w) (v : VirtAddr) {f : MappingFlags 64} (hf : Readable f) :
    (∀ target size, ((self.map v target size f w).1 = .err .alreadyMapped →
        ∃ v' : VirtAddr, v'.toNat / size.bytes = v.toNat / size.bytes ∧ Mapped self w v') ↔
      ¬ Leftover self w size v) ∧
    ∀ getPaddr size, ClearedRegion self w v size.toNat →
      (self.mapRegion v getPaddr size f true w).1 ≠ .err .noMemory →
      ((self.mapRegion v getPaddr size f true w).1 = .ok () ↔ Mappable self w v getPaddr size) := by
  have I : Inv (fun e : arch.PTE => isPresent e = true) arch.metaData inUse self.rootPaddr w :=
    hw.inv hH self fun f hf => allowed_read arch.metaData hf
  refine ⟨fun target size => map_alreadyMapped_iff hH self I ?_, fun getPaddr size hclear hmem =>
    mapRegion_unmapped_iff hH self I hf hclear hmem⟩
  exact LawfulPTE.read_accepted arch.metaData hf

/-- A new table of x86_64 in which a 4K page has been mapped and unmapped. -/
def leftoverWorld : World X64PTE ℕ :=
  Call.next (firstTable ⟨true, true⟩ X64PagingMetaData X64PTE 8)
    (Call.next (firstTable ⟨true, true⟩ X64PagingMetaData X64PTE 8) (firstWorld X64PTE)
      (.map 0x200000 0x5000 .size4K .READ)) (.unmap 0x200000)

theorem leftoverWorld_reachable :
    Reachable Readable (firstTable ⟨true, true⟩ X64PagingMetaData X64PTE 8) leftoverWorld :=
  .call (.call (.new (tryNew_blankWorld 7)) _ (by decide)) _ trivial

/-- In that table nothing is mapped. -/
theorem leftoverWorld_unmapped (v : VirtAddr) :
    ¬ Mapped (firstTable ⟨true, true⟩ X64PagingMetaData X64PTE 8) leftoverWorld v := by
  have hH : FreshFrames X64PagingMetaData (bumpHandler 8) bumped :=
    freshFrames_bumpHandler (by decide) (by decide)
  have inv : ∀ {w}, Reachable Readable (firstTable ⟨true, true⟩ X64PagingMetaData X64PTE 8) w →
      Inv (fun e : X64PTE => isPresent e = true) X64PagingMetaData bumped 0x1000 w :=
    fun hw => hw.inv hH _ fun f hf => allowed_read X64PagingMetaData hf
  have hnew : Reachable Readable (firstTable ⟨true, true⟩ X64PagingMetaData X64PTE 8)
      (firstWorld X64PTE) := .new (tryNew_blankWorld 7)
  have htryNew : PageTable64.tryNew ⟨true, true⟩ X64PagingMetaData X64PTE (bumpHandler 8)
      (blankWorld X64PTE) =
        (.ok (firstTable ⟨true, true⟩ X64PagingMetaData X64PTE 8), firstWorld X64PTE) :=
    tryNew_blankWorld 7
  have hbefore := tryNew_leafAt _ htryNew v
  rw [mapped_iff _ (inv leftoverWorld_reachable)]
  -- `unmap` removes the only leaf, that of the page mapped before
  obtain ⟨⟨err, herr⟩, -⟩ | ⟨-, -, hmap⟩ := map_leaf
    (firstTable ⟨true, true⟩ X64PagingMetaData X64PTE 8) (inv hnew) hH 0x5000 .size4K
    (f := MappingFlags.READ) rfl 0x200000
  · have hok : ((firstTable ⟨true, true⟩ X64PagingMetaData X64PTE 8).map 0x200000 0x5000 .size4K
        .READ (firstWorld X64PTE)).1 = .ok () := by decide +kernel
    exact absurd (hok.symm.trans herr) (by simp)
  · have hpresent : presentWith X64PTE .READ = true := by decide
    rw [hpresent, if_pos rfl] at hmap
    have hw : Reachable Readable (firstTable ⟨true, true⟩ X64PagingMetaData X64PTE 8)
        (Call.next (firstTable ⟨true, true⟩ X64PagingMetaData X64PTE 8) (firstWorld X64PTE)
          (.map 0x200000 0x5000 .size4K .READ)) := .call hnew _ (by decide)
    obtain ⟨-, hunmap⟩ := unmap_leaf (firstTable ⟨true, true⟩ X64PagingMetaData X64PTE 8) (inv hw)
      ((hmap 0x200000).trans (if_pos (.refl _ _)))
    intro hc
    refine hc ((hunmap v).trans ?_)
    by_cases hs : SamePage X64PagingMetaData PageSize.size4K.height 0x200000 v
    · rw [if_pos hs]
    · rw [if_neg hs]
      exact (hmap v).trans ((if_neg hs).trans hbefore)

theorem Arch.alreadyMapped_iff_no_leftover_run :
    ((((firstTable ⟨true, true⟩ X64PagingMetaData X64PTE 8).map 0x200000 0x40000000 .size2M .READ
        leftoverWorld).1 = .err .alreadyMapped →
        ∃ v' : VirtAddr, v'.toNat / PageSize.size2M.bytes =
          (0x200000 : VirtAddr).toNat / PageSize.size2M.bytes ∧
          Mapped (firstTable ⟨true, true⟩ X64PagingMetaData X64PTE 8) leftoverWorld v') ↔
      ¬ Leftover (firstTable ⟨true, true⟩ X64PagingMetaData X64PTE 8) leftoverWorld .size2M
        0x200000) ∧
    (((firstTable ⟨true, true⟩ X64PagingMetaData X64PTE 8).mapRegion 0x200000 (fun v => v) 0x3000
        .READ true leftoverWorld).1 = .ok () ↔
      Mappable (firstTable ⟨true, true⟩ X64PagingMetaData X64PTE 8) leftoverWorld 0x200000
        (fun v => v) 0x3000) :=
  have h := Arch.alreadyMapped_iff_no_leftover .x64
    (freshFrames_bumpHandler (by decide) (by decide)) leftoverWorld_reachable 0x200000
    (by decide)
  ⟨h.1 0x40000000 .size2M, h.2 (fun v => v) 0x3000 (fun v' _ => leftoverWorld_unmapped v')
    (by decide +kernel)⟩

/-- There mapping a page of 2M fails. -/
theorem map_over_leftover :
    Reachable Readable (firstTable ⟨true, true⟩ X64PagingMetaData X64PTE 8) leftoverWorld ∧
      ((firstTable ⟨true, true⟩ X64PagingMetaData X64PTE 8).map 0x200000 0x40000000 .size2M .READ
        leftoverWorld).1 = .err .alreadyMapped ∧
      ∀ v', ¬ Mapped (firstTable ⟨true, true⟩ X64PagingMetaData X64PTE 8) leftoverWorld v' :=
  ⟨leftoverWorld_reachable, by decide +kernel, leftoverWorld_unmapped⟩

end PageTableMultiarch
