/-
Regions of an address space, and of the page table that holds it.

* `Space.unmapLoop_undoes` — what `map_region` has mapped, `unmap_region` removes, whatever is
  mapped there by then;
* `unmapRegion_undoes` — so it is for the page table, if what happens in between unmaps nothing,
  and all calls are plain.
-/
import PageTableMultiarch.Table32.Refinement

namespace PageTableMultiarch.Bits32

open GenericPTE

variable {B : Build} {M : PagingMetaData} {σ : Type} {H : PagingHandler 32 σ}
  {inUse : σ → Set ℕ} {w : World A32PTE σ} {s s' s₁ t : Space σ} {v : VirtAddr}

/-- The address lies in the region of `size` bytes from `v`. -/
def InRegion (v : VirtAddr) (size : Usize) (v' : VirtAddr) : Prop := (v' - v).toNat < size.toNat

instance (v : VirtAddr) (size : Usize) (v' : VirtAddr) : Decidable (InRegion v size v') :=
  inferInstanceAs (Decidable (_ < _))

/-- A region is made of its first page and the rest. -/
theorem inRegion_split {ps : PageSize} (hps : KnownSize ps) {size : Usize}
    (hv : v.toNat % ps.bytes = 0) (hle : ps.bytes ≤ size.toNat) (v' : VirtAddr) :
    InRegion v size v' ↔ SamePage ps v v' ∨
      InRegion (v + ps.toUsize 32) (size - ps.toUsize 32) v' := by
  have hbytes := PageSize.toNat_toUsize (w := 32) le_rfl ps
  have hv₁ := v.isLt
  have hv₂ := v'.isLt
  have hsize := size.isLt
  rw [InRegion, InRegion, SamePage, BitVec.toNat_sub, BitVec.toNat_sub, BitVec.toNat_sub,
    BitVec.toNat_add, hbytes]
  obtain rfl | rfl := hps <;> simp only [PageSize.bytes] at hv hle ⊢ <;> omega

/-- The page of a round fits into the rest of the region. -/
theorem regionPageSize_fits {size : Usize} (hv : PageSize.size4K.isAligned v = true)
    (hsize : PageSize.size4K.isAligned size = true) (hne : size ≠ 0) (paddr : PhysAddr)
    (allowHuge : Bool) :
    let ps := PageTable32.regionPageSize v paddr size allowHuge
    KnownSize ps ∧ ps.isAligned v = true ∧ ps.toUsize 32 ≤ size := by
  have hpos : size.toNat ≠ 0 := fun h => hne (BitVec.eq_of_toNat_eq h)
  rw [PageTable32.regionPageSize]
  split
  · next h =>
    rw [Bool.and_eq_true, Bool.and_eq_true, Bool.and_eq_true, decide_eq_true_iff] at h
    exact ⟨Or.inr rfl, h.1.1.2, h.2⟩
  · refine ⟨Or.inl rfl, hv, ?_⟩
    rw [PageSize.isAligned_iff le_rfl, PageSize.bytes] at hsize
    rw [BitVec.le_def, PageSize.toNat_toUsize le_rfl, PageSize.bytes]
    omega

/-- What is left of an aligned region is aligned. -/
theorem isAligned_add {ps : PageSize} (hps : KnownSize ps) {a : BitVec 32}
    (ha : PageSize.size4K.isAligned a = true) :
    PageSize.size4K.isAligned (a + ps.toUsize 32) = true ∧
      PageSize.size4K.isAligned (a - ps.toUsize 32) = true := by
  rw [PageSize.isAligned_iff le_rfl, PageSize.bytes] at ha
  have hbytes := PageSize.toNat_toUsize (w := 32) le_rfl ps
  have hlt := a.isLt
  rw [PageSize.isAligned_iff le_rfl, PageSize.isAligned_iff le_rfl, BitVec.toNat_add,
    BitVec.toNat_sub, hbytes]
  obtain rfl | rfl := hps <;> simp only [PageSize.bytes] <;> omega

/-! ### Rounds -/

namespace Space

/-- No page is unmapped. -/
def Mapped (s s' : Space σ) : Prop :=
  ∀ page, s.pages.get page ≠ none → s'.pages.get page ≠ none

theorem reserve_pages (v : VirtAddr) (size : PageSize) (s : Space σ) :
    (reserve H v size s).2.pages = s.pages := by
  rw [reserve]
  split
  · split <;> rfl
  · split
    · rfl
    · split
      · rfl
      · rcases H.allocFrame s.os with ⟨_ | p, os⟩ <;> rfl

/-- What a successful `map` has done. -/
theorem map_ok {target : PhysAddr} {size : PageSize} {f : MappingFlags 32}
    (h : map H v target size f s = (.ok (), s')) : s.pages.Free (pageAt size v) ∧
      s'.pages = s.pages.assign (pageAt size v)
        ⟨MemoryAddr.alignDown target (size.toUsize 32), f⟩ := by
  have hpages := reserve_pages (H := H) v size s
  rw [map, Op.bind_apply] at h
  rcases hr : reserve H v size s with ⟨_ | e | _, s₂⟩
  · rw [hr] at h hpages
    dsimp only at h hpages
    rw [add, hpages] at h
    split at h
    · next hfree =>
      obtain ⟨-, rfl⟩ := Prod.mk.inj h
      exact ⟨hfree, by rw [assign, hpages]⟩
    · cases h
  · rw [hr] at h
    cases h
  · rw [hr] at h
    cases h

theorem map_mapped (v : VirtAddr) (target : PhysAddr) (size : PageSize) (f : MappingFlags 32)
    (s : Space σ) : Mapped s (map H v target size f s).2 := by
  intro page hpage
  have hpages := reserve_pages (H := H) v size s
  rw [map, Op.bind_apply]
  rcases hr : reserve H v size s with ⟨_ | e | _, s₂⟩
  · rw [hr] at hpages
    dsimp only at hpages ⊢
    rw [← hpages] at hpage
    rw [add]
    split
    · exact PageMap.assign_get_ne_none hpage _
    · exact hpage
  · rw [hr] at hpages
    rwa [← hpages] at hpage
  · rw [hr] at hpages
    rwa [← hpages] at hpage

theorem mapRegionStep_snd (getPaddr : VirtAddr → PhysAddr) (f : MappingFlags 32)
    (allowHuge : Bool) (v : VirtAddr) (size : Usize) (s : Space σ) :
    (mapRegionStep H getPaddr f allowHuge v size s).2 = (map H v (getPaddr v)
      (PageTable32.regionPageSize v (getPaddr v) size allowHuge) f s).2 := by
  rw [mapRegionStep, Op.bind_apply]
  rcases map H v (getPaddr v) (PageTable32.regionPageSize v (getPaddr v) size allowHuge) f s
    with ⟨_ | e | _, s₂⟩ <;> rfl

theorem mapRegionStep_ok {getPaddr : VirtAddr → PhysAddr} {f : MappingFlags 32} {allowHuge : Bool}
    {size : Usize} {ps : PageSize}
    (h : mapRegionStep H getPaddr f allowHuge v size s = (.ok ps, s')) :
    ps = PageTable32.regionPageSize v (getPaddr v) size allowHuge ∧
      map H v (getPaddr v) ps f s = (.ok (), s') := by
  rw [mapRegionStep, Op.bind_apply] at h
  rcases hr : map H v (getPaddr v) (PageTable32.regionPageSize v (getPaddr v) size allowHuge) f s
    with ⟨_ | e | _, s₂⟩
  · rw [hr] at h
    obtain ⟨hps, rfl⟩ := Prod.mk.inj h
    obtain rfl := Res.ok.inj hps
    exact ⟨rfl, hr⟩
  · rw [hr] at h
    cases h
  · rw [hr] at h
    cases h

theorem mapLoop_mapped (getPaddr : VirtAddr → PhysAddr) (f : MappingFlags 32) (allowHuge : Bool)
    (fuel : ℕ) (v : VirtAddr) (size : Usize) (s : Space σ) :
    Mapped s (regionLoop B (mapRegionStep H getPaddr f allowHuge) fuel v size s).2 := by
  refine regionLoop_rel (J := fun _ => True) (fun _ _ h => h)
    (fun h h' page hpage => h' page (h page hpage)) (fun v size s _ => ⟨?_, trivial⟩) fuel v size
    trivial
  rw [mapRegionStep_snd]
  exact map_mapped v (getPaddr v) _ f s

/-- The page of a round of `unmap_region`. -/
theorem unmapRegionStep_ok {ps : PageSize} {size : Usize}
    (h : t.pages.get (pageAt ps v) ≠ none) (hv : ps.isAligned v = true)
    (hsize : ps.toUsize 32 ≤ size) :
    unmapRegionStep v size t = (.ok ps, t.erase (pageAt ps v)) := by
  obtain ⟨x, hx⟩ := Option.ne_none_iff_exists'.mp h
  have hfind : t.find v = some (pageAt ps v, x) :=
    PageMap.lookup_eq_some.mpr ⟨hx, covers_pageAt.mpr rfl⟩
  have hunmap : unmap v t = (.ok (paddr (x.entry ps), flags (x.entry ps), ps),
      t.erase (pageAt ps v)) := by
    rw [unmap, hfind]
    rfl
  rw [unmapRegionStep, Op.bind_ok hunmap]
  dsimp only
  rw [assertStep_apply, if_pos ⟨hv, hsize⟩]

/-- What the loop of `map_region` has mapped, that of `unmap_region` removes, and nothing else. -/
theorem unmapLoop_undoes {getPaddr : VirtAddr → PhysAddr} {f : MappingFlags 32} {allowHuge : Bool}
    {fuel : ℕ} {size : Usize} (hv : PageSize.size4K.isAligned v = true)
    (hsize : PageSize.size4K.isAligned size = true)
    (h : regionLoop B (mapRegionStep H getPaddr f allowHuge) fuel v size s = (.ok (), s₁))
    (ht : ∀ page, s.pages.get page = none → s₁.pages.get page ≠ none →
      t.pages.get page ≠ none) :
    ∃ t', regionLoop B unmapRegionStep fuel v size t = (.ok (), t') ∧
      ∀ v', t'.find v' = if InRegion v size v' then none else t.find v' := by
  induction fuel generalizing v size s t with
  | zero =>
    rw [regionLoop] at h
    split at h
    · next h0 =>
      subst h0
      exact ⟨t, rfl, fun v' => (if_neg (Nat.not_lt_zero _)).symm⟩
    · cases h
  | succ fuel ih =>
    by_cases hne : size = 0
    · subst hne
      exact ⟨t, rfl, fun v' => (if_neg (Nat.not_lt_zero _)).symm⟩
    · obtain ⟨rest, ps, s', hrest, hbody, hloop, hother⟩ := regionLoop_ok hne h
      obtain rfl : fuel = rest := Nat.succ.inj hrest
      obtain ⟨hps, hmap⟩ := mapRegionStep_ok hbody
      obtain ⟨hknown, halign, hle⟩ := regionPageSize_fits hv hsize hne (getPaddr v) allowHuge
      rw [← hps] at hknown halign hle
      obtain ⟨hfree, hpages⟩ := map_ok hmap
      have hget := PageMap.assign_get (Or.inr hfree)
        ⟨MemoryAddr.alignDown (getPaddr v) (ps.toUsize 32), f⟩
      rw [← hpages] at hget
      have hmapped := mapLoop_mapped (B := B) (H := H) getPaddr f allowHuge fuel (v + ps.toUsize 32)
        (size - ps.toUsize 32) s'
      rw [hloop] at hmapped
      -- the page of the first round is still there
      have hpage : t.pages.get (pageAt ps v) ≠ none := by
        refine ht _ (PageMap.lookup_eq_none.mp (hfree v.toNat (covers_pageAt.mpr rfl)) _
          (covers_pageAt.mpr rfl)) (hmapped _ ?_)
        rw [hget, Function.update_self]
        simp
      have hround := unmapRegionStep_ok hpage halign hle
      obtain ⟨t', hunmap, hfind⟩ := ih (t := t.erase (pageAt ps v)) (isAligned_add hknown hv).1
        (isAligned_add hknown hsize).2 hloop fun page h0 h1 => by
          by_cases hp : page = pageAt ps v
          · rw [hp, hget, Function.update_self] at h0
            cases h0
          · rw [hget, Function.update_of_ne hp] at h0
            have hkept : (t.erase (pageAt ps v)).pages.get page = t.pages.get page :=
              Function.update_of_ne hp _ _
            rw [hkept]
            exact ht page h0 h1
      refine ⟨t', (hother hround).trans hunmap, fun v' => ?_⟩
      have hsplit := inRegion_split hknown ((PageSize.isAligned_iff le_rfl _ _).mp halign)
        (by rwa [BitVec.le_def, PageSize.toNat_toUsize le_rfl] at hle) v'
      rw [hfind, find_erase hpage]
      simp only [hsplit]
      by_cases hpage' : SamePage ps v v'
      · simp [hpage']
      · simp [hpage']

/-! ### What happens in between -/

theorem assign_mapped (s : Space σ) (page : Page PageSize) (x : Mapping) :
    Mapped s (s.assign page x) := fun _ h => PageMap.assign_get_ne_none h x

theorem remap_mapped (v : VirtAddr) (target : PhysAddr) (f : MappingFlags 32) (s : Space σ) :
    Mapped s (remap v target f s).2 := by
  rw [remap]
  rcases s.find v with _ | ⟨page, x⟩
  · dsimp only
    split
    · exact assign_mapped s _ _
    · exact fun _ h => h
  · exact assign_mapped s _ _

theorem protect_mapped (v : VirtAddr) (f : MappingFlags 32) (s : Space σ) :
    Mapped s (protect v f s).2 := by
  rw [protect]
  rcases s.find v with _ | ⟨page, x⟩
  · exact fun _ h => h
  · exact assign_mapped s _ _

theorem protectRegionStep_mapped (f : MappingFlags 32) (v : VirtAddr) (size : Usize)
    (s : Space σ) : Mapped s (protectRegionStep f v size s).2 := by
  rw [protectRegionStep]
  rcases s.find v with _ | ⟨page, x⟩
  · dsimp only
    rw [assertStep_snd]
    exact fun _ h => h
  · dsimp only
    rw [assertStep_snd]
    exact assign_mapped s _ _

end Space

/-- The call unmaps nothing. -/
def Call.Maps : Call → Prop
  | .unmap _ | .unmapRegion _ _ => False
  | .query _ | .map _ _ _ _ | .remap _ _ _ | .protect _ _ | .mapRegion _ _ _ _ _
  | .protectRegion _ _ _ => True

instance : DecidablePred Call.Maps
  | .unmap _ | .unmapRegion _ _ => inferInstanceAs (Decidable False)
  | .query _ | .map _ _ _ _ | .remap _ _ _ | .protect _ _ | .mapRegion _ _ _ _ _
  | .protectRegion _ _ _ => inferInstanceAs (Decidable True)

theorem bind_pure_snd {S α β : Type} (x : Op S α) (f : α → β) (s : S) :
    ((x >>= fun a => pure (f a)) s).2 = (x s).2 := by
  rw [Op.bind_apply]
  rcases x s with ⟨_ | e | _, s'⟩ <;> rfl

theorem Call.spec_mapped {c : Call} (hc : c.Maps) (s : Space σ) :
    Space.Mapped s (c.spec B H s).2 := by
  have hrel : ∀ {body : VirtAddr → Usize → Op (Space σ) PageSize},
      (∀ v size s, Space.Mapped s (body v size s).2) → ∀ fuel v size,
        Space.Mapped s (regionLoop B body fuel v size s).2 := fun hbody fuel v size =>
    regionLoop_rel (J := fun _ => True) (fun _ _ h => h)
      (fun h h' page hpage => h' page (h page hpage)) (fun v size s _ => ⟨hbody v size s, trivial⟩)
      fuel v size trivial
  cases c with
  | query v =>
    rw [Call.spec, bind_pure_snd, Space.query]
    rcases s.find v with _ | ⟨page, x⟩ <;> exact fun _ h => h
  | map v target size f =>
    rw [Call.spec, bind_pure_snd]
    exact Space.map_mapped v target size f s
  | remap v target f =>
    rw [Call.spec, bind_pure_snd]
    exact Space.remap_mapped v target f s
  | protect v f =>
    rw [Call.spec, bind_pure_snd]
    exact Space.protect_mapped v f s
  | unmap v => exact hc.elim
  | mapRegion v getPaddr size f allowHuge =>
    rw [Call.spec, bind_pure_snd, Space.mapRegion]
    split
    · exact fun _ h => h
    · exact Space.mapLoop_mapped getPaddr f allowHuge _ v size s
  | unmapRegion v size => exact hc.elim
  | protectRegion v size f =>
    rw [Call.spec, bind_pure_snd]
    exact hrel (Space.protectRegionStep_mapped f) _ v size

theorem specAll_mapped {cs : List Call} (hcs : ∀ c ∈ cs, c.Maps) (s : Space σ) :
    Space.Mapped s (runCalls (Call.spec B H) cs s).2 := by
  induction cs generalizing s with
  | nil => exact fun _ h => h
  | cons c cs ih =>
    intro page hpage
    exact ih (fun d hd => hcs d (List.mem_cons_of_mem _ hd)) _ page
      (c.spec_mapped (hcs c List.mem_cons_self) s page hpage)

/-- What `map_region` has mapped, `unmap_region` of the same region removes, and nothing else, if
nothing has been unmapped in between, and all calls have had page sizes 4K or 1M and flags that are
not empty. -/
theorem unmapRegion_undoes (hH : FreshFrames H inUse) {self : PageTable32 B M A32PTE H}
    {w₀ : World A32PTE σ} (h : PageTable32.tryNew B M A32PTE H w₀ = (.ok self, w))
    (cs ds : List Call) (hcs : ∀ c ∈ cs, c.Plain) (hds : ∀ c ∈ ds, c.Plain ∧ c.Maps)
    {v : VirtAddr} {getPaddr : VirtAddr → PhysAddr} {size : Usize} {f : MappingFlags 32}
    {allowHuge : Bool} (hf : f.isEmpty = false) {w₁ w₂ w₃ : World A32PTE σ}
    (h₁ : (runCalls (Call.exec self) cs w).2 = w₁)
    (h₂ : self.mapRegion v getPaddr size f allowHuge w₁ = (.ok (), w₂))
    (h₃ : (runCalls (Call.exec self) ds w₂).2 = w₃) :
    (self.unmapRegion v size w₃).1 = .ok () ∧
      ∀ v', (self.query v' (self.unmapRegion v size w₃).2).1 =
        if InRegion v size v' then .err .notMapped else (self.query v' w₃).1 := by
  have R₁ := (runCalls_agree hH self cs hcs (represents_new hH h)).2
  rw [h₁] at R₁
  generalize (runCalls (Call.spec B H) cs (Space.new w.os)).2 = s₁ at R₁
  -- the region is mapped
  have hmap := mapRegion_agree self R₁ hH v getPaddr size hf allowHuge
  have R₂ := hmap.state
  have hres := hmap.res_eq
  rw [h₂] at R₂ hres
  have hloop : Space.mapRegion B H v getPaddr size f allowHuge s₁ =
      (.ok (), (Space.mapRegion B H v getPaddr size f allowHuge s₁).2) := Prod.ext hres rfl
  generalize (Space.mapRegion B H v getPaddr size f allowHuge s₁).2 = s₂ at R₂ hloop
  have R₃ := (runCalls_agree hH self ds (fun c hc => (hds c hc).1) R₂).2
  rw [h₃] at R₃
  have hmapped := specAll_mapped (B := B) (H := H) (fun c hc => (hds c hc).2) s₂
  generalize (runCalls (Call.spec B H) ds s₂).2 = s₃ at R₃ hmapped
  rw [Space.mapRegion] at hloop
  split at hloop
  · cases hloop
  · next haligned =>
    obtain ⟨hv, hsize⟩ := PageSize.isAligned_of_not haligned
    obtain ⟨s₄, hunmap, hfind⟩ := Space.unmapLoop_undoes (t := s₃) hv hsize hloop
      fun page _ hpage => hmapped page hpage
    have hunmap' : Space.unmapRegion B v size s₃ = (.ok (), s₄) := hunmap
    have hagree := unmapRegion_agree self R₃ v size
    have R₄ := hagree.state
    have hres₄ := hagree.res_eq
    rw [hunmap'] at R₄ hres₄
    refine ⟨hres₄.symm, fun v' => ?_⟩
    rw [← (query_agree self R₄ v').res_eq, ← (query_agree self R₃ v').res_eq, Space.query,
      Space.query]
    dsimp only
    rw [hfind]
    by_cases hin : InRegion v size v'
    · rw [if_pos hin, if_pos hin]
    · rw [if_neg hin, if_neg hin]
      rcases s₃.find v' with _ | ⟨page, x⟩ <;> rfl

/-- A page is mapped, and before it a section and two pages. -/
def regionWorld : World A32PTE ℕ :=
  ((firstTable ⟨true, true⟩ 16).mapRegion 0x100000 (· + 0x40000000) 0x102000 .READ true
    (runCalls (Call.exec (firstTable ⟨true, true⟩ 16)) [.map 0x202000 0x5000 .size4K .READ]
      firstWorld).2).2

/-- One of them is protected. -/
def protectedWorld : World A32PTE ℕ :=
  (runCalls (Call.exec (firstTable ⟨true, true⟩ 16)) [.protect 0x201000 ⟨3⟩] regionWorld).2

theorem unmapRegion_undoes_run :
    ((firstTable ⟨true, true⟩ 16).unmapRegion 0x100000 0x102000 protectedWorld).1 = .ok () ∧
      ∀ v', ((firstTable ⟨true, true⟩ 16).query v'
          ((firstTable ⟨true, true⟩ 16).unmapRegion 0x100000 0x102000 protectedWorld).2).1 =
        if InRegion 0x100000 0x102000 v' then .err .notMapped
        else ((firstTable ⟨true, true⟩ 16).query v' protectedWorld).1 := by
  have hmap : (firstTable ⟨true, true⟩ 16).mapRegion 0x100000 (· + 0x40000000) 0x102000 .READ true
      (runCalls (Call.exec (firstTable ⟨true, true⟩ 16)) [.map 0x202000 0x5000 .size4K .READ]
        firstWorld).2 = (.ok (), regionWorld) := Prod.ext (by decide +kernel) rfl
  exact unmapRegion_undoes (freshFrames_bumpHandler (by decide)) (tryNew_blankWorld 9)
    [.map 0x202000 0x5000 .size4K .READ] [.protect 0x201000 ⟨3⟩] (by decide) (by decide)
    (by decide) rfl hmap rfl

end PageTableMultiarch.Bits32
