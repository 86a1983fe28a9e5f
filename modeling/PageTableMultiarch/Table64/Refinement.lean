/-
`PageTable64` refines a map from disjoint pages to frames and flags.

`PageSpace` is the purpose of a page table: a partial map from pages of the address
space, taken modulo `2 ^ (12 + 9 * LEVELS)`, to a frame and flags.  `SpecStep` says
what `map`, `protect` and `unmap` may do to it and answer.

* `simulates` — one call is matched by one step of the specification;
* `run_refines` — a run is matched by a run of the specification, and `query` answers
  as the map does;
* `Arch.refines_pageSpace` — the same for every architecture.
-/
import PageTableMultiarch.Table64.Run
import PageTableMultiarch.Lib.PageMap
import PageTableMultiarch.Entry.Arch

namespace PageTableMultiarch

open GenericPTE Radix

variable {B : Build} {M : PagingMetaData} {PTE σ : Type} {H : PagingHandler 64 σ}

/-! ### The specification -/

/-- What a page is mapped to. -/
@[ext] structure Mapping where
  frame : PhysAddr
  flags : MappingFlags 64

/-- The abstract address space. -/
abbrev PageSpace := PageMap PageSize.bytes Mapping

/-- The page of a size that covers an address. -/
def pageAt (M : PagingMetaData) (size : PageSize) (v : VirtAddr) : Page PageSize :=
  Page.containing PageSize.bytes size (v.toNat % M.space)

/-- The mapping of an address. -/
noncomputable def PageSpace.find (S : PageSpace) (M : PagingMetaData) (v : VirtAddr) :
    Option (Page PageSize × Mapping) :=
  S.lookup (v.toNat % M.space)

/-- What `query` answers. -/
noncomputable def PageSpace.query (S : PageSpace) (M : PagingMetaData) (v : VirtAddr) :
    Res (PhysAddr × MappingFlags 64 × PageSize) :=
  match S.find M v with
  | some (page, x) => .ok (x.frame + page.size.alignOffset v, x.flags, page.size)
  | none => .err .notMapped

/-- The calls of the specification. -/
inductive SpecCall where
  | map (vaddr : VirtAddr) (target : PhysAddr) (pageSize : PageSize) (f : MappingFlags 64)
  | protect (vaddr : VirtAddr) (f : MappingFlags 64)
  | unmap (vaddr : VirtAddr)

/-- The value of a successful call. -/
inductive Answer where
  | unit
  | size (size : PageSize)
  | page (frame : PhysAddr) (f : MappingFlags 64) (size : PageSize)

/-- The steps of the specification; `norm` normalises flags. -/
inductive SpecStep (M : PagingMetaData) (norm : MappingFlags 64 → MappingFlags 64)
    (S : PageSpace) : SpecCall → Res Answer → PageSpace → Prop
  | map {v : VirtAddr} {target : PhysAddr} {size : PageSize} {f : MappingFlags 64}
    (h : S.Free (pageAt M size v)) :
    SpecStep M norm S (.map v target size f) (.ok .unit)
      (S.insert (pageAt M size v)
        ⟨MemoryAddr.alignDown target (size.toUsize 64), norm f⟩ h)
  | mapErr {v : VirtAddr} {target : PhysAddr} {size : PageSize} {f : MappingFlags 64}
    (e : PagingError) : SpecStep M norm S (.map v target size f) (.err e) S
  | protect {v : VirtAddr} {f : MappingFlags 64} {page : Page PageSize} {x : Mapping}
    (h : S.find M v = some (page, x)) (hpage : S.get page ≠ none) :
    SpecStep M norm S (.protect v f) (.ok (.size page.size))
      (S.replace page ⟨x.frame, norm f⟩ hpage)
  | protectErr {v : VirtAddr} {f : MappingFlags 64} (h : S.find M v = none) :
    SpecStep M norm S (.protect v f) (.err .notMapped) S
  | unmap {v : VirtAddr} {page : Page PageSize} {x : Mapping}
    (h : S.find M v = some (page, x)) :
    SpecStep M norm S (.unmap v) (.ok (.page x.frame x.flags page.size)) (S.erase page)
  | unmapErr {v : VirtAddr} (h : S.find M v = none) :
    SpecStep M norm S (.unmap v) (.err .notMapped) S

/-- The runs of the specification, with the calls and their results. -/
inductive SpecRun (M : PagingMetaData) (norm : MappingFlags 64 → MappingFlags 64) :
    PageSpace → List SpecCall → List (Res Answer) → PageSpace → Prop
  | nil (S : PageSpace) : SpecRun M norm S [] [] S
  | cons {S S' S'' : PageSpace} {c : SpecCall} {r : Res Answer} {cs : List SpecCall}
    {rs : List (Res Answer)} (h : SpecStep M norm S c r S') (hs : SpecRun M norm S' cs rs S'') :
    SpecRun M norm S (c :: cs) (r :: rs) S''

/-! ### The runs of the code -/

section Exec

variable [GenericPTE 64 PTE]

/-- A call of the specification, executed by the code. -/
def SpecCall.exec (self : PageTable64 B M PTE H) : SpecCall → Op (World PTE σ) Answer
  | .map v target size f => do
    self.map v target size f
    return .unit
  | .protect v f => do
    let size ← self.protect v f
    return .size size
  | .unmap v => do
    let (frame, f, size) ← self.unmap v
    return .page frame f size

/-- The results and the last state of a list of calls. -/
def runCalls (self : PageTable64 B M PTE H) :
    List SpecCall → World PTE σ → List (Res Answer) × World PTE σ
  | [], w => ([], w)
  | c :: cs, w =>
    let (r, w') := c.exec self w
    let (rs, w'') := runCalls self cs w'
    (r :: rs, w'')

end Exec

/-- The calls the refinement is about: flags with `READ`, page sizes 4K, 2M and 1G, and
physical targets in range. -/
def SpecCall.Valid (M : PagingMetaData) : SpecCall → Prop
  | .map _ target size f =>
    target.toNat ≤ M.PA_MAX_ADDR ∧ size ≠ .size1M ∧ f.contains .READ = true
  | .protect _ f => f.contains .READ = true
  | .unmap _ => True

instance (M : PagingMetaData) : DecidablePred (SpecCall.Valid M)
  | .map _ _ _ _ => inferInstanceAs (Decidable (_ ∧ _ ∧ _))
  | .protect _ _ => inferInstanceAs (Decidable (_ = _))
  | .unmap _ => inferInstanceAs (Decidable True)

/-! ### The simulation -/

section Simulation

variable [GenericPTE 64 PTE] [LawfulPTE M PTE]

omit [LawfulPTE M PTE] [GenericPTE 64 PTE] in
/-- The page of an address covers the addresses of the same page. -/
theorem covers_pageAt (hL : M.LEVELS = 3 ∨ M.LEVELS = 4) {k : ℕ} (hk : k ≤ 2)
    (v v' : VirtAddr) :
    (pageAt M (heightSize k) v).Covers PageSize.bytes (v'.toNat % M.space) ↔
      SamePage M k v v' := by
  rw [samePage_iff hL hk, ← bytes_heightSize hk]
  exact eq_comm

/-- What a leaf says about an address. -/
def leafMapping (M : PagingMetaData) (v : VirtAddr) (leaf : PTE × ℕ) : Page PageSize × Mapping :=
  (pageAt M (heightSize leaf.2) v, ⟨paddr leaf.1, flags leaf.1⟩)

/-- The abstract map says at every address what the leaf of the address says. -/
def Refines (self : PageTable64 B M PTE H) (w : World PTE σ) (S : PageSpace) : Prop :=
  ∀ v, S.find M v = (leafAt M w.mem self.rootPaddr v).map (leafMapping M v)

variable {self : PageTable64 B M PTE H} {w : World PTE σ} {S : PageSpace}

omit [LawfulPTE M PTE] in
theorem Refines.find_none (R : Refines self w S) (v : VirtAddr) :
    leafAt M w.mem self.rootPaddr v = none ↔ S.find M v = none := by
  rw [R v, Option.map_eq_none_iff]

/-- An update of one page is matched by a change of the leaves of that page. -/
theorem Refines.update {w' : World PTE σ} {S' : PageSpace} (R : Refines self w S) {k : ℕ}
    (hk : k ≤ 2) {v : VirtAddr} {new : Option (PTE × ℕ)} {x : Option (Page PageSize × Mapping)}
    (hnew : ∀ v', SamePage M k v v' → new.map (leafMapping M v') = x)
    (hleaf : ∀ v', leafAt M w'.mem self.rootPaddr v' =
      if SamePage M k v v' then new else leafAt M w.mem self.rootPaddr v')
    (hS : ∀ a, S'.lookup a = if (pageAt M (heightSize k) v).Covers PageSize.bytes a then x
      else S.lookup a) : Refines self w' S' := by
  intro v'
  have hL := LawfulPTE.levels (M := M) PTE
  rw [PageSpace.find, hS, hleaf]
  by_cases hs : SamePage M k v v'
  · rw [if_pos ((covers_pageAt hL hk v v').mpr hs), if_pos hs, hnew v' hs]
  · rw [if_neg fun hc => hs ((covers_pageAt hL hk v v').mp hc), if_neg hs]
    exact R v'

omit [LawfulPTE M PTE] [GenericPTE 64 PTE] in
/-- The page of an address is the page of every address it covers. -/
theorem pageAt_samePage (hL : M.LEVELS = 3 ∨ M.LEVELS = 4) {k : ℕ} (hk : k ≤ 2)
    {v v' : VirtAddr} (h : SamePage M k v v') :
    pageAt M (heightSize k) v' = pageAt M (heightSize k) v :=
  (Page.eq_containing_of_covers _ ((covers_pageAt hL hk v v').mpr h)).symm

omit [LawfulPTE M PTE] [GenericPTE 64 PTE] in
/-- A page covers only numbers that are addresses. -/
theorem exists_addr_of_covers (hL : M.LEVELS = 3 ∨ M.LEVELS = 4) {size : PageSize}
    {v : VirtAddr} {a : ℕ} (h : (pageAt M size v).Covers PageSize.bytes a) :
    ∃ v' : VirtAddr, v'.toNat % M.space = a := by
  have hspace : M.space = 2 ^ 39 ∨ M.space = 2 ^ 48 :=
    hL.imp (fun h => by rw [PagingMetaData.space, h]) fun h => by rw [PagingMetaData.space, h]
  have hcov : a / size.bytes = v.toNat % M.space / size.bytes := h
  have hmod : v.toNat % M.space < M.space := Nat.mod_lt _ (by omega)
  generalize v.toNat % M.space = b at hcov hmod
  have hlt : a < M.space := by
    cases size <;> simp only [PageSize.bytes] at hcov <;> omega
  refine ⟨BitVec.ofNat 64 a, ?_⟩
  rw [BitVec.toNat_ofNat, Nat.mod_eq_of_lt (show a < 2 ^ 64 by omega), Nat.mod_eq_of_lt hlt]

omit [LawfulPTE M PTE] in
/-- The page found at an address of a leaf. -/
theorem Refines.find_some (R : Refines self w S) {v : VirtAddr} {e : PTE} {k : ℕ}
    (h : leafAt M w.mem self.rootPaddr v = some (e, k)) :
    S.find M v = some (pageAt M (heightSize k) v, ⟨paddr e, flags e⟩) := by
  rw [R v, h]
  rfl

section Calls

variable {inUse : σ → Set PhysAddr} {P : PTE → Prop} (I : Inv P M inUse self.rootPaddr w)
  (R : Refines self w S)
include I R

theorem map_simulates (hH : FreshFrames M H inUse) (v : VirtAddr) {target : PhysAddr}
    (ht : target.toNat ≤ M.PA_MAX_ADDR) {size : PageSize} (hsize : size ≠ .size1M)
    {f : MappingFlags 64} (hf : f.contains .READ = true) :
    ∃ S', SpecStep M (normalise PTE) S (.map v target size f)
        ((SpecCall.map v target size f).exec self w).1 S' ∧
      Refines self ((SpecCall.map v target size f).exec self w).2 S' := by
  have hL := LawfulPTE.levels (M := M) PTE
  have hacc : debugAssert PTE f = true := LawfulPTE.read_accepted M hf
  have hexec : (SpecCall.map v target size f).exec self w =
      (match (self.map v target size f w).1 with
        | .ok _ => .ok .unit
        | .err e => .err e
        | .panic => .panic, (self.map v target size f w).2) := by
    rw [SpecCall.exec, Op.bind_apply]
    rcases self.map v target size f w with ⟨_ | _ | _, _⟩ <;> rfl
  rw [hexec]
  rcases map_leaf self I hH target size hacc v with
    ⟨⟨err, herr⟩, hleaf⟩ | ⟨hok, hfree, hleaf⟩
  · rw [herr]
    exact ⟨S, .mapErr err, fun v' => by rw [hleaf]; exact R v'⟩
  · rw [hok]
    have hpage : pageAt M (heightSize size.height) v = pageAt M size v := by
      rw [heightSize_height hsize]
    -- no address of the page had a leaf, so the page is free in the map
    have hS : S.Free (pageAt M size v) := by
      intro a ha
      obtain ⟨v', rfl⟩ := exists_addr_of_covers hL ha
      exact (R.find_none v').mp
        (hfree v' ((covers_pageAt hL size.height_le v v').mp (by rwa [hpage])))
    refine ⟨_, .map hS, R.update (x := some (pageAt M size v,
      ⟨MemoryAddr.alignDown target (size.toUsize 64), normalise PTE f⟩))
      size.height_le (fun v' hs => ?_) hleaf fun a => ?_⟩
    · rw [if_pos (LawfulPTE.presentWith_read M hf), Option.map_some, leafMapping,
        pageAt_samePage hL size.height_le hs, hpage, paddr_alignDown ht,
        LawfulPTE.flags_newPage M]
    · rw [hpage]
      exact PageMap.lookup_insert S _ _ hS a

theorem protect_simulates (v : VirtAddr) {f : MappingFlags 64} (hf : f.contains .READ = true) :
    ∃ S', SpecStep M (normalise PTE) S (.protect v f)
        ((SpecCall.protect v f).exec self w).1 S' ∧
      Refines self ((SpecCall.protect v f).exec self w).2 S' := by
  have hL := LawfulPTE.levels (M := M) PTE
  have hacc : debugAssert PTE f = true := LawfulPTE.read_accepted M hf
  have hexec : (SpecCall.protect v f).exec self w =
      (match (self.protect v f w).1 with
        | .ok size => .ok (.size size)
        | .err e => .err e
        | .panic => .panic, (self.protect v f w).2) := by
    rw [SpecCall.exec, Op.bind_apply]
    rcases self.protect v f w with ⟨_ | _ | _, _⟩ <;> rfl
  rw [hexec]
  rcases hl : leafAt M w.mem self.rootPaddr v with _ | ⟨e, k⟩
  · obtain ⟨hres, hmem⟩ := protect_no_leaf self I hacc hl
    rw [hres]
    exact ⟨S, .protectErr ((R.find_none v).mp hl), fun v' => by rw [hmem]; exact R v'⟩
  · -- the page that is found keeps its place and gets the flags
    obtain ⟨hres, hleaf⟩ := protect_leaf self I hacc hl
    have hk := leafAt_height_le hl
    have hfind := R.find_some hl
    have hget : S.get (pageAt M (heightSize k) v) ≠ none := by
      rw [(PageMap.lookup_eq_some.mp hfind).1]
      simp
    rw [hres]
    refine ⟨_, .protect hfind hget, R.update hk (fun v' hs => ?_) hleaf
      (PageMap.lookup_replace S _ _ hget)⟩
    rw [if_pos (LawfulPTE.presentWith_read M hf), Option.map_some, leafMapping,
      pageAt_samePage hL hk hs, LawfulPTE.paddr_setFlags M, LawfulPTE.flags_setFlags M]

theorem unmap_simulates (v : VirtAddr) :
    ∃ S', SpecStep M (normalise PTE) S (.unmap v) ((SpecCall.unmap v).exec self w).1 S' ∧
      Refines self ((SpecCall.unmap v).exec self w).2 S' := by
  have hexec : (SpecCall.unmap v).exec self w =
      (match (self.unmap v w).1 with
        | .ok (frame, f, size) => .ok (.page frame f size)
        | .err e => .err e
        | .panic => .panic, (self.unmap v w).2) := by
    rw [SpecCall.exec, Op.bind_apply]
    rcases self.unmap v w with ⟨_ | _ | _, _⟩ <;> rfl
  rw [hexec]
  rcases hl : leafAt M w.mem self.rootPaddr v with _ | ⟨e, k⟩
  · obtain ⟨hres, hleaf⟩ := unmap_no_leaf self I hl
    rw [hres]
    exact ⟨S, .unmapErr ((R.find_none v).mp hl), fun v' => by rw [hleaf]; exact R v'⟩
  · obtain ⟨hres, hleaf⟩ := unmap_leaf self I hl
    have hfind := R.find_some hl
    have hget : S.get (pageAt M (heightSize k) v) ≠ none := by
      rw [(PageMap.lookup_eq_some.mp hfind).1]
      simp
    rw [hres]
    exact ⟨_, .unmap hfind, R.update (leafAt_height_le hl) (fun _ _ => rfl) hleaf
      (PageMap.lookup_erase hget)⟩

/-- Every call of the code is a step of the specification. -/
theorem simulates (hH : FreshFrames M H inUse) (c : SpecCall) (hc : c.Valid M) :
    ∃ S', SpecStep M (normalise PTE) S c (c.exec self w).1 S' ∧
      Refines self (c.exec self w).2 S' := by
  cases c with
  | map v target size f => exact map_simulates I R hH v hc.1 hc.2.1 hc.2.2
  | protect v f => exact protect_simulates I R v hc
  | unmap v => exact unmap_simulates I R v

/-- `query` answers as the abstract map does. -/
theorem query_refines (v : VirtAddr) : (self.query v w).1 = S.query M v := by
  rw [query_leaf self I, PageSpace.query, R v]
  rcases leafAt M w.mem self.rootPaddr v with _ | ⟨e, k⟩ <;> rfl

end Calls

/-! ### Runs -/

/-- The call of the code behind a call of the specification. -/
def SpecCall.toCall : SpecCall → Call
  | .map v target size f => .map v target size f
  | .protect v f => .protect v f
  | .unmap v => .unmap v

omit [LawfulPTE M PTE] in
theorem SpecCall.exec_snd (c : SpecCall) : (c.exec self w).2 = c.toCall.next self w := by
  cases c with
  | map v target size f =>
    simp only [exec, toCall, Call.next, Op.bind_apply]
    rcases self.map v target size f w with ⟨_ | _ | _, _⟩ <;> rfl
  | protect v f =>
    simp only [exec, toCall, Call.next, Op.bind_apply]
    rcases self.protect v f w with ⟨_ | _ | _, _⟩ <;> rfl
  | unmap v =>
    simp only [exec, toCall, Call.next, Op.bind_apply]
    rcases self.unmap v w with ⟨_ | _ | _, _⟩ <;> rfl

theorem SpecCall.Valid.flagsIn {c : SpecCall} (hc : c.Valid M) :
    c.toCall.FlagsIn (Allowed fun e : PTE => isPresent e = true) := by
  cases c with
  | map v target size f => exact allowed_read M hc.2.2
  | protect v f => exact allowed_read M hc
  | unmap v => trivial

/-- From related states a run of the code is a run of the specification. -/
theorem run_simulates {inUse : σ → Set PhysAddr} (hH : FreshFrames M H inUse)
    (cs : List SpecCall) (hcs : ∀ c ∈ cs, c.Valid M)
    (I : Inv (fun e : PTE => isPresent e = true) M inUse self.rootPaddr w)
    (R : Refines self w S) :
    ∃ S', SpecRun M (normalise PTE) S cs (runCalls self cs w).1 S' ∧
      Inv (fun e : PTE => isPresent e = true) M inUse self.rootPaddr (runCalls self cs w).2 ∧
      Refines self (runCalls self cs w).2 S' := by
  induction cs generalizing w S with
  | nil => exact ⟨S, .nil S, I, R⟩
  | cons c cs ih =>
    have hc := hcs c List.mem_cons_self
    obtain ⟨S₁, hstep, R₁⟩ := simulates I R hH c hc
    have I₁ : Inv (fun e : PTE => isPresent e = true) M inUse self.rootPaddr
        (c.exec self w).2 := by
      rw [SpecCall.exec_snd]
      exact Call.inv hH self I c.toCall hc.flagsIn
    obtain ⟨S₂, hrun, I₂, R₂⟩ := ih (fun d hd => hcs d (List.mem_cons_of_mem _ hd)) I₁ R₁
    exact ⟨S₂, .cons hstep hrun, I₂, R₂⟩

end Simulation

/-- Every run of the code from a new table is a run of the specification from the empty
map, with the same results, and `query` answers as the map does. -/
theorem Arch.refines_pageSpace (arch : Arch) {H : PagingHandler 64 σ}
    {inUse : σ → Set PhysAddr} (hH : FreshFrames arch.metaData H inUse)
    {self : PageTable64 B arch.metaData arch.PTE H} {w₀ w : World arch.PTE σ}
    (hnew : PageTable64.tryNew B arch.metaData arch.PTE H w₀ = (.ok self, w))
    (cs : List SpecCall) (hcs : ∀ c ∈ cs, c.Valid arch.metaData) :
    ∃ S, SpecRun arch.metaData (normalise arch.PTE) .empty cs (runCalls self cs w).1 S ∧
      ∀ v, (self.query v (runCalls self cs w).2).1 = S.query arch.metaData v := by
  have hR : Refines self w .empty := by
    intro v
    rw [tryNew_leafAt _ hnew v]
    exact PageMap.lookup_empty _
  obtain ⟨S, hrun, I, R⟩ := run_simulates hH cs hcs (tryNew_inv hH self hnew) hR
  exact ⟨S, hrun, fun v => query_refines I R v⟩

/-- A run with a huge page and an allocator that fails at its third call. -/
theorem Arch.refines_pageSpace_run :
    ∃ S, SpecRun X64PagingMetaData (normalise X64PTE) .empty
        [.map 0x200000 0x40200000 .size2M .READ, .map 0x1000 0x5000 .size4K .READ,
          .protect 0x200fff ⟨3⟩, .unmap 0x200000]
        (runCalls (firstTable ⟨true, true⟩ X64PagingMetaData X64PTE 3)
          [.map 0x200000 0x40200000 .size2M .READ, .map 0x1000 0x5000 .size4K .READ,
            .protect 0x200fff ⟨3⟩, .unmap 0x200000] (firstWorld X64PTE)).1 S ∧
      ∀ v, ((firstTable ⟨true, true⟩ X64PagingMetaData X64PTE 3).query v
        (runCalls (firstTable ⟨true, true⟩ X64PagingMetaData X64PTE 3)
          [.map 0x200000 0x40200000 .size2M .READ, .map 0x1000 0x5000 .size4K .READ,
            .protect 0x200fff ⟨3⟩, .unmap 0x200000] (firstWorld X64PTE)).2).1 =
        S.query X64PagingMetaData v :=
  Arch.refines_pageSpace .x64 (freshFrames_bumpHandler (by decide) (by decide))
    (tryNew_blankWorld 2) _ (by decide)

end PageTableMultiarch
