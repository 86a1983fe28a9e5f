/-
The 4-level page tables of different architectures.

For `query`, `map`, `protect` and `unmap` with readable or executable pages, the page tree
says what each architecture answers, as long as the pages looked at are there.  On AArch64
only a readable page is.

* `replies_eq` — the replies of a page table are those of the page tree;
* `replies_ne` — on AArch64 they are not, once a page without `READ` is looked at;
* `Arch.same_replies_iff` — so the architectures answer the same exactly when all pages that
  are looked at are readable.
-/
import PageTableMultiarch.Table64.PageTree
import PageTableMultiarch.Entry.Arch

namespace PageTableMultiarch

open GenericPTE Radix

variable {B : Build} {M : PagingMetaData} {PTE σ : Type} {H : PagingHandler 64 σ}

/-! ### Calls and replies -/

/-- A call of `query`, `map`, `protect` or `unmap`. -/
inductive CommonCall where
  | query (vaddr : VirtAddr)
  | map (vaddr : VirtAddr) (target : PhysAddr) (pageSize : PageSize) (f : MappingFlags 64)
  | protect (vaddr : VirtAddr) (f : MappingFlags 64)
  | unmap (vaddr : VirtAddr)

/-- What a call returns, without the flags. -/
inductive Reply where
  | done
  | size (size : PageSize)
  | page (paddr : PhysAddr) (size : PageSize)
  deriving DecidableEq

/-- The flags of readable and of executable pages. -/
def Permitted (f : MappingFlags 64) : Prop := f.contains .READ = true ∨ f.contains .EXECUTE = true

instance : DecidablePred Permitted := fun _ => inferInstanceAs (Decidable (_ ∨ _))

/-- Page sizes 4K, 2M and 1G, targets below `2 ^ 48`, and flags with `READ` or `EXECUTE`. -/
def CommonCall.Valid : CommonCall → Prop
  | .map _ target size f => target.toNat < 2 ^ 48 ∧ size ≠ .size1M ∧ Permitted f
  | .protect _ f => Permitted f
  | .query _ | .unmap _ => True

instance : DecidablePred CommonCall.Valid
  | .map _ _ _ _ => inferInstanceAs (Decidable (_ ∧ _ ∧ _))
  | .protect _ f => inferInstanceAs (Decidable (Permitted f))
  | .query _ | .unmap _ => inferInstanceAs (Decidable True)

/-- The address that a call looks up. -/
def CommonCall.looksAt : CommonCall → Option VirtAddr
  | .query v | .protect v _ | .unmap v => some v
  | .map _ _ _ _ => none

/-- The replies to a list of calls. -/
def replies {S : Type} (exec : CommonCall → Op S Reply) : List CommonCall → S → List (Res Reply)
  | [], _ => []
  | c :: cs, s => (exec c s).1 :: replies exec cs (exec c s).2

/-- A call, answered by a page tree. -/
def CommonCall.onTree (grants : ℕ → Bool) (M : PagingMetaData) : CommonCall → Op PageTree Reply
  | .query v => do
    let (p, size) ← PageTree.query M v
    return .page p size
  | .map v target size f => do
    PageTree.map grants M v target size f
    return .done
  | .protect v f => do
    let size ← PageTree.protect M v f
    return .size size
  | .unmap v => do
    let (p, size) ← PageTree.unmap M v
    return .page p size

/-- The calls look only at readable pages of a page tree. -/
def ReadableTree (grants : ℕ → Bool) (M : PagingMetaData) : List CommonCall → PageTree → Prop
  | [], _ => True
  | c :: cs, S =>
    (∀ v ∈ c.looksAt, ∀ k p r, S.find M v = some (k, p, r) → r = true) ∧
      ReadableTree grants M cs (c.onTree grants M S).2

section Exec

variable [GenericPTE 64 PTE]

/-- A call, answered by the code. -/
def CommonCall.exec (self : PageTable64 B M PTE H) : CommonCall → Op (World PTE σ) Reply
  | .query v => do
    let (p, _, size) ← self.query v
    return .page p size
  | .map v target size f => do
    self.map v target size f
    return .done
  | .protect v f => do
    let size ← self.protect v f
    return .size size
  | .unmap v => do
    let (p, _, size) ← self.unmap v
    return .page p size

/-- The replies of a run that starts with `try_new`. -/
def newReplies (B : Build) (M : PagingMetaData) (PTE : Type) [GenericPTE 64 PTE]
    (H : PagingHandler 64 σ) (w₀ : World PTE σ) (cs : List CommonCall) : List (Res Reply) :=
  match PageTable64.tryNew B M PTE H w₀ with
  | (.ok self, w) => .ok .done :: replies (CommonCall.exec self) cs w
  | (.err e, _) => [.err e]
  | (.panic, _) => [.panic]

/-- The calls look only at pages whose flags have `READ`. -/
def LooksAtReadable (self : PageTable64 B M PTE H) : List CommonCall → World PTE σ → Prop
  | [], _ => True
  | c :: cs, w =>
    (∀ v ∈ c.looksAt, ∀ e k, leafAt M w.mem self.rootPaddr v = some (e, k) →
      (flags e).contains .READ = true) ∧ LooksAtReadable self cs (c.exec self w).2

/-- The same of a run that starts with `try_new`. -/
def NewLooksAtReadable (B : Build) (M : PagingMetaData) (PTE : Type) [GenericPTE 64 PTE]
    (H : PagingHandler 64 σ) (w₀ : World PTE σ) (cs : List CommonCall) : Prop :=
  ∀ self w, PageTable64.tryNew B M PTE H w₀ = (.ok self, w) → LooksAtReadable self cs w

/-- Which entries an encoding makes for permitted flags. -/
structure Encodes (fits : Bool → PTE → Prop) (M : PagingMetaData) : Prop where
  target_le : 2 ^ 48 - 1 ≤ M.PA_MAX_ADDR
  ne_empty (r : Bool) (e : PTE) : fits r e → e ≠ empty
  accepted {f : MappingFlags 64} : Permitted f → debugAssert PTE f = true
  newPage {f : MappingFlags 64} (p : PhysAddr) (h : Bool) : Permitted f →
    fits (f.contains .READ) (newPage p f h)
  setFlags {f : MappingFlags 64} (e : PTE) (h : Bool) : Permitted f →
    fits (f.contains .READ) (setFlags e f h)

end Exec

/-! ### One architecture -/

section Lawful

variable [GenericPTE 64 PTE] [LawfulPTE M PTE] {fits : Bool → PTE → Prop}
  {inUse : σ → Set PhysAddr} {s₀ : σ} {S : PageTree} {w : World PTE σ}

/-- A call does to a page table what it does to the page tree, if the pages it may find are
present. -/
theorem exec_agree (E : Encodes fits M) (hH : FreshFrames M H inUse)
    (self : PageTable64 B M PTE H) (D : Described fits M H s₀ inUse self.rootPaddr w S)
    (c : CommonCall) (hc : c.Valid)
    (hpresent : ∀ v ∈ c.looksAt, ∀ k p r e, S.find M v = some (k, p, r) → fits r e →
      isPresent e = true) :
    Agree (Described fits M H s₀ inUse self.rootPaddr) (fun u _ x _ => u = x) (c.exec self w)
      (c.onTree (grants H s₀) M S) := by
  cases c with
  | query v =>
    refine (query_agree E.ne_empty self D v (hpresent v rfl)).bind ?_
    rintro ⟨p, f, size⟩ w' _ S' D' rfl
    exact .ok D' rfl
  | map v target size f =>
    obtain ⟨ht, -, hf⟩ := hc
    have hle := E.target_le
    refine (map_agree E.ne_empty hH self D v (by omega) size (E.accepted hf)
      fun p h => E.newPage p h hf).bind fun _ w' _ S' D' _ => ?_
    exact .ok D' rfl
  | protect v f =>
    refine (protect_agree E.ne_empty self D v (hpresent v rfl) hH (E.accepted hc)
      fun e h => E.setFlags e h hc).bind ?_
    rintro size w' _ S' D' rfl
    exact .ok D' rfl
  | unmap v =>
    refine (unmap_agree E.ne_empty self D v (hpresent v rfl) hH).bind ?_
    rintro ⟨p, f, size⟩ w' _ S' D' rfl
    exact .ok D' rfl

/-- A run gives the replies of the page tree, if the pages it looks at are present. -/
theorem replies_eq (E : Encodes fits M) (hH : FreshFrames M H inUse)
    (self : PageTable64 B M PTE H) (hread : ∀ e : PTE, fits true e → isPresent e = true)
    (cs : List CommonCall) (hcs : ∀ c ∈ cs, c.Valid)
    (D : Described fits M H s₀ inUse self.rootPaddr w S)
    (h : (∀ r (e : PTE), fits r e → isPresent e = true) ∨ ReadableTree (grants H s₀) M cs S) :
    replies (CommonCall.exec self) cs w = replies (CommonCall.onTree (grants H s₀) M) cs S := by
  induction cs generalizing w S with
  | nil => rfl
  | cons c cs ih =>
    have hpresent : ∀ v ∈ c.looksAt, ∀ k p r e, S.find M v = some (k, p, r) → fits r e →
        isPresent e = true := by
      intro v hv k p r e hfind hfit
      obtain h | h := h
      · exact h r e hfit
      · obtain rfl := h.1 v hv k p r hfind
        exact hread e hfit
    have hagree := exec_agree E hH self D c (hcs c List.mem_cons_self) hpresent
    rw [replies, replies, hagree.res_eq, ih (fun d hd => hcs d (List.mem_cons_of_mem _ hd))
      hagree.state (h.imp_right fun h => h.2)]

/-- Where pages that are not readable are absent, a run that looks at one gives other
replies. -/
theorem replies_ne (E : Encodes fits M) (hH : FreshFrames M H inUse)
    (self : PageTable64 B M PTE H) (hfits : ∀ r (e : PTE), fits r e → isPresent e = r)
    (cs : List CommonCall) (hcs : ∀ c ∈ cs, c.Valid)
    (D : Described fits M H s₀ inUse self.rootPaddr w S)
    (h : ¬ ReadableTree (grants H s₀) M cs S) :
    replies (CommonCall.exec self) cs w ≠ replies (CommonCall.onTree (grants H s₀) M) cs S := by
  induction cs generalizing w S with
  | nil => exact absurd trivial h
  | cons c cs ih =>
    have hc := hcs c List.mem_cons_self
    rw [replies, replies, Ne, List.cons.injEq]
    rintro ⟨hhead, htail⟩
    by_cases hnow : ∀ v ∈ c.looksAt, ∀ k p r, S.find M v = some (k, p, r) → r = true
    · have hagree := exec_agree E hH self D c hc fun v hv k p r e hfind hfit => by
        rw [hfits r e hfit, hnow v hv k p r hfind]
      exact ih (fun d hd => hcs d (List.mem_cons_of_mem _ hd)) hagree.state
        (fun hlater => h ⟨hnow, hlater⟩) htail
    · push Not at hnow
      obtain ⟨v, hv, k, p, r, hfind, hr⟩ := hnow
      have habsent : ∀ e : PTE, fits r e → isPresent e = false := fun e he => by
        rw [hfits r e he]
        simpa using hr
      -- the tree returns the page, the code says that there is none
      have hread : debugAssert PTE .READ = true := E.accepted (Or.inl (by decide))
      cases c with
      | map v target size f => exact absurd hv (by simp [CommonCall.looksAt])
      | query u =>
        obtain rfl : u = v := by simpa [CommonCall.looksAt] using hv
        obtain ⟨hquery, -, -⟩ := not_mapped_of_absent E.ne_empty self D hfind habsent hread
        rw [CommonCall.exec, Op.bind_fst_err hquery, CommonCall.onTree, Op.bind_apply,
          PageTree.query, hfind] at hhead
        exact absurd hhead (by simp)
      | protect u f =>
        obtain rfl : u = v := by simpa [CommonCall.looksAt] using hv
        obtain ⟨-, hprotect, -⟩ := not_mapped_of_absent E.ne_empty self D hfind habsent
          (E.accepted hc)
        rw [CommonCall.exec, Op.bind_fst_err hprotect, CommonCall.onTree, Op.bind_apply,
          PageTree.protect, hfind] at hhead
        exact absurd hhead (by simp)
      | unmap u =>
        obtain rfl : u = v := by simpa [CommonCall.looksAt] using hv
        obtain ⟨-, -, hunmap⟩ := not_mapped_of_absent E.ne_empty self D hfind habsent hread
        rw [CommonCall.exec, Op.bind_fst_err hunmap, CommonCall.onTree, Op.bind_apply,
          PageTree.unmap, hfind] at hhead
        exact absurd hhead (by simp)

/-- Where the flags say which pages are readable, the pages that a run looks at are those that
the page tree says it looks at. -/
theorem looksAtReadable_iff (E : Encodes fits M) (hH : FreshFrames M H inUse)
    (self : PageTable64 B M PTE H)
    (hfits : ∀ r (e : PTE), fits r e → isPresent e = true ∧ (flags e).contains .READ = r)
    (cs : List CommonCall) (hcs : ∀ c ∈ cs, c.Valid)
    (D : Described fits M H s₀ inUse self.rootPaddr w S) :
    LooksAtReadable self cs w ↔ ReadableTree (grants H s₀) M cs S := by
  induction cs generalizing w S with
  | nil => exact Iff.rfl
  | cons c cs ih =>
    have hagree := exec_agree E hH self D c (hcs c List.mem_cons_self)
      fun v _ k p r e _ hfit => (hfits r e hfit).1
    refine and_congr (forall₂_congr fun v _ => ?_)
      (ih (fun d hd => hcs d (List.mem_cons_of_mem _ hd)) hagree.state)
    -- the leaf of the address is the page of the tree
    obtain ⟨k, p, r, slot, hfind, hs, hfit, -⟩ | ⟨hfind, hs | ⟨slot, k, hs, hold⟩⟩ :=
      D.seek_find E.ne_empty v
    · obtain ⟨hpresent, hr⟩ := hfits r _ hfit
      rw [leafAt_of_seek hs, if_pos hpresent, hfind]
      simp [hr]
    · have hnone : leafAt M w.mem self.rootPaddr v = none := leaf_of_seek_error hs
      rw [hnone, hfind]
      simp
    · have hnone : leafAt M w.mem self.rootPaddr v = none := by
        rw [leafAt_of_seek hs, hold, LawfulPTE.isPresent_empty M]
        rfl
      rw [hnone, hfind]
      simp

/-- Whether `try_new` makes a table depends on the first frame only. -/
theorem tryNew_cases (hH : FreshFrames M H inUse) (w₀ : World PTE σ) :
    (grants H w₀.os 0 = true ∧ ∃ (self : PageTable64 B M PTE H) (w : World PTE σ),
        PageTable64.tryNew B M PTE H w₀ = (.ok self, w) ∧
        Described fits M H w₀.os inUse self.rootPaddr w ⟨fun _ => .unused, 1⟩) ∨
      grants H w₀.os 0 = false ∧ (PageTable64.tryNew B M PTE H w₀).1 = .err .noMemory := by
  have happly := tryNew_apply (B := B) (M := M) (H := H) w₀
  have hgrants : grants H w₀.os 0 = (H.allocFrame w₀.os).1.isSome := rfl
  obtain ⟨frame, os, ha⟩ : ∃ frame os, H.allocFrame w₀.os = (frame, os) := ⟨_, _, rfl⟩
  rw [hgrants]
  rw [ha] at happly ⊢
  cases frame with
  | none => exact Or.inr ⟨rfl, by rw [happly]⟩
  | some p => exact Or.inl ⟨rfl, _, _, happly, tryNew_described hH happly⟩

end Lawful

/-! ### The architectures -/

theorem pathTo_congr {M M' : PagingMetaData} (h : M.LEVELS = M'.LEVELS) :
    pathTo M = pathTo M' := by
  funext k v
  rw [pathTo, pathTo, vpath, vpath, h]

section Levels

variable {M M' : PagingMetaData} (h : M.LEVELS = M'.LEVELS) (grants : ℕ → Bool)
include h

theorem find_congr : PageTree.find M = PageTree.find M' := by
  funext v S
  rw [PageTree.find, PageTree.find, pathTo_congr h]

theorem map_congr : PageTree.map grants M = PageTree.map grants M' := by
  have hcreate : ∀ v k n, PageTree.createTo grants M v k n = PageTree.createTo grants M' v k n := by
    intro v k n
    induction n with
    | zero => rfl
    | succ n ih => rw [PageTree.createTo, PageTree.createTo, pathTo_congr h, ih]
  funext v target size f
  rw [PageTree.map, PageTree.map, hcreate, pathTo_congr h, h]

/-- Page trees depend on the number of levels only. -/
theorem onTree_congr : CommonCall.onTree grants M = CommonCall.onTree grants M' := by
  funext c
  cases c with
  | query v =>
    have hquery : PageTree.query M v = PageTree.query M' v := by
      funext S
      rw [PageTree.query, PageTree.query, find_congr h]
    rw [CommonCall.onTree, CommonCall.onTree, hquery]
  | map v target size f =>
    rw [CommonCall.onTree, CommonCall.onTree, map_congr h]
  | protect v f =>
    have hprotect : PageTree.protect M v f = PageTree.protect M' v f := by
      funext S
      rw [PageTree.protect, PageTree.protect, find_congr h, pathTo_congr h]
    rw [CommonCall.onTree, CommonCall.onTree, hprotect]
  | unmap v =>
    have hunmap : PageTree.unmap M v = PageTree.unmap M' v := by
      funext S
      rw [PageTree.unmap, PageTree.unmap, find_congr h, pathTo_congr h]
    rw [CommonCall.onTree, CommonCall.onTree, hunmap]

theorem readableTree_congr (cs : List CommonCall) (S : PageTree) :
    ReadableTree grants M cs S ↔ ReadableTree grants M' cs S := by
  induction cs generalizing S with
  | nil => exact Iff.rfl
  | cons c cs ih => rw [ReadableTree, ReadableTree, find_congr h, onTree_congr h, ih]

end Levels

/-- The replies of a run that starts with a new table, according to the page tree with four
levels. -/
def treeReplies (grants : ℕ → Bool) (cs : List CommonCall) : List (Res Reply) :=
  if grants 0 then
    .ok .done :: replies (CommonCall.onTree grants Sv48MetaData) cs ⟨fun _ => .unused, 1⟩
  else [.err .noMemory]

/-- The calls of such a run look only at readable pages of the page tree. -/
def ReadableRun (grants : ℕ → Bool) (cs : List CommonCall) : Prop :=
  grants 0 = true → ReadableTree grants Sv48MetaData cs ⟨fun _ => .unused, 1⟩

section New

variable [GenericPTE 64 PTE] [LawfulPTE M PTE] {fits : Bool → PTE → Prop}
  {inUse : σ → Set PhysAddr} (hL : M.LEVELS = 4) (E : Encodes fits M)
  (hH : FreshFrames M H inUse) (w₀ : World PTE σ) {cs : List CommonCall}
  (hcs : ∀ c ∈ cs, c.Valid)
include hL E hH hcs

/-- A run from a new table gives the replies of the page tree, if the pages it looks at are
present. -/
theorem newReplies_eq (hread : ∀ e : PTE, fits true e → isPresent e = true)
    (h : (∀ r (e : PTE), fits r e → isPresent e = true) ∨ ReadableRun (grants H w₀.os) cs) :
    newReplies B M PTE H w₀ cs = treeReplies (grants H w₀.os) cs := by
  obtain ⟨hgrant, self, w, hnew, D⟩ | ⟨hgrant, hnew⟩ := tryNew_cases (B := B) hH w₀
  · rw [newReplies, hnew, treeReplies, if_pos hgrant, ← onTree_congr hL (grants H w₀.os)]
    refine congrArg _ (replies_eq E hH self hread cs hcs D (h.imp_right fun h => ?_))
    exact (readableTree_congr hL _ cs _).mpr (h hgrant)
  · rw [newReplies, treeReplies, if_neg (by simp [hgrant])]
    generalize PageTable64.tryNew B M PTE H w₀ = r at hnew
    obtain ⟨r, w⟩ := r
    obtain rfl : r = _ := hnew
    rfl

/-- Where pages that are not readable are absent, it does not once it looks at one. -/
theorem newReplies_ne (hfits : ∀ r (e : PTE), fits r e → isPresent e = r)
    (h : ¬ ReadableRun (grants H w₀.os) cs) :
    newReplies B M PTE H w₀ cs ≠ treeReplies (grants H w₀.os) cs := by
  rw [ReadableRun, Classical.not_imp] at h
  obtain ⟨hgrant, h⟩ := h
  obtain ⟨-, self, w, hnew, D⟩ | ⟨hno, -⟩ := tryNew_cases (B := B) hH w₀
  · rw [newReplies, hnew, treeReplies, if_pos hgrant, ← onTree_congr hL (grants H w₀.os)]
    intro hc
    refine replies_ne E hH self hfits cs hcs D (fun hr => h ?_) (List.cons.inj hc).2
    exact (readableTree_congr hL _ cs _).mp hr
  · exact absurd (hno.symm.trans hgrant) (by simp)

/-- Where the flags say which pages are readable, the run looks at readable pages exactly when
the page tree says so. -/
theorem newLooksAtReadable_iff
    (hfits : ∀ r (e : PTE), fits r e → isPresent e = true ∧ (flags e).contains .READ = r) :
    NewLooksAtReadable B M PTE H w₀ cs ↔ ReadableRun (grants H w₀.os) cs := by
  obtain ⟨hgrant, self, w, hnew, D⟩ | ⟨hgrant, hnew⟩ := tryNew_cases (B := B) hH w₀
  · have hiff : LooksAtReadable self cs w ↔
        ReadableTree (grants H w₀.os) Sv48MetaData cs ⟨fun _ => .unused, 1⟩ :=
      (looksAtReadable_iff E hH self hfits cs hcs D).trans (readableTree_congr hL _ cs _)
    constructor
    · intro h _
      exact hiff.mp (h self w hnew)
    · intro h self' w' hnew'
      rw [hnew, Prod.mk.injEq, Res.ok.injEq] at hnew'
      obtain ⟨rfl, rfl⟩ := hnew'
      exact hiff.mpr (h hgrant)
  · constructor
    · intro _ hno
      exact absurd (hgrant.symm.trans hno) (by simp)
    · intro _ self w hok
      rw [hok] at hnew
      exact absurd hnew (by simp)

end New

theorem Permitted.isEmpty_eq_false {f : MappingFlags 64} (h : Permitted f) : f.isEmpty = false := by
  obtain h | h := h
  · exact MappingFlags.isEmpty_of_contains_read h
  · rw [MappingFlags.isEmpty, beq_eq_false_iff_ne]
    intro h0
    rw [MappingFlags.contains, h0] at h
    exact absurd h (by decide)

/-- Where every permitted page is present. -/
theorem encodes_present [GenericPTE 64 PTE] [LawfulPTE M PTE] (hpa : 48 ≤ M.PA_MAX_BITS)
    (haccept : ∀ f, Permitted f → debugAssert PTE f = true)
    (hpresent : ∀ f, presentWith PTE f = !f.isEmpty) :
    Encodes (fun _ (e : PTE) => isPresent e = true) M where
  target_le := Nat.sub_le_sub_right (Nat.pow_le_pow_right (by decide) hpa) 1
  ne_empty r e h := by
    rintro rfl
    rw [LawfulPTE.isPresent_empty M] at h
    exact absurd h (by simp)
  accepted hf := haccept _ hf
  newPage p h hf := by
    rw [LawfulPTE.isPresent_newPage M, hpresent, hf.isEmpty_eq_false]
    rfl
  setFlags e h hf := by
    rw [LawfulPTE.isPresent_setFlags M, hpresent, hf.isEmpty_eq_false]
    rfl

theorem x64_encodes : Encodes (fun _ (e : X64PTE) => isPresent e = true) X64PagingMetaData :=
  encodes_present (by decide) (fun _ _ => rfl) X64PTE.presentWith_eq

theorem la64_encodes : Encodes (fun _ (e : LA64PTE) => isPresent e = true) LA64MetaData :=
  encodes_present (by decide) (fun _ _ => rfl) LA64PTE.presentWith_eq

/-- On RISC-V every permitted page is present, and its flags say whether it is readable. -/
theorem sv48_encodes (xuantie : Bool) :
    Encodes (fun r (e : Rv64PTE xuantie) => isPresent e = true ∧ (flags e).contains .READ = r)
      Sv48MetaData := by
  have haccept : ∀ f, Permitted f → debugAssert (Rv64PTE xuantie) f = true := fun f hf => by
    rw [Rv64PTE.debugAssert_eq, hf.isEmpty_eq_false]
    obtain h | h := hf <;> simp [h]
  have E := encodes_present (M := Sv48MetaData) (by decide) haccept Rv64PTE.presentWith_eq
  refine ⟨E.target_le, fun r e h => E.ne_empty r e h.1, E.accepted, fun p h hf => ?_,
    fun e h hf => ?_⟩
  · refine ⟨E.newPage p h hf, ?_⟩
    rw [LawfulPTE.flags_newPage Sv48MetaData, Rv64PTE.normalise_eq,
      Rv64PTE.contains_read_normalForm, hf.isEmpty_eq_false]
    rfl
  · refine ⟨E.setFlags e h hf, ?_⟩
    rw [LawfulPTE.flags_setFlags Sv48MetaData, Rv64PTE.normalise_eq,
      Rv64PTE.contains_read_normalForm, hf.isEmpty_eq_false]
    rfl

/-- On AArch64 the present pages are the readable ones. -/
theorem a64_encodes (armEl2 : Bool) :
    Encodes (fun r (e : A64PTE armEl2) => e ≠ empty ∧ isPresent e = r) A64PagingMetaData where
  target_le := by decide
  ne_empty r e h := h.1
  accepted _ := rfl
  newPage p h hf := by
    refine ⟨A64PTE.newPage_ne_empty p _ h, ?_⟩
    rw [LawfulPTE.isPresent_newPage A64PagingMetaData, A64PTE.presentWith_eq, hf.isEmpty_eq_false]
    rfl
  setFlags e h hf := by
    refine ⟨A64PTE.setFlags_ne_empty e _ h, ?_⟩
    rw [LawfulPTE.isPresent_setFlags A64PagingMetaData, A64PTE.presentWith_eq, hf.isEmpty_eq_false]
    rfl

/-- With readable and executable pages and allocators that fail at the same calls, the 4-level
tables of all architectures give the same replies exactly when every page that `query`,
`protect` or `unmap` looks at is readable. -/
theorem Arch.same_replies_iff (armEl2 xuantie : Bool) {σx σa σr σl : Type}
    {Hx : PagingHandler 64 σx} {Ha : PagingHandler 64 σa} {Hr : PagingHandler 64 σr}
    {Hl : PagingHandler 64 σl} {ux : σx → Set PhysAddr} {ua : σa → Set PhysAddr}
    {ur : σr → Set PhysAddr} {ul : σl → Set PhysAddr}
    (hHx : FreshFrames X64PagingMetaData Hx ux) (hHa : FreshFrames A64PagingMetaData Ha ua)
    (hHr : FreshFrames Sv48MetaData Hr ur) (hHl : FreshFrames LA64MetaData Hl ul)
    (wx : World X64PTE σx) (wa : World (A64PTE armEl2) σa) (wr : World (Rv64PTE xuantie) σr)
    (wl : World LA64PTE σl) (hx : grants Hx wx.os = grants Hr wr.os)
    (ha : grants Ha wa.os = grants Hr wr.os) (hl : grants Hl wl.os = grants Hr wr.os)
    (cs : List CommonCall) (hcs : ∀ c ∈ cs, c.Valid) :
    (newReplies B X64PagingMetaData X64PTE Hx wx cs =
        newReplies B Sv48MetaData (Rv64PTE xuantie) Hr wr cs ∧
      newReplies B A64PagingMetaData (A64PTE armEl2) Ha wa cs =
        newReplies B Sv48MetaData (Rv64PTE xuantie) Hr wr cs ∧
      newReplies B LA64MetaData LA64PTE Hl wl cs =
        newReplies B Sv48MetaData (Rv64PTE xuantie) Hr wr cs) ↔
      NewLooksAtReadable B Sv48MetaData (Rv64PTE xuantie) Hr wr cs := by
  have hreplies_x : newReplies B X64PagingMetaData X64PTE Hx wx cs =
      treeReplies (grants Hr wr.os) cs := by
    rw [← hx]
    exact newReplies_eq rfl x64_encodes hHx wx hcs (fun _ h => h) (Or.inl fun _ _ h => h)
  have hreplies_l : newReplies B LA64MetaData LA64PTE Hl wl cs =
      treeReplies (grants Hr wr.os) cs := by
    rw [← hl]
    exact newReplies_eq rfl la64_encodes hHl wl hcs (fun _ h => h) (Or.inl fun _ _ h => h)
  have hreplies_r : newReplies B Sv48MetaData (Rv64PTE xuantie) Hr wr cs =
      treeReplies (grants Hr wr.os) cs :=
    newReplies_eq rfl (sv48_encodes xuantie) hHr wr hcs (fun _ h => h.1)
      (Or.inl fun _ _ h => h.1)
  rw [hreplies_x, hreplies_l, hreplies_r,
    newLooksAtReadable_iff rfl (sv48_encodes xuantie) hHr wr hcs fun _ _ h => h]
  constructor
  · rintro ⟨-, hreplies_a, -⟩
    by_contra hno
    rw [← ha] at hno hreplies_a
    exact newReplies_ne rfl (a64_encodes armEl2) hHa wa hcs (fun _ _ h => h.2) hno hreplies_a
  · intro h
    refine ⟨rfl, ?_, rfl⟩
    rw [← ha] at h ⊢
    exact newReplies_eq rfl (a64_encodes armEl2) hHa wa hcs (fun _ h => h.2) (Or.inr h)

/-- A run with a huge page that is protected and unmapped. -/
theorem Arch.same_replies_iff_run :
    (newReplies ⟨true, true⟩ X64PagingMetaData X64PTE (bumpHandler 8) (blankWorld X64PTE)
        [.map 0x200000 0x40200000 .size2M .READ, .protect 0x200fff ⟨5⟩, .query 0x212345,
          .unmap 0x200000] =
      newReplies ⟨true, true⟩ Sv48MetaData (Rv64PTE false) (bumpHandler 8)
        (blankWorld (Rv64PTE false)) [.map 0x200000 0x40200000 .size2M .READ,
          .protect 0x200fff ⟨5⟩, .query 0x212345, .unmap 0x200000] ∧
      newReplies ⟨true, true⟩ A64PagingMetaData (A64PTE false) (bumpHandler 8)
        (blankWorld (A64PTE false)) [.map 0x200000 0x40200000 .size2M .READ,
          .protect 0x200fff ⟨5⟩, .query 0x212345, .unmap 0x200000] =
      newReplies ⟨true, true⟩ Sv48MetaData (Rv64PTE false) (bumpHandler 8)
        (blankWorld (Rv64PTE false)) [.map 0x200000 0x40200000 .size2M .READ,
          .protect 0x200fff ⟨5⟩, .query 0x212345, .unmap 0x200000] ∧
      newReplies ⟨true, true⟩ LA64MetaData LA64PTE (bumpHandler 8) (blankWorld LA64PTE)
        [.map 0x200000 0x40200000 .size2M .READ, .protect 0x200fff ⟨5⟩, .query 0x212345,
          .unmap 0x200000] =
      newReplies ⟨true, true⟩ Sv48MetaData (Rv64PTE false) (bumpHandler 8)
        (blankWorld (Rv64PTE false)) [.map 0x200000 0x40200000 .size2M .READ,
          .protect 0x200fff ⟨5⟩, .query 0x212345, .unmap 0x200000]) ↔
      NewLooksAtReadable ⟨true, true⟩ Sv48MetaData (Rv64PTE false) (bumpHandler 8)
        (blankWorld (Rv64PTE false)) [.map 0x200000 0x40200000 .size2M .READ,
          .protect 0x200fff ⟨5⟩, .query 0x212345, .unmap 0x200000] :=
  Arch.same_replies_iff false false (freshFrames_bumpHandler (by decide) (by decide))
    (freshFrames_bumpHandler (by decide) (by decide))
    (freshFrames_bumpHandler (by decide) (by decide))
    (freshFrames_bumpHandler (by decide) (by decide)) _ _ _ _ rfl rfl rfl _ (by decide)

/-- A page that is executable but not readable is found on RISC-V and not on AArch64. -/
theorem same_replies_fails_execute_only :
    (∀ c ∈ [CommonCall.map 0x1000 0x5000 .size4K .EXECUTE, .query 0x1000], c.Valid) ∧
      newReplies ⟨true, true⟩ A64PagingMetaData (A64PTE false) (bumpHandler 8)
        (blankWorld (A64PTE false)) [.map 0x1000 0x5000 .size4K .EXECUTE, .query 0x1000] =
        [.ok .done, .ok .done, .err .notMapped] ∧
      newReplies ⟨true, true⟩ Sv48MetaData (Rv64PTE false) (bumpHandler 8)
        (blankWorld (Rv64PTE false)) [.map 0x1000 0x5000 .size4K .EXECUTE, .query 0x1000] =
        [.ok .done, .ok .done, .ok (.page 0x5000 .size4K)] := by
  decide +kernel

end PageTableMultiarch
