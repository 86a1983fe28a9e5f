/-
What `map` returns, and what a successful call maps.

The walk of `map` ends at the slot of the page, at a huge leaf above it, or at an unused
entry above it, under which the missing tables are created.

* `PageTree.map_over_page`, `PageTree.map_over_unused`, `PageTree.map_over_tables` — the
  three cases on the page tree;
* `map_tells_iff`, `Arch.mapTells_iff` — the error of `map` is that of the obstacle, unless
  this is a huge leaf of frame zero;
* `map_wholePage_iff`, `Arch.mapsWholePage_iff` — a successful call maps the page that was
  asked for, unless its size is 1M.
-/
import PageTableMultiarch.Table64.PageTree
import PageTableMultiarch.Table64.Remap
import PageTableMultiarch.Table64.Region

namespace PageTableMultiarch

open GenericPTE Radix Cyclic

variable {B : Build} {M : PagingMetaData} {PTE σ : Type} {H : PagingHandler 64 σ}

/-! ### On the page tree -/

namespace PageTree

variable {grants : ℕ → Bool} {v : VirtAddr} {k n j : ℕ} {S : PageTree}

/-- Steps through tables change nothing. -/
theorem createTo_skip (hjn : j ≤ n)
    (h : ∀ i, k + j < i → i ≤ k + n → S.node (pathTo M i v) = .table) :
    createTo grants M v k n S = createTo grants M v k j S := by
  induction n with
  | zero =>
    obtain rfl : j = 0 := Nat.le_zero.mp hjn
    rfl
  | succ n ih =>
    by_cases hj : j = n + 1
    · rw [hj]
    · have htop : enter grants (pathTo M (k + n + 1) v) S = (.ok (), S) := by
        rw [enter, h (k + n + 1) (by omega) (by omega)]
      rw [createTo, Op.bind_ok htop]
      exact ih (by omega) fun i hi hin => h i hi (by omega)

/-- Below an unused entry all tables are created, if there are frames for them. -/
theorem createTo_unused (hL : M.LEVELS = 3 ∨ M.LEVELS = 4) (hn : k + n < M.LEVELS)
    (h : ∀ i, k ≤ i → i ≤ k + n → S.node (pathTo M i v) = .unused) :
    ((∀ i < n, grants (S.requests + i) = true) ∧ ∃ S', createTo grants M v k n S = (.ok (), S') ∧
      S'.node (pathTo M k v) = .unused) ∨
    (∃ i < n, grants (S.requests + i) = false) ∧
      (createTo grants M v k n S).1 = .err .noMemory := by
  induction n generalizing S with
  | zero => exact Or.inl ⟨fun i hi => absurd hi (Nat.not_lt_zero i), S, rfl, h k le_rfl le_rfl⟩
  | succ n ih =>
    have htop : S.node (pathTo M (k + n + 1) v) = .unused := h _ (by omega) (by omega)
    have henter : enter grants (pathTo M (k + n + 1) v) S =
        if grants S.requests then
          (.ok (), { S.set (pathTo M (k + n + 1) v) .table with requests := S.requests + 1 })
        else (.err .noMemory, { S with requests := S.requests + 1 }) := by
      rw [enter, htop]
    rw [createTo]
    cases hg : grants S.requests with
    | false =>
      rw [hg, if_neg Bool.false_ne_true] at henter
      refine Or.inr ⟨⟨0, Nat.succ_pos n, hg⟩, ?_⟩
      rw [Op.bind_err henter]
    | true =>
      rw [hg, if_pos rfl] at henter
      rw [Op.bind_ok henter]
      -- the nodes below are still unused
      have hbelow : ∀ i, k ≤ i → i ≤ k + n →
          ({ S.set (pathTo M (k + n + 1) v) .table with requests := S.requests + 1 } :
            PageTree).node (pathTo M i v) = .unused := by
        intro i hki hin
        have hne : pathTo M i v ≠ pathTo M (k + n + 1) v := by
          intro heq
          have hlen := congrArg List.length heq
          rw [length_pathTo hL, length_pathTo hL] at hlen
          omega
        exact (S.set_node_of_ne hne _).trans (h i hki (by omega))
      have hshift : ∀ i, S.requests + 1 + i = S.requests + (i + 1) := fun i => by omega
      obtain ⟨hall, S', hS', hnode⟩ | ⟨⟨i, hi, hfail⟩, herr⟩ := ih (by omega) hbelow
      · refine Or.inl ⟨fun i hi => ?_, S', hS', hnode⟩
        cases i with
        | zero => exact hg
        | succ i =>
          rw [← hshift]
          exact hall i (by omega)
      · refine Or.inr ⟨⟨i + 1, by omega, ?_⟩, herr⟩
        rw [← hshift]
        exact hfail

section Map

variable {target : PhysAddr} {size : PageSize} {f : MappingFlags 64}

/-- Where there are tables down to the page, the node of the page decides. -/
theorem map_over_tables
    (h : ∀ i, size.height < i → i < M.LEVELS → S.node (pathTo M i v) = .table) :
    (map grants M v target size f S).1 =
      if S.node (pathTo M size.height v) = .unused then .ok () else .err .alreadyMapped := by
  have hskip : createTo grants M v size.height (M.LEVELS - 1 - size.height) S = (.ok (), S) :=
    createTo_skip (Nat.zero_le _) fun i hi hin => h i (by omega) (by omega)
  rw [map, Op.bind_ok hskip, place]
  cases S.node (pathTo M size.height v) <;> rfl

variable (hj : size.height < j) (hjL : j < M.LEVELS)
  (habove : ∀ i, j < i → i < M.LEVELS → S.node (pathTo M i v) = .table)
include hj hjL habove

theorem map_skip : createTo grants M v size.height (M.LEVELS - 1 - size.height) S =
    createTo grants M v size.height (j - size.height) S :=
  createTo_skip (by omega) fun i hi hin => habove i (by omega) (by omega)

/-- A page above the page asked for. -/
theorem map_over_page {p : PhysAddr} {r : Bool} (hnode : S.node (pathTo M j v) = .page p r) :
    (map grants M v target size f S).1 =
      .err (if p = 0 then .notMapped else .mappedToHugePage) := by
  obtain ⟨n, rfl⟩ : ∃ n, j = size.height + n + 1 := ⟨j - size.height - 1, by omega⟩
  have henter : enter grants (pathTo M (size.height + n + 1) v) S =
      (.err (if p = 0 then .notMapped else .mappedToHugePage), S) := by
    rw [enter, hnode]
  rw [map, Op.bind_fst_err]
  rw [map_skip hj hjL habove, show size.height + n + 1 - size.height = n + 1 by omega, createTo,
    Op.bind_err henter]

/-- An unused entry above the page: the tables from there to the page are created. -/
theorem map_over_unused (hL : M.LEVELS = 3 ∨ M.LEVELS = 4)
    (hunused : ∀ i, i ≤ j → S.node (pathTo M i v) = .unused) :
    (∃ i < j - size.height, grants (S.requests + i) = false) ∧
        (map grants M v target size f S).1 = .err .noMemory ∨
      (∀ i < j - size.height, grants (S.requests + i) = true) ∧
        (map grants M v target size f S).1 = .ok () := by
  obtain ⟨hall, S', hS', hnode⟩ | ⟨hfail, herr⟩ := @createTo_unused M grants v size.height
    (j - size.height) S hL (by omega) fun i _ hi => hunused i (by omega)
  · refine Or.inr ⟨hall, ?_⟩
    rw [map, Op.bind_ok ((map_skip hj hjL habove).trans hS'), place, hnode]
  · refine Or.inl ⟨hfail, ?_⟩
    rw [map, Op.bind_fst_err]
    rw [map_skip hj hjL habove]
    exact herr

end Map

end PageTree

/-! ### The page tree of a page table -/

section Tree

variable [GenericPTE 64 PTE]

open Classical in
/-- What an entry at the end of a path of `len` indices leads to. -/
noncomputable def nodeOf (M : PagingMetaData) (len : ℕ) : Option PTE → Node
  | none => .unused
  | some e =>
    if e = empty then .unused
    else if TableEntry M len e then .table
    else .page (paddr e) true

/-- The page tree that a page table amounts to. -/
noncomputable def treeOf (M : PagingMetaData) (w : World PTE σ) (root : PhysAddr) : PageTree where
  node ρ := nodeOf M ρ.length (entryAt child w.mem root ρ)
  requests := 0

/-- Entries that are in use. -/
abbrev InUse (_ : Bool) (e : PTE) : Prop := e ≠ empty

variable [LawfulPTE M PTE] {P : PTE → Prop} {inUse : σ → Set PhysAddr} {root : PhysAddr}
  {w : World PTE σ}

omit [LawfulPTE M PTE] in
theorem Inv.described (I : Inv P M inUse root w) (H : PagingHandler 64 σ) :
    Described InUse M H w.os inUse root w (treeOf M w root) := by
  refine ⟨I.toTree, fun {ρ} hρ hlen => ?_, rfl⟩
  simp only [treeOf]
  cases he : entryAt child w.mem root ρ with
  | none => exact fun x hx => absurd hx (by simp)
  | some e =>
    obtain ⟨slot, hslot, rfl⟩ := exists_slotAt he
    have hentry := I.entries hslot hlen
    simp only [World.entry] at hentry
    by_cases hempty : w.mem slot.table slot.index = empty
    · rw [nodeOf, if_pos hempty]
      exact fun x hx => (Option.some_inj.mp hx).symm.trans hempty
    · rw [nodeOf, if_neg hempty]
      by_cases htable : TableEntry M ρ.length (w.mem slot.table slot.index)
      · rw [if_pos htable]
        obtain ⟨hlt, p, hp, hnew⟩ := htable
        exact ⟨hlt, p, hp, by rw [hnew]⟩
      · rw [if_neg htable]
        obtain ⟨-, hleaf⟩ := (hentry.resolve_left htable).resolve_left hempty
        exact ⟨_, rfl, hempty, rfl, hleaf⟩

end Tree

/-! ### The result of `map` -/

section Map

variable [GenericPTE 64 PTE]

/-- What a call of `map` returns depends neither on the target nor on the flags, if these are
accepted. -/
theorem map_fst_congr (self : PageTable64 B M PTE H) (v : VirtAddr) (target target' : PhysAddr)
    (size : PageSize) {f f' : MappingFlags 64} (hf : debugAssert PTE f = true)
    (hf' : debugAssert PTE f' = true) (w : World PTE σ) :
    (self.map v target size f w).1 = (self.map v target' size f' w).1 := by
  rw [PageTable64.map, PageTable64.map, Op.bind_apply, Op.bind_apply]
  obtain ⟨slot | e | _, w'⟩ := self.getEntryMutOrCreate v size w
  · simp only
    rw [Op.bind_ok (readEntry_eq slot w'), Op.bind_ok (readEntry_eq slot w')]
    cases isUnused (w'.entry slot) with
    | true =>
      rw [if_neg (by decide), if_neg (by decide),
        Op.bind_ok (assertFlags_of_pass (flagsPass_of_accepted hf) _),
        Op.bind_ok (assertFlags_of_pass (flagsPass_of_accepted hf') _)]
      rfl
    | false => rfl
  · rfl
  · rfl

/-- A huge leaf larger than the size covers the address. -/
def HugeAbove (table : PageTable64 B M PTE H) (w : World PTE σ) (v : VirtAddr) (size : PageSize) :
    Prop :=
  ∃ e k, leafAt M w.mem table.rootPaddr v = some (e, k) ∧ size.height < k

/-- A table on the path to the page is missing, and the allocation of this table or of one below
it fails. -/
def NoFrame (table : PageTable64 B M PTE H) (w : World PTE σ) (v : VirtAddr) (size : PageSize) :
    Prop :=
  ∃ j, size.height < j ∧ j < M.LEVELS ∧ ZeroAt M w.mem table.rootPaddr v j ∧
    ∃ i < j - size.height, grants H w.os i = false

/-- The slot of the page exists and is not zero. -/
def SlotUsed (table : PageTable64 B M PTE H) (w : World PTE σ) (v : VirtAddr) (size : PageSize) :
    Prop :=
  ∃ slot, SlotAt w.mem table.rootPaddr (pathTo M size.height v) slot ∧ w.entry slot ≠ empty

/-- The result of `map` tells what is in the way of the page. -/
structure MapTells (table : PageTable64 B M PTE H) (w : World PTE σ) (v : VirtAddr)
    (size : PageSize) (r : Res Unit) : Prop where
  huge : r = .err .mappedToHugePage ↔ HugeAbove table w v size
  noMemory : r = .err .noMemory ↔ ¬ HugeAbove table w v size ∧ NoFrame table w v size
  alreadyMapped : r = .err .alreadyMapped ↔
    ¬ HugeAbove table w v size ∧ ¬ NoFrame table w v size ∧ SlotUsed table w v size
  ok : r = .ok () ↔
    ¬ HugeAbove table w v size ∧ ¬ NoFrame table w v size ∧ ¬ SlotUsed table w v size
  mapped : r ≠ .err .notMapped

variable [LawfulPTE M PTE] {inUse : σ → Set PhysAddr} (self : PageTable64 B M PTE H)
  {w : World PTE σ} {v : VirtAddr} {size : PageSize}

omit [LawfulPTE M PTE] in
/-- The walk reaches an entry on the path of an address, or stops above at an entry that is no
pointer. -/
theorem slotAt_or_stops (hL : M.LEVELS = 3 ∨ M.LEVELS = 4) {m : PhysAddr → Fin ENTRY_COUNT → PTE}
    {root : PhysAddr} (v : VirtAddr) {k : ℕ} (hk : k < M.LEVELS) :
    (∃ slot, SlotAt m root (pathTo M k v) slot) ∨
      ∃ j slot, k < j ∧ j < M.LEVELS ∧ SlotAt m root (pathTo M j v) slot ∧
        child (m slot.table slot.index) = none := by
  obtain ⟨d, hd, rfl⟩ : ∃ d < M.LEVELS, k = M.LEVELS - 1 - d := ⟨M.LEVELS - 1 - k, by omega⟩
  clear hk
  induction d with
  | zero =>
    rw [Nat.sub_zero, pathTo_root hL]
    exact Or.inl ⟨⟨root, PageTable64.rootIndex M v⟩, [], rfl, rfl⟩
  | succ d ih =>
    obtain ⟨⟨t, i⟩, hslot⟩ | ⟨j, slot, hj, hrest⟩ := ih (by omega)
    · cases hc : child (m t i) with
      | none => exact Or.inr ⟨_, ⟨t, i⟩, by omega, by omega, hslot, hc⟩
      | some s =>
        have hlen := length_vpath hL v
        have hlt : M.LEVELS - (M.LEVELS - 1 - d) < (vpath M v).length := by omega
        have hpath : pathTo M (M.LEVELS - 1 - (d + 1)) v =
            pathTo M (M.LEVELS - 1 - d) v ++ [(vpath M v)[M.LEVELS - (M.LEVELS - 1 - d)]] := by
          rw [pathTo, pathTo, show M.LEVELS - (M.LEVELS - 1 - (d + 1)) =
            M.LEVELS - (M.LEVELS - 1 - d) + 1 by omega, List.take_succ_eq_append_getElem hlt]
        exact Or.inl ⟨⟨s, _⟩, _, hpath, hslot.resolve_eq.trans hc⟩
    · exact Or.inr ⟨j, slot, by omega, hrest⟩

/-- What is in the way of a page: a huge leaf above, a missing table above, or nothing down to its
slot. -/
theorem Inv.obstacle (I : Inv (fun e : PTE => isPresent e = true) M inUse self.rootPaddr w)
    (v : VirtAddr) (size : PageSize) : HugeAbove self w v size ∨
      (∃ j, size.height < j ∧ j < M.LEVELS ∧ ZeroAt M w.mem self.rootPaddr v j) ∨
      ∃ slot, SlotAt w.mem self.rootPaddr (pathTo M size.height v) slot := by
  have hL := LawfulPTE.levels (M := M) PTE
  have hheight := size.height_le
  obtain hslot | ⟨j, slot, hj, hjL, hslot, hc⟩ : (∃ slot, SlotAt w.mem self.rootPaddr
      (pathTo M size.height v) slot) ∨ _ := slotAt_or_stops hL v (by omega)
  · exact Or.inr (Or.inr hslot)
  · have hlen := length_pathTo hL j v
    obtain ⟨-, p, hp, hnew⟩ | hempty | ⟨hpresent, hleaf⟩ := I.entries hslot (by omega)
    · rw [World.entry] at hnew
      rw [hnew, child_newTable hp] at hc
      exact absurd hc (by simp)
    · exact Or.inr (Or.inl ⟨j, hj, hjL, slot, hslot, hempty⟩)
    · obtain hlast | ⟨hhuge, hj2⟩ := hleaf
      · omega
      · rw [hlen] at hj2
        refine Or.inl ⟨w.mem slot.table slot.index, j, ?_, hj⟩
        rw [hslot.leafAt_samePage hL (by omega) (Or.inr hc) (SamePage.refl j v),
          if_pos ⟨hpresent, Or.inr hhuge⟩]

section Result

variable {P : PTE → Prop} (hH : FreshFrames M H inUse) (I : Inv P M inUse self.rootPaddr w)
  {target : PhysAddr} {f : MappingFlags 64} (hf : debugAssert PTE f = true)
include hH I hf

/-- `map` returns what it returns on the page tree. -/
theorem map_fst_eq : (self.map v target size f w).1 =
    (PageTree.map (grants H w.os) M v 0 size .READ (treeOf M w self.rootPaddr)).1 := by
  have hread : (MappingFlags.READ : MappingFlags 64).contains .READ = true := by decide
  rw [map_fst_congr self v target 0 size hf (LawfulPTE.read_accepted M hread) w]
  refine ((map_agree (fun _ _ h => h) hH self (I.described H) v (Nat.zero_le _) size
    (LawfulPTE.read_accepted M hread) fun p h hempty => ?_).mono fun _ _ _ _ _ _ => rfl).res_eq
  have hpresent := (LawfulPTE.isPresent_newPage (M := M) p .READ h :
    isPresent (newPage p .READ h : PTE) = _)
  rw [hempty, LawfulPTE.isPresent_empty M, LawfulPTE.presentWith_read M hread] at hpresent
  exact Bool.false_ne_true hpresent

/-- A huge leaf above is what `map` returns an error for, but it takes one of frame zero for a
missing table. -/
theorem map_of_huge {e : PTE} {k : ℕ} (hleaf : leafAt M w.mem self.rootPaddr v = some (e, k))
    (hk : size.height < k) : (self.map v target size f w).1 =
      .err (if paddr e = 0 then .notMapped else .mappedToHugePage) := by
  have hL := LawfulPTE.levels (M := M) PTE
  have D := I.described H
  have hk2 := leafAt_height_le hleaf
  obtain ⟨slot, hseek, rfl, hpresent⟩ := leaf_eq_some hleaf
  obtain ⟨hslot, -, hhuge⟩ := slotAt_of_seek hL hseek
  have hlen := length_pathTo hL k v
  have hentry := D.2.entry hslot (by omega)
  -- the node at the height of the leaf is a page
  obtain ⟨r, hnode⟩ : ∃ r, (treeOf M w self.rootPaddr).node (pathTo M k v) =
      .page (paddr (w.mem slot.table slot.index)) r := by
    generalize (treeOf M w self.rootPaddr).node (pathTo M k v) = x at hentry
    cases x with
    | unused =>
      have hempty : w.entry slot = empty := hentry _ rfl
      rw [World.entry] at hempty
      rw [hempty, LawfulPTE.isPresent_empty M] at hpresent
      exact absurd hpresent Bool.false_ne_true
    | table =>
      obtain ⟨-, p, hp, hnew⟩ := hentry
      have hno := hhuge (by omega)
      rw [show w.mem slot.table slot.index = newTable p from Option.some_inj.mp hnew,
        LawfulPTE.isHuge_newTable M] at hno
      exact absurd hno Bool.false_ne_true
    | page p r =>
      obtain ⟨_, hx, -, rfl, -⟩ := hentry
      obtain rfl := Option.some_inj.mp hx
      exact ⟨r, rfl⟩
  rw [map_fst_eq self hH I hf]
  exact PageTree.map_over_page hk (by omega) (fun i hi hiL => D.2.table_above hi hiL hslot) hnode

/-- Where a table is missing, `map` succeeds if there are frames for the tables below. -/
theorem map_of_zeroAt {j : ℕ} (hj : size.height < j) (hjL : j < M.LEVELS)
    (hzero : ZeroAt M w.mem self.rootPaddr v j) :
    (∃ i < j - size.height, grants H w.os i = false) ∧
        (self.map v target size f w).1 = .err .noMemory ∨
      (∀ i < j - size.height, grants H w.os i = true) ∧
        (self.map v target size f w).1 = .ok () := by
  have hL := LawfulPTE.levels (M := M) PTE
  have D := I.described H
  obtain ⟨slot, hslot, hempty⟩ := hzero
  have hlen := length_pathTo hL j v
  have hunused := (D.2.unused_iff (fun _ _ h => h) hslot (by omega)).mpr hempty
  have hbelow : ∀ i, i ≤ j → (treeOf M w self.rootPaddr).node (pathTo M i v) = .unused := by
    intro i hi
    obtain rfl | hi := hi.eq_or_lt
    · exact hunused
    · exact D.2.unused_at hi hjL hslot (child_of_entry_eq_empty M hempty)
  have hcases := @PageTree.map_over_unused M (grants H w.os) v j _ 0 size .READ
    hj hjL (fun i hi hiL => D.2.table_above hi hiL hslot) hL hbelow
  rw [map_fst_eq self hH I hf]
  simpa only [treeOf, Nat.zero_add] using hcases

/-- Without frames for the missing tables, -/
theorem map_of_noFrame (h : NoFrame self w v size) :
    (self.map v target size f w).1 = .err .noMemory := by
  obtain ⟨j, hj, hjL, hzero, i, hi, hfail⟩ := h
  obtain ⟨-, hr⟩ | ⟨hall, -⟩ := map_of_zeroAt self hH I hf hj hjL hzero
  · exact hr
  · exact absurd ((hall i hi).symm.trans hfail) (by decide)

/-- and where the slot of the page exists. -/
theorem map_of_slotAt {slot : Slot}
    (hslot : SlotAt w.mem self.rootPaddr (pathTo M size.height v) slot) :
    (self.map v target size f w).1 =
      if isUnused (w.entry slot) then .ok () else .err .alreadyMapped := by
  have hL := LawfulPTE.levels (M := M) PTE
  have hlen := length_pathTo (M := M) hL size.height v
  have hunused := (I.described H).2.unused_iff (fun _ _ h => h) hslot (by omega)
  rw [map_fst_eq self hH I hf, PageTree.map_over_tables fun i hi hiL =>
    (I.described H).2.table_above hi hiL hslot]
  exact if_congr (hunused.trans (LawfulPTE.isUnused_iff M _).symm) rfl rfl

theorem map_of_slotUsed (h : SlotUsed self w v size) :
    (self.map v target size f w).1 = .err .alreadyMapped := by
  obtain ⟨slot, hslot, hne⟩ := h
  rw [map_of_slotAt self hH I hf hslot, if_neg fun h => hne ((LawfulPTE.isUnused_iff M _).mp h)]

end Result

section Present

variable (hH : FreshFrames M H inUse)
  (I : Inv (fun e : PTE => isPresent e = true) M inUse self.rootPaddr w) {target : PhysAddr}
  {f : MappingFlags 64} (hf : debugAssert PTE f = true)
include hH I hf

/-- Where none of the three is in the way, `map` succeeds. -/
theorem map_of_free (hhuge : ¬ HugeAbove self w v size) (hframe : ¬ NoFrame self w v size)
    (hslot : ¬ SlotUsed self w v size) : (self.map v target size f w).1 = .ok () := by
  obtain hhuge' | ⟨j, hj, hjL, hzero⟩ | ⟨slot, hat⟩ := I.obstacle self v size
  · exact absurd hhuge' hhuge
  · obtain ⟨hfail, -⟩ | ⟨-, hr⟩ := map_of_zeroAt self hH I hf hj hjL hzero
    · exact absurd ⟨j, hj, hjL, hzero, hfail⟩ hframe
    · exact hr
  · have hempty : w.entry slot = empty := by
      by_contra hne
      exact hslot ⟨slot, hat, hne⟩
    rw [map_of_slotAt self hH I hf hat, if_pos ((LawfulPTE.isUnused_iff M _).mpr hempty)]

/-- `map` tells what is in the way of the page exactly if this is no huge leaf of frame zero. -/
theorem map_tells_iff : MapTells self w v size (self.map v target size f w).1 ↔
    ∀ e k, leafAt M w.mem self.rootPaddr v = some (e, k) → size.height < k → paddr e ≠ 0 := by
  have hframe : NoFrame self w v size → (self.map v target size f w).1 = .err .noMemory :=
    map_of_noFrame self hH I hf
  have hused : SlotUsed self w v size → (self.map v target size f w).1 = .err .alreadyMapped :=
    map_of_slotUsed self hH I hf
  have hfree : ¬ HugeAbove self w v size → ¬ NoFrame self w v size → ¬ SlotUsed self w v size →
      (self.map v target size f w).1 = .ok () := map_of_free self hH I hf
  generalize hr : (self.map v target size f w).1 = r at hframe hused hfree
  by_cases hhuge : HugeAbove self w v size
  · obtain ⟨e, k, hleaf, hk⟩ := id hhuge
    have hres : r = _ := hr.symm.trans (map_of_huge self hH I hf hleaf hk)
    -- a huge page above is told apart by its address alone
    constructor
    · intro h e' k' hleaf' hk' h0
      have hres' : r = _ := hr.symm.trans (map_of_huge self hH I hf hleaf' hk')
      rw [if_pos h0] at hres'
      exact h.mapped hres'
    · intro h
      rw [if_neg (h e k hleaf hk)] at hres
      subst hres
      refine ⟨?_, ?_, ?_, ?_, ?_⟩ <;> simp [hhuge]
  · refine iff_of_true ?_ fun e k hleaf hk => absurd ⟨e, k, hleaf, hk⟩ hhuge
    by_cases hno : NoFrame self w v size
    · obtain rfl := hframe hno
      refine ⟨?_, ?_, ?_, ?_, ?_⟩ <;> simp [hhuge, hno]
    · by_cases hslot : SlotUsed self w v size
      · obtain rfl := hused hslot
        refine ⟨?_, ?_, ?_, ?_, ?_⟩ <;> simp [hhuge, hno, hslot]
      · obtain rfl := hfree hhuge hno hslot
        refine ⟨?_, ?_, ?_, ?_, ?_⟩ <;> simp [hhuge, hno, hslot]

end Present

end Map

/-- In a table of readable pages the result of `map` tells what is in the way exactly if this is
no huge leaf of frame zero. -/
theorem Arch.mapTells_iff (arch : Arch) {H : PagingHandler 64 σ} {inUse : σ → Set PhysAddr}
    (hH : FreshFrames arch.metaData H inUse) {self : PageTable64 B arch.metaData arch.PTE H}
    {w : World arch.PTE σ} (hw : Reachable Readable self w) (v : VirtAddr) (target : PhysAddr)
    (size : PageSize) {f : MappingFlags 64} (hf : Readable f) :
    MapTells self w v size (self.map v target size f w).1 ↔
      ∀ e k, leafAt arch.metaData w.mem self.rootPaddr v = some (e, k) → size.height < k →
        paddr e ≠ 0 :=
  map_tells_iff self hH (hw.inv hH self fun _ => allowed_read arch.metaData)
    (LawfulPTE.read_accepted arch.metaData hf)

/-- A new table of x86_64 in which the first 2M of the address space are mapped to a frame. -/
def hugePageWorld (frame : PhysAddr) : World X64PTE ℕ :=
  Call.next (firstTable ⟨true, true⟩ X64PagingMetaData X64PTE 8) (firstWorld X64PTE)
    (.map 0 frame .size2M .READ)

theorem hugePageWorld_reachable (frame : PhysAddr) :
    Reachable Readable (firstTable ⟨true, true⟩ X64PagingMetaData X64PTE 8) (hugePageWorld frame) :=
  (Reachable.new (tryNew_blankWorld 7)).call (.map 0 frame .size2M .READ) rfl

/-- A page in the way of a smaller one. -/
theorem Arch.mapTells_iff_run :
    MapTells (firstTable ⟨true, true⟩ X64PagingMetaData X64PTE 8) (hugePageWorld 0x40000000) 0x1000
        .size4K
        ((firstTable ⟨true, true⟩ X64PagingMetaData X64PTE 8).map 0x1000 0x5000 .size4K .READ
          (hugePageWorld 0x40000000)).1 ↔
      ∀ e k, leafAt X64PagingMetaData (hugePageWorld 0x40000000).mem 0x1000 0x1000 = some (e, k) →
        PageSize.size4K.height < k → paddr e ≠ 0 :=
  Arch.mapTells_iff .x64
    (freshFrames_bumpHandler (by decide) (by decide) : FreshFrames X64PagingMetaData _ bumped)
    (hugePageWorld_reachable 0x40000000) 0x1000 0x5000 .size4K rfl

/-- A huge page of frame zero is taken for a missing table. -/
theorem map_misses_huge_page :
    Reachable Readable (firstTable ⟨true, true⟩ X64PagingMetaData X64PTE 8) (hugePageWorld 0) ∧
      ((firstTable ⟨true, true⟩ X64PagingMetaData X64PTE 8).map 0x1000 0x5000 .size4K .READ
        (hugePageWorld 0)).1 = .err .notMapped ∧
      ¬ MapTells (firstTable ⟨true, true⟩ X64PagingMetaData X64PTE 8) (hugePageWorld 0) 0x1000
        .size4K
        ((firstTable ⟨true, true⟩ X64PagingMetaData X64PTE 8).map 0x1000 0x5000 .size4K .READ
          (hugePageWorld 0)).1 := by
  have hmap : ((firstTable ⟨true, true⟩ X64PagingMetaData X64PTE 8).map 0x1000 0x5000 .size4K .READ
      (hugePageWorld 0)).1 = .err .notMapped := by decide +kernel
  exact ⟨hugePageWorld_reachable 0, hmap, fun h => h.mapped hmap⟩

/-! ### The page that is mapped -/

/-- Between the two states the page of an address has been mapped, as a whole and nothing else. -/
structure MapsWholePage [GenericPTE 64 PTE] (table : PageTable64 B M PTE H) (w w' : World PTE σ)
    (v : VirtAddr) (target : PhysAddr) (size : PageSize) : Prop where
  query {v' : VirtAddr} (h : InRegion M (MemoryAddr.alignDown v (size.toUsize 64)) size.bytes v') :
    ∃ f, (table.query v' w').1 =
      .ok (MemoryAddr.alignDown target (size.toUsize 64) + size.alignOffset v', f, size)
  frame {v' : VirtAddr}
    (h : ¬ InRegion M (MemoryAddr.alignDown v (size.toUsize 64)) size.bytes v') :
    (table.query v' w').1 = (table.query v' w).1

/-- The page of an address starts at the address rounded down. -/
theorem samePage_iff_alignDown (hL : M.LEVELS = 3 ∨ M.LEVELS = 4) {size : PageSize}
    (hsize : size ≠ .size1M) {v v' : VirtAddr} : SamePage M size.height v v' ↔
      InRegion M (MemoryAddr.alignDown v (size.toUsize 64)) size.bytes v' := by
  have hheight := size.height_le
  have hbytes : size.bytes = 2 ^ (12 + 9 * size.height) := by
    rw [← bytes_heightSize hheight, heightSize_height hsize]
  have hdown := PageSize.toNat_alignDown (by decide) size v
  rw [hbytes] at hdown
  have haligned : (MemoryAddr.alignDown v (size.toUsize 64)).toNat % 2 ^ (12 + 9 * size.height) =
      0 := by
    rw [hdown]
    exact Nat.sub_mod_eq_zero_of_mod_eq (Nat.mod_mod _ _).symm
  have hsame : SamePage M size.height v (MemoryAddr.alignDown v (size.toUsize 64)) := by
    refine samePage_of_lt hL hheight ?_
    have hsplit := Nat.div_add_mod v.toNat (2 ^ (12 + 9 * size.height))
    rw [hdown, show v.toNat - v.toNat % 2 ^ (12 + 9 * size.height) =
      2 ^ (12 + 9 * size.height) * (v.toNat / 2 ^ (12 + 9 * size.height)) by omega,
      Nat.mul_div_cancel_left _ (Nat.two_pow_pos _)]
  rw [hbytes, ← samePage_iff_inRegion hL hheight haligned]
  exact ⟨fun h => hsame.symm.trans h, fun h => hsame.trans h⟩

section MapsWhole

variable [GenericPTE 64 PTE] [LawfulPTE M PTE] {P : PTE → Prop} {inUse : σ → Set PhysAddr}
  (self : PageTable64 B M PTE H) {w : World PTE σ} {v : VirtAddr} {target : PhysAddr}
  {size : PageSize} {f : MappingFlags 64}

/-- A successful call of `map` maps the page that was asked for exactly if its size is not 1M. -/
theorem map_wholePage_iff (hH : FreshFrames M H inUse) (I : Inv P M inUse self.rootPaddr w)
    (I' : Inv (fun _ : PTE => True) M inUse self.rootPaddr (self.map v target size f w).2)
    (ht : target.toNat ≤ M.PA_MAX_ADDR) (hf : Readable f)
    (hok : (self.map v target size f w).1 = .ok ()) :
    MapsWholePage self w (self.map v target size f w).2 v target size ↔ size ≠ .size1M := by
  have hL := LawfulPTE.levels (M := M) PTE
  obtain ⟨⟨err, herr⟩, -⟩ | ⟨-, -, hleaf⟩ :=
    map_leaf self I hH target size (LawfulPTE.read_accepted M hf) v
  · rw [hok] at herr
    nomatch herr
  rw [LawfulPTE.presentWith_read M hf, if_pos rfl] at hleaf
  constructor
  · -- a page of 1M is mapped on the last level, where pages have 4K
    rintro h rfl
    have hself : InRegion M (MemoryAddr.alignDown v (PageSize.size1M.toUsize 64))
        PageSize.size1M.bytes v := by
      refine ⟨v.toNat % PageSize.size1M.bytes, Nat.mod_lt _ (by decide), ?_⟩
      rw [PageSize.toNat_alignDown (by decide), Nat.sub_add_cancel (Nat.mod_le _ _)]
    obtain ⟨f', hquery⟩ := h.query hself
    rw [query_leaf self I', hleaf, if_pos (SamePage.refl _ v)] at hquery
    have hsize := congrArg Prod.snd (Prod.mk.inj (Res.ok.inj hquery)).2
    nomatch hsize
  · -- otherwise the new leaf covers the addresses of the page
    intro hsize
    refine ⟨fun {v'} hv' => ?_, fun {v'} hv' => ?_⟩
    · rw [← samePage_iff_alignDown hL hsize] at hv'
      rw [query_leaf self I', hleaf, if_pos hv']
      simp only [heightSize_height hsize, paddr_alignDown ht size f]
      exact ⟨_, rfl⟩
    · rw [← samePage_iff_alignDown hL hsize] at hv'
      rw [query_leaf self I', hleaf, if_neg hv', query_leaf self I]

end MapsWhole

/-- The same for every architecture. -/
theorem Arch.mapsWholePage_iff (arch : Arch) {H : PagingHandler 64 σ} {inUse : σ → Set PhysAddr}
    (hH : FreshFrames arch.metaData H inUse) {self : PageTable64 B arch.metaData arch.PTE H}
    {w : World arch.PTE σ} (hw : Reachable (fun f => debugAssert arch.PTE f = true) self w)
    (v : VirtAddr) {target : PhysAddr} (ht : target.toNat ≤ arch.metaData.PA_MAX_ADDR)
    {size : PageSize} {f : MappingFlags 64} (hf : Readable f)
    (hok : (self.map v target size f w).1 = .ok ()) :
    MapsWholePage self w (self.map v target size f w).2 v target size ↔ size ≠ .size1M := by
  have hall : ∀ f', debugAssert arch.PTE f' = true → Allowed (fun _ : arch.PTE => True) f' :=
    fun _ h => allowed_true h
  have hw' := hw.call (.map v target size f) (LawfulPTE.read_accepted arch.metaData hf)
  exact map_wholePage_iff self hH (hw.inv hH self hall) (hw'.inv hH self hall) ht
    hf hok

theorem Arch.mapsWholePage_iff_run :
    MapsWholePage (firstTable ⟨true, true⟩ X64PagingMetaData X64PTE 8) (firstWorld X64PTE)
        (hugePageWorld 0x40000000) 0 0x40000000 .size2M ↔ PageSize.size2M ≠ .size1M :=
  Arch.mapsWholePage_iff .x64
    (freshFrames_bumpHandler (by decide) (by decide) : FreshFrames X64PagingMetaData _ bumped)
    (.new (tryNew_blankWorld 7)) 0 (by decide) rfl (by decide +kernel)

/-- A page of 1M is mapped as one of 4K. -/
theorem map_one_megabyte :
    Reachable Readable (firstTable ⟨true, true⟩ X64PagingMetaData X64PTE 8) (firstWorld X64PTE) ∧
      ((firstTable ⟨true, true⟩ X64PagingMetaData X64PTE 8).map 0 0x40000000 .size1M .READ
        (firstWorld X64PTE)).1 = .ok () ∧
      ¬ MapsWholePage (firstTable ⟨true, true⟩ X64PagingMetaData X64PTE 8) (firstWorld X64PTE)
        ((firstTable ⟨true, true⟩ X64PagingMetaData X64PTE 8).map 0 0x40000000 .size1M .READ
          (firstWorld X64PTE)).2 0 0x40000000 .size1M := by
  refine ⟨.new (tryNew_blankWorld 7), by decide +kernel, fun h => ?_⟩
  obtain ⟨f, hquery⟩ := h.query (⟨0, by decide, rfl⟩ : InRegion _ _ _ 0)
  have hsize : ((firstTable ⟨true, true⟩ X64PagingMetaData X64PTE 8).query 0
      ((firstTable ⟨true, true⟩ X64PagingMetaData X64PTE 8).map 0 0x40000000 .size1M .READ
        (firstWorld X64PTE)).2).1 = .ok (0x40000000, .READ, .size4K) := by decide +kernel
  rw [hsize] at hquery
  nomatch congrArg Prod.snd (Prod.mk.inj (Res.ok.inj hquery)).2

end PageTableMultiarch
