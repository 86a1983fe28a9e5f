/-
`walk` enumerates a page table.

`FullWalk` says what it means that a list of calls enumerates a page table: each present
entry is reported once before and once after the entries below it, in the order of the
addresses, and the leaves among them are the pages for which `query` succeeds.

* `prefix_iff_within` — entries below an entry lie in its addresses;
* `fullWalk_of_present` — the walk enumerates a table whose table entries are present;
* `Arch.walk_enumerates` — this is so on x86_64, AArch64 and RISC-V;
* `la64_walk_reports_iff` — on LoongArch64 the walk ends at the root table.
-/
import PageTableMultiarch.Table64.WalkCalls
import PageTableMultiarch.Entry.Arch

namespace PageTableMultiarch

open GenericPTE Radix

variable {B : Build} {M : PagingMetaData} {PTE σ : Type} {H : PagingHandler 64 σ}

/-! ### What is reported -/

namespace Visited

/-- The number of levels under the level of an entry. -/
def height (M : PagingMetaData) (x : Visited PTE) : ℕ := M.LEVELS - 1 - x.level

/-- The number of bytes that an entry covers. -/
def bytes (M : PagingMetaData) (x : Visited PTE) : ℕ := 2 ^ (12 + 9 * x.height M)

/-- The entry covers an address. -/
def Covers (M : PagingMetaData) (x : Visited PTE) (v : VirtAddr) : Prop :=
  x.vaddr.toNat ≤ v.toNat % M.space ∧ v.toNat % M.space < x.vaddr.toNat + x.bytes M

/-- The second entry is the first one or lies below it. -/
def Within (M : PagingMetaData) (x y : Visited PTE) : Prop :=
  x.level ≤ y.level ∧ x.vaddr.toNat ≤ y.vaddr.toNat ∧ y.vaddr.toNat < x.vaddr.toNat + x.bytes M

/-- The order of the addresses, from the root down. -/
def Before (x y : Visited PTE) : Prop :=
  x.vaddr.toNat < y.vaddr.toNat ∨ x.vaddr = y.vaddr ∧ x.level < y.level

/-- Huge entries and entries of the last level. -/
def IsLeaf [GenericPTE 64 PTE] (M : PagingMetaData) (x : Visited PTE) : Prop :=
  x.level = M.LEVELS - 1 ∨ isHuge x.entry = true

end Visited

/-- The entry of a call of `pre_func`. -/
def WalkCall.pre? : WalkCall PTE → Option (Visited PTE)
  | pre x => some x
  | post _ => none

variable [GenericPTE 64 PTE]

/-- An entry of the tables of a page table, at the address that leads to it. -/
structure Located (M : PagingMetaData) (m : PhysAddr → Fin ENTRY_COUNT → PTE) (root : PhysAddr)
    (x : Visited PTE) : Prop where
  level_lt : x.level < M.LEVELS
  vaddr_lt : x.vaddr.toNat < M.space
  aligned : x.vaddr.toNat % x.bytes M = 0
  index_eq : x.index = (tableIndex (12 + 9 * x.height M) x.vaddr).val
  entry_eq : entryAt child m root (pathTo M (x.height M) x.vaddr) = some x.entry

/-- A present entry. -/
structure IsEntry (M : PagingMetaData) (m : PhysAddr → Fin ENTRY_COUNT → PTE) (root : PhysAddr)
    (x : Visited PTE) : Prop extends Located M m root x where
  present : isPresent x.entry = true

/-- The calls of `pre_func` and `post_func` enumerate a page table. -/
structure FullWalk (self : PageTable64 B M PTE H) (w : World PTE σ) (calls : List (WalkCall PTE)) :
    Prop where
  pre_mem (x : Visited PTE) : .pre x ∈ calls ↔ IsEntry M w.mem self.rootPaddr x
  post_mem (x : Visited PTE) : .post x ∈ calls ↔ IsEntry M w.mem self.rootPaddr x
  nested {x : Visited PTE} : IsEntry M w.mem self.rootPaddr x → ∃ before below after,
    calls = before ++ .pre x :: (below ++ .post x :: after) ∧
    (∀ c ∈ below, x.Within M c.visited ∧ c.visited ≠ x) ∧
    ∀ c ∈ before ++ after, ¬ x.Within M c.visited
  ordered : (calls.filterMap WalkCall.pre?).Pairwise Visited.Before
  query_leaf {x : Visited PTE} : IsEntry M w.mem self.rootPaddr x → x.IsLeaf M →
    ∀ v, x.Covers M v → (self.query v w).1 = .ok (paddr x.entry +
      (heightSize (x.height M)).alignOffset v, flags x.entry, heightSize (x.height M))
  query_vaddr {x : Visited PTE} : IsEntry M w.mem self.rootPaddr x → x.IsLeaf M →
    (self.query x.vaddr w).1 = .ok (paddr x.entry, flags x.entry, heightSize (x.height M))
  leaf_query {v : VirtAddr} {r : PhysAddr × MappingFlags 64 × PageSize} :
    (self.query v w).1 = .ok r → ∃ x, (IsEntry M w.mem self.rootPaddr x ∧ x.IsLeaf M ∧
      x.Covers M v) ∧ ∀ y, IsEntry M w.mem self.rootPaddr y ∧ y.IsLeaf M ∧ y.Covers M v → y = x

/-! ### Reports and paths -/

section Located

variable (hL : M.LEVELS = 3 ∨ M.LEVELS = 4) {m : PhysAddr → Fin ENTRY_COUNT → PTE}
  {root : PhysAddr} {x y : Visited PTE} {ρ : List (Fin ENTRY_COUNT)}
include hL

omit [GenericPTE 64 PTE] in
theorem space_le : M.space ≤ 2 ^ 48 := by
  rw [PagingMetaData.space]
  obtain h | h := hL
  · rw [h]
    decide
  · rw [h]

/-- The path of an entry starts at its address. -/
theorem Located.pathOffset_eq (hx : Located M m root x) :
    pathOffset M.LEVELS (pathTo M (x.height M) x.vaddr) = x.vaddr.toNat := by
  have hk : x.height M ≤ M.LEVELS := by
    rw [Visited.height]
    omega
  have haligned := Nat.div_add_mod' x.vaddr.toNat (x.bytes M)
  rw [hx.aligned, Nat.add_zero] at haligned
  rw [pathOffset_pathTo hL hk, Nat.mod_eq_of_lt hx.vaddr_lt]
  exact haligned

theorem Located.length_path (hx : Located M m root x) :
    (pathTo M (x.height M) x.vaddr).length = x.level + 1 := by
  have := hx.level_lt
  rw [length_pathTo hL, Visited.height]
  omega

/-- An entry is reported where it is. -/
theorem report_eq_some (hρ : ρ.length ≤ M.LEVELS) :
    report m (M.LEVELS - 1) root 0 0 ρ = some x ↔
      Located M m root x ∧ pathTo M (x.height M) x.vaddr = ρ := by
  have hlevels : M.LEVELS - 1 + 1 = M.LEVELS := by omega
  have hspace := space_le hL
  have hzero : ∀ v : VirtAddr, 0 + v = v := fun v => BitVec.zero_add v
  rw [report, Option.map_eq_some_iff, hlevels]
  simp only [hzero, Nat.zero_add]
  constructor
  · rintro ⟨e, he, rfl⟩
    have hne : ρ ≠ [] := by
      rintro rfl
      exact absurd he (by simp [entryAt])
    have hpos := List.length_pos_iff.mpr hne
    -- the offset of a path is an address, and its path is the one it came from
    have hlt : pathOffset M.LEVELS ρ < M.space := pathOffset_lt hρ
    have hvaddr : (BitVec.ofNat 64 (pathOffset M.LEVELS ρ)).toNat = pathOffset M.LEVELS ρ := by
      rw [BitVec.toNat_ofNat, Nat.mod_eq_of_lt (by omega)]
    have hpath := pathTo_of_mod hL hρ (v := BitVec.ofNat 64 (pathOffset M.LEVELS ρ))
      (by rw [hvaddr, Nat.mod_eq_of_lt hlt])
    have hheight : M.LEVELS - 1 - (ρ.length - 1) = M.LEVELS - ρ.length := by omega
    have hlast := getLast?_pathTo hL (show M.LEVELS - ρ.length < M.LEVELS by omega)
      (BitVec.ofNat 64 (pathOffset M.LEVELS ρ))
    rw [hpath] at hlast
    refine ⟨⟨?_, ?_, ?_, ?_, ?_⟩, ?_⟩
    · show ρ.length - 1 < M.LEVELS
      omega
    · exact hvaddr.trans_lt hlt
    · simp only [Visited.bytes, Visited.height, hheight, hvaddr]
      exact Nat.mod_eq_zero_of_dvd (two_pow_dvd_pathOffset hρ)
    · simp only [Visited.height, hheight, hlast]
      rfl
    · simp only [Visited.height, hheight, hpath]
      exact he
    · simp only [Visited.height, hheight, hpath]
  · rintro ⟨hx, rfl⟩
    have hk : x.height M < M.LEVELS := by
      have := hx.level_lt
      rw [Visited.height]
      omega
    refine ⟨x.entry, hx.entry_eq, ?_⟩
    rw [hx.pathOffset_eq hL, BitVec.ofNat_toNat, BitVec.setWidth_eq, getLast?_pathTo hL hk,
      hx.length_path hL, Nat.add_sub_cancel, Option.elim_some, ← hx.index_eq]

/-- An entry covers the addresses of its page. -/
theorem Located.samePage_iff_covers (hx : Located M m root x) (v : VirtAddr) :
    SamePage M (x.height M) x.vaddr v ↔ x.Covers M v := by
  have hk : x.height M < M.LEVELS := by
    have := hx.level_lt
    rw [Visited.height]
    omega
  have hpos : 0 < x.bytes M := Nat.two_pow_pos _
  have haligned := Nat.div_add_mod' x.vaddr.toNat (x.bytes M)
  rw [hx.aligned, Nat.add_zero] at haligned
  rw [samePage_iff_of_lt hL hk, Nat.mod_eq_of_lt hx.vaddr_lt, Visited.Covers]
  change x.vaddr.toNat / x.bytes M = v.toNat % M.space / x.bytes M ↔ _
  rw [eq_comm, Nat.div_eq_iff hpos, haligned]
  omega

/-- An entry lies below another one when its path goes through it. -/
theorem prefix_iff_within (hx : Located M m root x) (hy : Located M m root y) :
    pathTo M (x.height M) x.vaddr <+: pathTo M (y.height M) y.vaddr ↔ x.Within M y := by
  have hxl := hx.level_lt
  have hyl := hy.level_lt
  have hcovers : SamePage M (x.height M) x.vaddr y.vaddr ↔
      x.vaddr.toNat ≤ y.vaddr.toNat ∧ y.vaddr.toNat < x.vaddr.toNat + x.bytes M := by
    rw [hx.samePage_iff_covers hL, Visited.Covers, Nat.mod_eq_of_lt hy.vaddr_lt]
  rw [Visited.Within, ← hcovers, List.prefix_iff_eq_take, length_pathTo hL, SamePage]
  by_cases hle : x.level ≤ y.level
  · rw [pathTo, pathTo, List.take_take, Nat.min_eq_left (by simp only [Visited.height]; omega)]
    exact (and_iff_right hle).symm
  · refine iff_of_false (fun h => ?_) fun h => hle h.1
    have hlen := congrArg List.length h
    rw [List.length_take, length_pathTo hL, length_pathTo hL] at hlen
    simp only [Visited.height] at hlen
    omega

end Located

/-! ### The calls -/

/-- Entries that point to tables are present. -/
def TablesPresent (M : PagingMetaData) (m : PhysAddr → Fin ENTRY_COUNT → PTE) (root : PhysAddr) :
    Prop :=
  ∀ ρ e, ρ.length < M.LEVELS → entryAt child m root ρ = some e → child e ≠ none → isPresent e = true

section Calls

variable (hL : M.LEVELS = 3 ∨ M.LEVELS = 4) {m : PhysAddr → Fin ENTRY_COUNT → PTE}
  {root : PhysAddr} {x : Visited PTE} {ρ : List (Fin ENTRY_COUNT)}
include hL

/-- What the traversal enters is an entry, and reported. -/
theorem isEntry_of_enter
    (h : .enter ρ ∈ traverse child isPresent entryIndices m (M.LEVELS - 1) root) :
    ∃ x, IsEntry M m root x ∧ pathTo M (x.height M) x.vaddr = ρ ∧
      report m (M.LEVELS - 1) root 0 0 ρ = some x := by
  obtain ⟨hlen, hseen⟩ := (enter_mem_traverse mem_entryIndices).mp h
  obtain ⟨e, he, hpresent⟩ := hseen.exists_entryAt
  obtain ⟨x, hx, hentry⟩ : ∃ x, report m (M.LEVELS - 1) root 0 0 ρ = some x ∧ x.entry = e := by
    rw [report, he]
    exact ⟨_, rfl, rfl⟩
  obtain ⟨hlocated, hpath⟩ := (report_eq_some hL (by omega)).mp hx
  exact ⟨x, ⟨hlocated, by rwa [hentry]⟩, hpath, hx⟩

/-- Every step of the traversal reports an entry. -/
theorem call_of_event {y : Event (Fin ENTRY_COUNT)}
    (h : y ∈ traverse child isPresent entryIndices m (M.LEVELS - 1) root) :
    ∃ c, reportCall m (M.LEVELS - 1) root 0 0 y = some c ∧ IsEntry M m root c.visited ∧
      pathTo M (c.visited.height M) c.visited.vaddr = y.path := by
  cases y with
  | enter ρ =>
    obtain ⟨x, hx, hpath, hreport⟩ := isEntry_of_enter hL h
    exact ⟨.pre x, by rw [reportCall, hreport]; rfl, hx, hpath⟩
  | leave ρ =>
    obtain ⟨x, hx, hpath, hreport⟩ := isEntry_of_enter hL (leave_mem_traverse.mp h)
    exact ⟨.post x, by rw [reportCall, hreport]; rfl, hx, hpath⟩

/-- The calls are about entries. -/
theorem isEntry_of_mem {c : WalkCall PTE} (h : c ∈ walkCalls M m root) :
    IsEntry M m root c.visited := by
  obtain ⟨y, hy, hc⟩ := List.mem_filterMap.mp h
  obtain ⟨c', hc', hentry, -⟩ := call_of_event hL hy
  rw [hc, Option.some_inj] at hc'
  rwa [hc']

/-- The calls for an entry. -/
theorem report_of_isEntry (hx : IsEntry M m root x) :
    report m (M.LEVELS - 1) root 0 0 (pathTo M (x.height M) x.vaddr) = some x := by
  have hlen := hx.length_path hL
  have hlevel := hx.level_lt
  exact (report_eq_some hL (by omega)).mpr ⟨hx.toLocated, rfl⟩

variable (hT : TablesPresent M m root)
include hT

/-- Every entry is entered. -/
theorem enter_of_isEntry (hx : IsEntry M m root x) :
    .enter (pathTo M (x.height M) x.vaddr) ∈
      traverse child isPresent entryIndices m (M.LEVELS - 1) root := by
  have hlen := hx.length_path hL
  have hlevel := hx.level_lt
  refine (enter_mem_traverse mem_entryIndices).mpr ⟨by omega, ?_⟩
  refine seen_of_entryAt hx.entry_eq hx.present fun τ e hτ he => hT τ e ?_ he
  omega

theorem pre_mem_walkCalls : .pre x ∈ walkCalls M m root ↔ IsEntry M m root x := by
  constructor
  · intro h
    exact isEntry_of_mem hL h
  · intro hx
    refine List.mem_filterMap.mpr ⟨_, enter_of_isEntry hL hT hx, ?_⟩
    rw [reportCall, report_of_isEntry hL hx]
    rfl

theorem post_mem_walkCalls : .post x ∈ walkCalls M m root ↔ IsEntry M m root x := by
  constructor
  · intro h
    exact isEntry_of_mem hL h
  · intro hx
    refine List.mem_filterMap.mpr ⟨_, leave_mem_traverse.mpr (enter_of_isEntry hL hT hx), ?_⟩
    rw [reportCall, report_of_isEntry hL hx]
    rfl

/-- Between the calls for an entry are those for the entries below it, and there are no others. -/
theorem walkCalls_nested (hx : IsEntry M m root x) : ∃ before below after,
    walkCalls M m root = before ++ .pre x :: (below ++ .post x :: after) ∧
    (∀ c ∈ below, x.Within M c.visited ∧ c.visited ≠ x) ∧
    ∀ c ∈ before ++ after, ¬ x.Within M c.visited := by
  have henter := enter_of_isEntry hL hT hx
  obtain ⟨A, C, D, hsplit, hC, hAD⟩ := traverse_split nodup_entryIndices henter
  -- a call is within `x` when its path goes through that of `x`
  have hcall : ∀ {l : List (Event (Fin ENTRY_COUNT))},
      (∀ y ∈ l, y ∈ traverse child isPresent entryIndices m (M.LEVELS - 1) root) →
      ∀ c ∈ l.filterMap (reportCall m (M.LEVELS - 1) root 0 0), ∃ y ∈ l,
        (pathTo M (x.height M) x.vaddr <+: y.path ↔ x.Within M c.visited) ∧
        pathTo M (c.visited.height M) c.visited.vaddr = y.path := by
    intro l hl c hc
    obtain ⟨y, hy, hyc⟩ := List.mem_filterMap.mp hc
    obtain ⟨c', hc', hentry, hpath⟩ := call_of_event hL (hl y hy)
    obtain rfl : c = c' := Option.some_inj.mp (hyc.symm.trans hc')
    refine ⟨y, hy, ?_, hpath⟩
    rw [← hpath, prefix_iff_within hL hx.toLocated hentry.toLocated]
  have hpre : reportCall m (M.LEVELS - 1) root 0 0 (.enter (pathTo M (x.height M) x.vaddr)) =
      some (.pre x) := by
    rw [reportCall, report_of_isEntry hL hx]
    rfl
  have hpost : reportCall m (M.LEVELS - 1) root 0 0 (.leave (pathTo M (x.height M) x.vaddr)) =
      some (.post x) := by
    rw [reportCall, report_of_isEntry hL hx]
    rfl
  refine ⟨A.filterMap (reportCall m (M.LEVELS - 1) root 0 0),
    C.filterMap (reportCall m (M.LEVELS - 1) root 0 0),
    D.filterMap (reportCall m (M.LEVELS - 1) root 0 0), ?_, fun c hc => ?_, fun c hc => ?_⟩
  · rw [walkCalls, callsBelow, hsplit, List.filterMap_append, List.filterMap_cons_some hpre,
      List.filterMap_append, List.filterMap_cons_some hpost]
  · obtain ⟨y, hy, hiff, hpath⟩ := hcall (fun y hy => by rw [hsplit]; simp [hy]) c hc
    obtain ⟨hpre, hne⟩ := hC y hy
    refine ⟨hiff.mp hpre, ?_⟩
    rintro rfl
    exact hne hpath.symm
  · rw [← List.filterMap_append] at hc
    obtain ⟨y, hy, hiff, -⟩ := hcall (fun y hy => by
      rw [hsplit]
      obtain hy | hy := List.mem_append.mp hy <;> simp [hy]) c hc
    exact fun h => hAD y hy (hiff.mpr h)

omit hT in
/-- Entries are reported in the order of their addresses. -/
theorem walkCalls_ordered : ((walkCalls M m root).filterMap WalkCall.pre?).Pairwise
    Visited.Before := by
  -- the first reports are the entries as they are entered
  have henters : (walkCalls M m root).filterMap WalkCall.pre? =
      (enters (traverse child isPresent entryIndices m (M.LEVELS - 1) root)).filterMap
        (report m (M.LEVELS - 1) root 0 0) := by
    rw [walkCalls, callsBelow, enters, List.filterMap_filterMap, List.filterMap_filterMap]
    refine List.filterMap_congr fun y _ => ?_
    cases y with
    | enter ρ =>
      rw [reportCall, Event.enterPath, Option.bind_some]
      cases report m (M.LEVELS - 1) root 0 0 ρ <;> rfl
    | leave ρ =>
      rw [reportCall, Event.enterPath, Option.bind_none]
      cases report m (M.LEVELS - 1) root 0 0 ρ <;> rfl
  rw [henters, List.pairwise_filterMap]
  refine (pairwise_enters pairwise_entryIndices).imp_of_mem fun {ρ τ} hρ hτ hlt x hx y hy => ?_
  have hlen : ∀ {ρ}, ρ ∈ enters (traverse child isPresent entryIndices m (M.LEVELS - 1) root) →
      ρ.length ≤ M.LEVELS := by
    intro ρ hρ
    have := ((enter_mem_traverse mem_entryIndices).mp (mem_enters.mp hρ)).1
    omega
  obtain ⟨hlx, rfl⟩ := (report_eq_some hL (hlen hρ)).mp hx
  obtain ⟨hly, rfl⟩ := (report_eq_some hL (hlen hτ)).mp hy
  have hlex := pathOffset_lex hlt (hlen hρ) (hlen hτ)
  rw [hlx.pathOffset_eq hL, hly.pathOffset_eq hL, hlx.length_path hL, hly.length_path hL] at hlex
  refine hlex.imp_right fun h => ⟨BitVec.eq_of_toNat_eq h.1, by omega⟩

end Calls

/-! ### The walk of a page table -/

section Inv

variable [LawfulPTE M PTE] {P : PTE → Prop} {inUse : σ → Set PhysAddr}
  {self : PageTable64 B M PTE H} {w : World PTE σ} {x y : Visited PTE}

/-- Where a table's entry is present, so are those that lead to entries. -/
theorem Inv.tablesPresent (I : Inv P M inUse self.rootPaddr w)
    (hT : ∀ p, ValidFrame M p → isPresent (newTable p : PTE) = true) :
    TablesPresent M w.mem self.rootPaddr := by
  intro ρ e hρ he hc
  obtain ⟨slot, hslot, rfl⟩ := exists_slotAt he
  obtain ⟨-, p, hp, heq⟩ | hleaf := I.entries hslot hρ.le
  · rw [World.entry] at heq
    rw [heq]
    exact hT p hp
  · exact absurd (hleaf.child_eq_none hρ.ne) hc

variable (I : Inv P M inUse self.rootPaddr w)
include I

/-- A leaf that is reported maps the addresses that it covers. -/
theorem IsEntry.leafAt_eq (hx : IsEntry M w.mem self.rootPaddr x) (hleaf : x.IsLeaf M)
    {v : VirtAddr}
    (hv : x.Covers M v) : leafAt M w.mem self.rootPaddr v = some (x.entry, x.height M) := by
  have hL := LawfulPTE.levels (M := M) PTE
  have hlevel := hx.level_lt
  have hlen := hx.length_path hL
  obtain ⟨slot, hslot, hentry⟩ := exists_slotAt hx.entry_eq
  have hsame := (hx.samePage_iff_covers hL v).mpr hv
  by_cases hlast : x.level = M.LEVELS - 1
  · have hk : x.height M = 0 := by
      rw [Visited.height]
      omega
    rw [hslot.leafAt_samePage hL (by omega) (Or.inl hk) hsame, hentry,
      if_pos ⟨hx.present, Or.inl hk⟩]
  · have hhuge := hleaf.resolve_left hlast
    -- a huge entry is on the levels where pages are
    have hk : x.height M ≤ 2 := by
      obtain hempty | ⟨-, hlen' | ⟨-, hlen'⟩⟩ :=
        I.leafEntry_of_isHuge hslot (by omega) (by rw [World.entry, hentry]; exact hhuge)
      · rw [World.entry, hentry] at hempty
        have hpresent := hx.present
        rw [hempty, LawfulPTE.isPresent_empty M] at hpresent
        exact absurd hpresent (by simp)
      · omega
      · rw [Visited.height]
        omega
    rw [hslot.leafAt_samePage hL hk (Or.inr ?_) hsame, hentry, if_pos ⟨hx.present, Or.inr hhuge⟩]
    rw [hentry]
    exact child_of_isHuge hhuge

omit I in
/-- The leaf that maps an address is reported at the start of its page. -/
theorem exists_isEntry_of_leafAt {v : VirtAddr} {e : PTE} {k : ℕ}
    (h : leafAt M w.mem self.rootPaddr v = some (e, k)) :
    ∃ x, IsEntry M w.mem self.rootPaddr x ∧ x.IsLeaf M ∧ x.Covers M v := by
  have hL := LawfulPTE.levels (M := M) PTE
  obtain ⟨slot, hs, rfl, hpresent⟩ := leaf_eq_some h
  obtain ⟨hslot, hk, hhuge⟩ := slotAt_of_seek hL hs
  have hlen : (pathTo M k v).length = M.LEVELS - k := length_pathTo hL k v
  obtain ⟨x, hx, hentry, hlevel⟩ : ∃ x, report w.mem (M.LEVELS - 1) self.rootPaddr 0 0
      (pathTo M k v) = some x ∧ x.entry = w.mem slot.table slot.index ∧
      x.level = M.LEVELS - k - 1 := by
    rw [report, hslot.entryAt, Option.map_some, hlen]
    exact ⟨_, rfl, rfl, by simp⟩
  obtain ⟨hlocated, hpath⟩ := (report_eq_some hL (by omega)).mp hx
  have hheight : x.height M = k := by
    rw [Visited.height]
    omega
  refine ⟨x, ⟨hlocated, by rwa [hentry]⟩, ?_, (hlocated.samePage_iff_covers hL v).mp ?_⟩
  · obtain rfl | hpos := Nat.eq_zero_or_pos k
    · exact Or.inl (by omega)
    · exact Or.inr (by rw [hentry]; exact hhuge hpos)
  · rw [hheight] at hpath ⊢
    exact hpath

/-- The walk enumerates a table whose table entries are present. -/
theorem fullWalk_of_present (hT : ∀ p, ValidFrame M p → isPresent (newTable p : PTE) = true) :
    FullWalk self w (walkCalls M w.mem self.rootPaddr) := by
  have hL := LawfulPTE.levels (M := M) PTE
  have hpresent := I.tablesPresent hT
  refine
    { pre_mem := fun x => pre_mem_walkCalls hL hpresent
      post_mem := fun x => post_mem_walkCalls hL hpresent
      nested := walkCalls_nested hL hpresent
      ordered := walkCalls_ordered hL
      query_leaf := fun {x} hx hleaf v hv => ?_
      query_vaddr := fun {x} hx hleaf => ?_
      leaf_query := fun {v r} hr => ?_ }
  · rw [query_leaf self I, hx.leafAt_eq I hleaf hv]
  · have hv := (hx.samePage_iff_covers hL x.vaddr).mp (SamePage.refl _ _)
    have hl := hx.leafAt_eq I hleaf hv
    -- the reported address is the first one of the page
    have hoff : (heightSize (x.height M)).alignOffset x.vaddr = 0#64 := by
      apply BitVec.eq_of_toNat_eq
      rw [PageSize.toNat_alignOffset (by decide), bytes_heightSize (leafAt_height_le hl)]
      exact hx.aligned
    rw [query_leaf self I, hl]
    simp only [hoff, BitVec.add_zero]
  · rw [query_leaf self I] at hr
    cases hl : leafAt M w.mem self.rootPaddr v with
    | none =>
      rw [hl] at hr
      exact absurd hr (by simp)
    | some leaf =>
      obtain ⟨x, hx, hleaf, hv⟩ := exists_isEntry_of_leafAt hl
      refine ⟨x, ⟨hx, hleaf, hv⟩, ?_⟩
      rintro y ⟨hy, hyleaf, hyv⟩
      -- both are the leaf of the address
      have heq := (hy.leafAt_eq I hyleaf hyv).symm.trans (hx.leafAt_eq I hleaf hv)
      rw [Option.some_inj, Prod.mk.injEq] at heq
      have hpath : pathTo M (y.height M) y.vaddr = pathTo M (x.height M) x.vaddr := by
        rw [heq.2]
        exact (heq.2 ▸ (hy.samePage_iff_covers hL v).mpr hyv).trans
          ((hx.samePage_iff_covers hL v).mpr hv).symm
      have hreport := report_of_isEntry hL hy
      rw [hpath, report_of_isEntry hL hx, Option.some_inj] at hreport
      exact hreport.symm

end Inv

/-- Where the entries of tables are present, `walk` enumerates every reachable page table. -/
theorem Arch.walk_enumerates (arch : Arch) (harch : arch ≠ .la64)
    {H : PagingHandler 64 σ} {inUse : σ → Set PhysAddr} (hH : FreshFrames arch.metaData H inUse)
    {self : PageTable64 B arch.metaData arch.PTE H} {w : World arch.PTE σ}
    (hw : Reachable Readable self w) {limit : Usize} (hlimit : 512 ≤ limit.toNat) :
    FullWalk self w (self.reported limit w) ∧
      ∀ {α : Type} (preFunc postFunc : Option (Visitor arch.PTE α)) (a : α), ∃ acc,
        self.walk limit preFunc postFunc (w, a) = (.ok (), w.touch acc,
          (self.reported limit w).foldl (WalkCall.run preFunc postFunc) a) := by
  have I := hw.inv hH self fun f => allowed_read arch.metaData
  have hcalls := reported_eq hlimit self w
  constructor
  · rw [hcalls]
    exact fullWalk_of_present I fun p _ => Arch.isPresent_newTable harch p
  · intro α preFunc postFunc a
    rw [hcalls]
    exact walk_spec hlimit self w a

/-- A new table in which a page of each size has been mapped. -/
def threeSizesWorld (M : PagingMetaData) (PTE : Type) [GenericPTE 64 PTE] : World PTE ℕ :=
  [Call.map 0x1000 0x40000000 .size4K .READ, .map 0x200000 0x40000000 .size2M .READ,
    .map 0x40000000 0x40000000 .size1G .READ].foldl
      (fun w c => c.next (firstTable ⟨true, true⟩ M PTE 8) w) (firstWorld PTE)

theorem threeSizesWorld_reachable (M : PagingMetaData) (PTE : Type) [GenericPTE 64 PTE] :
    Reachable Readable (firstTable ⟨true, true⟩ M PTE 8) (threeSizesWorld M PTE) := by
  have hnew : Reachable Readable (firstTable ⟨true, true⟩ M PTE 8) (firstWorld PTE) :=
    .new (tryNew_blankWorld 7)
  exact ((hnew.call (.map 0x1000 0x40000000 .size4K .READ) rfl).call
    (.map 0x200000 0x40000000 .size2M .READ) rfl).call
      (.map 0x40000000 0x40000000 .size1G .READ) rfl

/-- The walk of an Sv39 table with a page of each size. -/
theorem Arch.walk_enumerates_threeSizes :
    FullWalk (firstTable ⟨true, true⟩ Sv39MetaData (Rv64PTE false) 8)
      (threeSizesWorld Sv39MetaData (Rv64PTE false))
      ((firstTable ⟨true, true⟩ Sv39MetaData (Rv64PTE false) 8).reported 512
        (threeSizesWorld Sv39MetaData (Rv64PTE false))) :=
  (Arch.walk_enumerates (.sv39 false) (by decide)
    (freshFrames_bumpHandler (by decide) (by decide) :
      FreshFrames Sv39MetaData (bumpHandler 8) bumped)
    (threeSizesWorld_reachable _ _) (by decide)).1

/-! ### LoongArch64 -/

section La64

variable {P : LA64PTE → Prop} {inUse : σ → Set PhysAddr} {root : PhysAddr} {w : World LA64PTE σ}

/-- No entry of the root table is present. -/
theorem la64_root_absent (I : Inv P LA64MetaData inUse root w) (i : Fin ENTRY_COUNT) :
    isPresent (w.mem root i) = false := by
  have hslot : SlotAt w.mem root [i] ⟨root, i⟩ := ⟨[], rfl, rfl⟩
  have hlevels : LA64MetaData.LEVELS = 4 := rfl
  obtain ⟨-, p, -, heq⟩ | hempty | ⟨-, hlen | ⟨-, hlen⟩⟩ :=
    I.entries hslot (show 1 ≤ LA64MetaData.LEVELS by decide)
  · exact (congrArg isPresent heq).trans (LA64PTE.isPresent_newTable p)
  · exact (congrArg isPresent hempty).trans (LawfulPTE.isPresent_empty LA64MetaData)
  · rw [List.length_singleton] at hlen
    omega
  · rw [List.length_singleton] at hlen
    omega

/-- So the walk calls nothing. -/
theorem la64_walkCalls (I : Inv P LA64MetaData inUse root w) :
    walkCalls LA64MetaData w.mem root = [] := by
  refine List.eq_nil_iff_forall_not_mem.mpr fun c hc => ?_
  obtain ⟨y, hy, -⟩ := List.mem_filterMap.mp hc
  obtain ⟨i, -, hpresent, -⟩ := mem_traverse.mp hy
  rw [la64_root_absent I] at hpresent
  exact absurd hpresent (by simp)

end La64

/-- On LoongArch64 the walk calls nothing, so it reports the entries that map addresses only
where no address is mapped. -/
theorem la64_walk_reports_iff {H : PagingHandler 64 σ} {inUse : σ → Set PhysAddr}
    (hH : FreshFrames LA64MetaData H inUse) {self : PageTable64 B LA64MetaData LA64PTE H}
    {w : World LA64PTE σ} (hw : Reachable Readable self w) :
    ((∀ v frame f size, (self.query v w).1 = .ok (frame, f, size) →
        ∃ x, .pre x ∈ self.reported (BitVec.allOnes 64) w ∧ x.Covers LA64MetaData v ∧
          heightSize (x.height LA64MetaData) = size) ↔
      ∀ v, (self.query v w).1 = .err .notMapped) ∧
    ∀ {α : Type} (preFunc postFunc : Option (Visitor LA64PTE α)) (a : α),
      (self.walk (BitVec.allOnes 64) preFunc postFunc (w, a)).2.2 = a := by
  have I := hw.inv hH self fun f => allowed_read LA64MetaData
  have hlimit : ENTRY_COUNT ≤ (BitVec.allOnes 64).toNat := by decide
  have hnil : self.reported (BitVec.allOnes 64) w = [] := by
    rw [reported_eq hlimit self w, la64_walkCalls I]
  refine ⟨⟨fun hreports v => ?_, fun hno v frame f size hv => ?_⟩, fun preFunc postFunc a => ?_⟩
  · have hquery := query_leaf self I v
    cases hl : leafAt LA64MetaData w.mem self.rootPaddr v with
    | none =>
      rw [hquery, hl]
    | some leaf =>
      rw [hl] at hquery
      obtain ⟨x, hx, -⟩ := hreports v _ _ _ hquery
      rw [hnil] at hx
      exact absurd hx List.not_mem_nil
  · rw [hno v] at hv
    exact absurd hv (by simp)
  · obtain ⟨acc, hwalk⟩ := walk_spec (B := B) hlimit self w a
    rw [hwalk, la64_walkCalls I]
    rfl

/-- A table with a page of each size. -/
theorem la64_walk_reports_threeSizes :
    (∀ v frame f size, ((firstTable ⟨true, true⟩ LA64MetaData LA64PTE 8).query v
        (threeSizesWorld LA64MetaData LA64PTE)).1 = .ok (frame, f, size) →
      ∃ x, .pre x ∈ (firstTable ⟨true, true⟩ LA64MetaData LA64PTE 8).reported (BitVec.allOnes 64)
        (threeSizesWorld LA64MetaData LA64PTE) ∧ x.Covers LA64MetaData v ∧
          heightSize (x.height LA64MetaData) = size) ↔
      ∀ v, ((firstTable ⟨true, true⟩ LA64MetaData LA64PTE 8).query v
        (threeSizesWorld LA64MetaData LA64PTE)).1 = .err .notMapped :=
  (la64_walk_reports_iff
    (freshFrames_bumpHandler (by decide) (by decide) :
      FreshFrames LA64MetaData (bumpHandler 8) bumped)
    (threeSizesWorld_reachable _ _)).1

/-- One of its pages, which the walk does not report. -/
theorem la64_walk_misses_page :
    ((firstTable ⟨true, true⟩ LA64MetaData LA64PTE 8).query 0x1234
      (threeSizesWorld LA64MetaData LA64PTE)).1 = .ok (0x40000234, .READ, .size4K) ∧
    ¬ ∃ x, .pre x ∈ (firstTable ⟨true, true⟩ LA64MetaData LA64PTE 8).reported (BitVec.allOnes 64)
      (threeSizesWorld LA64MetaData LA64PTE) ∧ x.Covers LA64MetaData 0x1234 ∧
        heightSize (x.height LA64MetaData) = .size4K := by
  have hnil : ((firstTable ⟨true, true⟩ LA64MetaData LA64PTE 8).reported (BitVec.allOnes 64)
      (threeSizesWorld LA64MetaData LA64PTE)).length = 0 := by
    decide +kernel
  refine ⟨by decide +kernel, ?_⟩
  rintro ⟨x, hx, -⟩
  rw [List.eq_nil_of_length_eq_zero hnil] at hx
  exact absurd hx List.not_mem_nil

end PageTableMultiarch
