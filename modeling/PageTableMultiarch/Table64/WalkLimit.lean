/-
The limit of `walk`.

`walk` ends its loop over a table after the entry with which it reaches the limit, so at
least one present entry of each table that it visits is reported.

* `HonoursLimit` — what the documentation of `walk` says of the limit;
* `walk_honoursLimit` — a limit that is not zero is honoured;
* `honoursLimit_iff`, `Arch.walk_honoursLimit_iff` — limit zero is honoured only where there
  is nothing to report.
-/
import PageTableMultiarch.Table64.FullWalk

namespace PageTableMultiarch

open GenericPTE Radix

variable {B : Build} {M : PagingMetaData} {PTE σ : Type} {H : PagingHandler 64 σ}
  [GenericPTE 64 PTE]

/-! ### Visited tables -/

/-- How the entry at an index is reported, in the table at the end of a path. -/
def entryOf (M : PagingMetaData) (m : PhysAddr → Fin ENTRY_COUNT → PTE)
    (π : List (Fin ENTRY_COUNT)) (t : PhysAddr) (i : Fin ENTRY_COUNT) : Visited PTE :=
  ⟨π.length, i.val, BitVec.ofNat 64 (pathOffset M.LEVELS (π ++ [i])), m t i⟩

/-- A walk visits the root table, and the tables that the entries it reports lead to. -/
inductive Visits (M : PagingMetaData) (m : PhysAddr → Fin ENTRY_COUNT → PTE) (root : PhysAddr)
    (calls : List (WalkCall PTE)) : List (Fin ENTRY_COUNT) → PhysAddr → Prop
  | root : Visits M m root calls [] root
  | next {π : List (Fin ENTRY_COUNT)} {t s : PhysAddr} {i : Fin ENTRY_COUNT}
    (h : Visits M m root calls π t) (hcall : .pre (entryOf M m π t i) ∈ calls)
    (hlevel : π.length + 1 < M.LEVELS) (hs : child (m t i) = some s) :
    Visits M m root calls (π ++ [i]) s

/-- The walk with this limit calls `pre_func` and `post_func` once on the first present entries
of each table that it visits, as many as the limit allows, on nothing else, and reads no other
table. -/
structure HonoursLimit (table : PageTable64 B M PTE H) (w : World PTE σ) (limit : Usize) :
    Prop where
  runs {α : Type} (preFunc postFunc : Option (Visitor PTE α)) (a : α) : ∃ acc : List PhysAddr,
    (∀ t ∈ acc, ∃ π, Visits M w.mem table.rootPaddr (table.reported limit w) π t) ∧
    table.walk limit preFunc postFunc (w, a) = (.ok (), w.touch acc,
      (table.reported limit w).foldl (WalkCall.run preFunc postFunc) a)
  pre_iff {π : List (Fin ENTRY_COUNT)} {t : PhysAddr}
    (h : Visits M w.mem table.rootPaddr (table.reported limit w) π t) (i : Fin ENTRY_COUNT) :
    .pre (entryOf M w.mem π t i) ∈ table.reported limit w ↔
      i ∈ firstPresent limit.toNat (w.mem t)
  post_iff {π : List (Fin ENTRY_COUNT)} {t : PhysAddr}
    (h : Visits M w.mem table.rootPaddr (table.reported limit w) π t) (i : Fin ENTRY_COUNT) :
    .post (entryOf M w.mem π t i) ∈ table.reported limit w ↔
      i ∈ firstPresent limit.toNat (w.mem t)
  of_visited {c : WalkCall PTE} (h : c ∈ table.reported limit w) : ∃ π t i,
    Visits M w.mem table.rootPaddr (table.reported limit w) π t ∧
      c.visited = entryOf M w.mem π t i
  nodup : (table.reported limit w).Nodup

/-! ### Memory that keeps the entries reported -/

section Truncated

variable {limit : ℕ} {m : PhysAddr → Fin ENTRY_COUNT → PTE} {root t : PhysAddr}
  {π : List (Fin ENTRY_COUNT)} {i : Fin ENTRY_COUNT}

/-- An entry that is present in truncated memory has been kept. -/
theorem mem_firstPresent_of_truncated (hempty : isPresent (empty : PTE) = false)
    (h : isPresent (truncated limit m t i) = true) : i ∈ firstPresent limit (m t) := by
  by_contra hi
  rw [truncated, if_neg hi, hempty] at h
  exact Bool.false_ne_true h

theorem truncated_of_mem (h : i ∈ firstPresent limit (m t)) : truncated limit m t i = m t i := by
  rw [truncated, if_pos h]

section Lawful

variable [LawfulPTE M PTE]

/-- So has an entry that leads to a table. -/
theorem mem_firstPresent_of_child (M : PagingMetaData) [LawfulPTE M PTE]
    (h : child (truncated limit m t i) ≠ none) : i ∈ firstPresent limit (m t) := by
  by_contra hi
  rw [truncated, if_neg hi, child_empty M] at h
  exact h rfl

theorem tablesPresent_truncated (M : PagingMetaData) [LawfulPTE M PTE] (limit : ℕ)
    (m : PhysAddr → Fin ENTRY_COUNT → PTE) (root : PhysAddr) :
    TablesPresent M (truncated limit m) root := by
  intro ρ e _ he hchild
  obtain ⟨slot, _, rfl⟩ := exists_slotAt he
  have hkept := mem_firstPresent_of_child M hchild
  rw [truncated_of_mem hkept]
  exact isPresent_of_mem_firstPresent hkept

omit [LawfulPTE M PTE] in
/-- What is reported of an entry of a table that is reached. -/
theorem report_truncated (hπ : π.length < M.LEVELS)
    (hres : resolve child (truncated limit m) root π = some t) (i : Fin ENTRY_COUNT) :
    report (truncated limit m) (M.LEVELS - 1) root 0 0 (π ++ [i]) =
      some (entryOf M (truncated limit m) π t i) := by
  rw [report, entryAt_append, hres, Option.map_some, Option.map_some, List.getLast?_concat,
    List.length_append, show M.LEVELS - 1 + 1 = M.LEVELS by omega, entryOf]
  simp

omit [LawfulPTE M PTE] in
theorem entryOf_truncated (hi : i ∈ firstPresent limit (m t)) :
    entryOf M (truncated limit m) π t i = entryOf M m π t i := by
  rw [entryOf, entryOf, truncated_of_mem hi]

/-- What is reached in truncated memory is reached. -/
theorem resolve_of_truncated (M : PagingMetaData) [LawfulPTE M PTE]
    (h : resolve child (truncated limit m) root π = some t) : resolve child m root π = some t := by
  induction π generalizing root with
  | nil => exact h
  | cons i π ih =>
    rw [resolve_cons] at h ⊢
    obtain ⟨s, hs, hrest⟩ := Option.bind_eq_some_iff.mp h
    have hkept := mem_firstPresent_of_child M (by rw [hs]; exact Option.some_ne_none s)
    rw [truncated_of_mem hkept] at hs
    rw [hs, Option.bind_some, ih hrest]

/-- The entries of a table that is reached are reported as far as the limit allows. -/
theorem isEntry_entryOf_iff (hπ : π.length < M.LEVELS)
    (hres : resolve child (truncated limit m) root π = some t) (i : Fin ENTRY_COUNT) :
    IsEntry M (truncated limit m) root (entryOf M m π t i) ↔ i ∈ firstPresent limit (m t) := by
  have hL := LawfulPTE.levels (M := M) PTE
  have hlen : (π ++ [i]).length ≤ M.LEVELS := by
    rw [List.length_append]
    exact hπ
  obtain ⟨hlocated, -⟩ := (report_eq_some hL hlen).mp (report_truncated hπ hres i)
  constructor
  · intro h
    have heq : some (truncated limit m t i) = some (m t i) :=
      hlocated.entry_eq.symm.trans h.entry_eq
    refine mem_firstPresent_of_truncated (LawfulPTE.isPresent_empty M) ?_
    rw [Option.some_inj.mp heq]
    exact h.present
  · intro hi
    rw [entryOf_truncated hi] at hlocated
    exact ⟨hlocated, isPresent_of_mem_firstPresent hi⟩

/-- The tables that a walk visits are those reached in truncated memory. -/
theorem visits_iff : Visits M m root (walkCalls M (truncated limit m) root) π t ↔
    π.length < M.LEVELS ∧ resolve child (truncated limit m) root π = some t := by
  have hL := LawfulPTE.levels (M := M) PTE
  have hT := tablesPresent_truncated M limit m root
  constructor
  · intro h
    induction h with
    | root => exact ⟨by simp only [List.length_nil]; omega, rfl⟩
    | @next π t s i _ hcall hlevel hs ih =>
      have hentry := (pre_mem_walkCalls hL hT).mp hcall
      have hkept := (isEntry_entryOf_iff ih.1 ih.2 i).mp hentry
      refine ⟨by rw [List.length_append]; exact hlevel, ?_⟩
      rw [resolve_append, ih.2, Option.bind_some, resolve_cons, truncated_of_mem hkept, hs]
      rfl
  · rintro ⟨hlen, hres⟩
    induction π using List.reverseRecOn generalizing t with
    | nil =>
      obtain rfl := Option.some_inj.mp hres
      exact .root
    | append_singleton π i ih =>
      rw [List.length_append] at hlen
      rw [resolve_append] at hres
      obtain ⟨s, hs, hnext⟩ := Option.bind_eq_some_iff.mp hres
      rw [resolve_cons] at hnext
      obtain ⟨u, hu, hut⟩ := Option.bind_eq_some_iff.mp hnext
      obtain rfl := Option.some_inj.mp hut
      have hlt : π.length < M.LEVELS := Nat.lt_of_succ_lt hlen
      -- only an entry within the limit leads to a table
      have hkept := mem_firstPresent_of_child M (by rw [hu]; exact Option.some_ne_none u)
      rw [truncated_of_mem hkept] at hu
      refine .next (ih hlt hs) ?_ hlen hu
      exact (pre_mem_walkCalls hL hT).mpr ((isEntry_entryOf_iff hlt hs i).mpr hkept)

/-- Each call is about an entry of a table that is visited. -/
theorem visits_of_call {c : WalkCall PTE} (h : c ∈ walkCalls M (truncated limit m) root) :
    ∃ π t i, Visits M m root (walkCalls M (truncated limit m) root) π t ∧
      c.visited = entryOf M m π t i := by
  have hL := LawfulPTE.levels (M := M) PTE
  have hentry := isEntry_of_mem hL h
  have hreport := report_of_isEntry hL hentry
  have hlen := hentry.length_path hL
  have hlevel := hentry.level_lt
  obtain ⟨slot, ⟨π, hpath, hres⟩, he⟩ := exists_slotAt hentry.entry_eq
  have hπ : π.length < M.LEVELS := by
    rw [hpath, List.length_append] at hlen
    simp only [List.length_singleton] at hlen
    omega
  have hkept : slot.index ∈ firstPresent limit (m slot.table) := by
    refine mem_firstPresent_of_truncated (LawfulPTE.isPresent_empty M) ?_
    rw [he]
    exact hentry.present
  refine ⟨π, slot.table, slot.index, visits_iff.mpr ⟨hπ, hres⟩, ?_⟩
  rw [hpath, report_truncated hπ hres, entryOf_truncated hkept] at hreport
  exact (Option.some_inj.mp hreport).symm

omit [LawfulPTE M PTE] in
/-- No call is made twice. -/
theorem walkCalls_nodup (hL : M.LEVELS = 3 ∨ M.LEVELS = 4) (hT : TablesPresent M m root) :
    (walkCalls M m root).Nodup := by
  classical
  refine List.nodup_iff_count_le_one.mpr fun c => ?_
  by_cases hc : c ∈ walkCalls M m root
  · obtain ⟨before, below, after, hsplit, hbelow, hrest⟩ :=
      walkCalls_nested hL hT (isEntry_of_mem hL hc)
    -- a call for the same entry is one of the two
    have hbelow₀ : below.count c = 0 := List.count_eq_zero.mpr fun h => (hbelow c h).2 rfl
    have hself : c.visited.Within M c.visited := ⟨le_rfl, le_rfl, Nat.lt_add_of_pos_right
      (Nat.two_pow_pos _)⟩
    have hbefore₀ : before.count c = 0 := List.count_eq_zero.mpr fun h =>
      hrest c (List.mem_append_left _ h) hself
    have hafter₀ : after.count c = 0 := List.count_eq_zero.mpr fun h =>
      hrest c (List.mem_append_right _ h) hself
    rw [hsplit, List.count_append, List.count_cons, List.count_append, List.count_cons, hbefore₀,
      hbelow₀, hafter₀]
    cases c with
    | pre x => simp [WalkCall.visited]
    | post x => simp [WalkCall.visited]
  · rw [List.count_eq_zero.mpr hc]
    exact Nat.zero_le 1

end Lawful

end Truncated

/-! ### The limit -/

section Limit

variable [LawfulPTE M PTE] (self : PageTable64 B M PTE H) {limit : Usize} (w : World PTE σ)

theorem reported_limited (hlimit : 0 < limit.toNat) : self.reported limit w =
    walkCalls M (truncated limit.toNat w.mem) self.rootPaddr := by
  obtain ⟨acc, -, hwalk⟩ := walk_limited hlimit self w ([] : List (WalkCall PTE))
  rw [PageTable64.reported, hwalk, foldl_record, List.nil_append]

omit [LawfulPTE M PTE] in
/-- A walk with limit zero is one with limit one. -/
theorem walkBelow_zero {α : Type} (preFunc postFunc : Option (Visitor PTE α)) (n : ℕ)
    (t : PhysAddr) (level : ℕ) (start : VirtAddr) :
    (PageTable64.walkBelow B M 0 preFunc postFunc n t level start : Op (World PTE σ × α) Unit) =
      PageTable64.walkBelow B M 1 preFunc postFunc n t level start := by
  induction n generalizing t level start with
  | zero => exact forLimited_zero _ _ 0
  | succ n ih =>
    have hdescend : (fun t' v => PageTable64.walkBelow B M 0 preFunc postFunc n t' (level + 1) v :
        PhysAddr → VirtAddr → Op (World PTE σ × α) Unit) =
        fun t' v => PageTable64.walkBelow B M 1 preFunc postFunc n t' (level + 1) v :=
      funext fun t' => funext fun v => ih t' (level + 1) v
    rw [PageTable64.walkBelow, PageTable64.walkBelow, hdescend]
    exact forLimited_zero _ _ 0

omit [LawfulPTE M PTE] in
theorem walk_zero {α : Type} (preFunc postFunc : Option (Visitor PTE α)) (s : World PTE σ × α) :
    self.walk 0 preFunc postFunc s = self.walk 1 preFunc postFunc s :=
  congrFun (walkBelow_zero preFunc postFunc (M.LEVELS - 1) self.rootPaddr 0 0) s

omit [LawfulPTE M PTE] in
theorem reported_zero : self.reported 0 w = self.reported 1 w := by
  rw [PageTable64.reported, walk_zero]
  rfl

/-- Whatever the limit, the calls are about entries of the page table. -/
theorem isEntry_of_reported {c : WalkCall PTE} (h : c ∈ self.reported limit w) :
    IsEntry M w.mem self.rootPaddr c.visited := by
  have hL := LawfulPTE.levels (M := M) PTE
  obtain ⟨k, hk⟩ : ∃ k, c ∈ walkCalls M (truncated k w.mem) self.rootPaddr := by
    by_cases h0 : limit = 0
    · rw [h0, reported_zero, reported_limited self w (by decide)] at h
      exact ⟨_, h⟩
    · rw [reported_limited self w (Nat.pos_of_ne_zero fun hn =>
        h0 (BitVec.eq_of_toNat_eq hn))] at h
      exact ⟨_, h⟩
  obtain ⟨hlocated, hpresent⟩ := isEntry_of_mem hL hk
  obtain ⟨slot, ⟨π, hpath, hres⟩, he⟩ := exists_slotAt hlocated.entry_eq
  have hkept : slot.index ∈ firstPresent k (w.mem slot.table) := by
    refine mem_firstPresent_of_truncated (LawfulPTE.isPresent_empty M) ?_
    rw [he]
    exact hpresent
  refine ⟨⟨hlocated.level_lt, hlocated.vaddr_lt, hlocated.aligned, hlocated.index_eq, ?_⟩, hpresent⟩
  rw [hpath, entryAt_append, resolve_of_truncated M hres, Option.map_some, ← he,
    truncated_of_mem hkept]

/-- A limit that is not zero is honoured. -/
theorem walk_honoursLimit (hlimit : 0 < limit.toNat) : HonoursLimit self w limit := by
  have hL := LawfulPTE.levels (M := M) PTE
  have hT := tablesPresent_truncated M limit.toNat w.mem self.rootPaddr
  have hcalls := reported_limited self w hlimit
  refine ⟨fun preFunc postFunc a => ?_, fun {π t} h i => ?_, fun {π t} h i => ?_, fun {c} h => ?_,
    ?_⟩
  · obtain ⟨acc, hacc, hwalk⟩ := walk_limited hlimit self w a
    refine ⟨acc, fun t ht => ?_, by rw [hwalk, hcalls]⟩
    obtain ⟨r, rfl, π, hπ, hres⟩ := hacc t ht
    rw [hcalls]
    exact ⟨π, visits_iff.mpr ⟨by omega, hres⟩⟩
  · rw [hcalls] at h ⊢
    obtain ⟨hπ, hres⟩ := visits_iff.mp h
    rw [pre_mem_walkCalls hL hT, isEntry_entryOf_iff hπ hres]
  · rw [hcalls] at h ⊢
    obtain ⟨hπ, hres⟩ := visits_iff.mp h
    rw [post_mem_walkCalls hL hT, isEntry_entryOf_iff hπ hres]
  · rw [hcalls] at h ⊢
    exact visits_of_call h
  · rw [hcalls]
    exact walkCalls_nodup hL hT

/-- Where the root table has no present entry, limit zero is honoured. -/
theorem honoursLimit_zero (h : ∀ i, isPresent (w.mem self.rootPaddr i) = false) :
    HonoursLimit self w 0 := by
  have hone := (walk_honoursLimit self w (by decide) : HonoursLimit self w 1)
  have hzero := reported_zero self w
  have hnil : ∀ k, firstPresent k (w.mem self.rootPaddr) = [] := fun k => by
    rw [firstPresent, List.filter_eq_nil_iff.mpr fun i _ => by rw [h i]; decide, List.take_nil]
  -- only the root is visited
  have hroot : ∀ {π t}, Visits M w.mem self.rootPaddr (self.reported 1 w) π t →
      t = self.rootPaddr := by
    intro π t hvisit
    induction hvisit with
    | root => rfl
    | next hvisit hcall _ _ ih =>
      have hfirst := (hone.pre_iff hvisit _).mp hcall
      rw [ih, hnil] at hfirst
      exact absurd hfirst List.not_mem_nil
  have hfirst : ∀ {π t}, Visits M w.mem self.rootPaddr (self.reported 1 w) π t →
      firstPresent (0 : Usize).toNat (w.mem t) = firstPresent (1 : Usize).toNat (w.mem t) := by
    intro π t hvisit
    rw [hroot hvisit, hnil, hnil]
  refine ⟨fun preFunc postFunc a => ?_, fun {π t} hvisit i => ?_, fun {π t} hvisit i => ?_, ?_, ?_⟩
  · rw [hzero, walk_zero]
    exact hone.runs preFunc postFunc a
  · rw [hzero] at hvisit ⊢
    rw [hfirst hvisit]
    exact hone.pre_iff hvisit i
  · rw [hzero] at hvisit ⊢
    rw [hfirst hvisit]
    exact hone.post_iff hvisit i
  · rw [hzero]
    exact hone.of_visited
  · rw [hzero]
    exact hone.nodup

/-- Elsewhere it is not: the first present entry of the root is reported. -/
theorem not_honoursLimit_zero {i : Fin ENTRY_COUNT}
    (hi : isPresent (w.mem self.rootPaddr i) = true) : ¬ HonoursLimit self w 0 := by
  intro h
  have hone := (walk_honoursLimit self w (by decide) : HonoursLimit self w 1)
  have hpresent : i ∈ entryIndices.filter fun i => isPresent (w.mem self.rootPaddr i) :=
    List.mem_filter.mpr ⟨mem_entryIndices i, hi⟩
  obtain ⟨j, hj⟩ : ∃ j, j ∈ firstPresent 1 (w.mem self.rootPaddr) := by
    obtain ⟨a, l, hl⟩ := List.exists_cons_of_ne_nil (List.ne_nil_of_mem hpresent)
    rw [firstPresent, hl]
    exact ⟨a, List.mem_cons_self⟩
  have hcall := (hone.pre_iff .root j).mpr hj
  rw [← reported_zero] at hcall
  exact absurd ((h.pre_iff .root j).mp hcall) List.not_mem_nil

/-- A limit is honoured exactly if it is not zero or the root table has no present entry. -/
theorem honoursLimit_iff (limit : Usize) : HonoursLimit self w limit ↔
    limit ≠ 0 ∨ ∀ i, isPresent (w.mem self.rootPaddr i) = false := by
  by_cases h0 : limit = 0
  · subst h0
    constructor
    · intro h
      refine Or.inr fun i => ?_
      by_contra hi
      exact not_honoursLimit_zero self w ((Bool.not_eq_false _).mp hi) h
    · intro h
      exact honoursLimit_zero self w (h.resolve_left fun h => h rfl)
  · refine iff_of_true (walk_honoursLimit self w (Nat.pos_of_ne_zero fun hn => h0 ?_)) (Or.inl h0)
    exact BitVec.eq_of_toNat_eq hn

end Limit

/-- `walk` honours its limit exactly if the limit is not zero or the root table has no present
entry. -/
theorem Arch.walk_honoursLimit_iff (arch : Arch) {H : PagingHandler 64 σ}
    (self : PageTable64 B arch.metaData arch.PTE H) (w : World arch.PTE σ) (limit : Usize) :
    HonoursLimit self w limit ↔
      limit ≠ 0 ∨ ∀ i, isPresent (w.mem self.rootPaddr i) = false :=
  honoursLimit_iff self w limit

/-- With limit zero the first entry of the root of a table with a page of each size is reported. -/
theorem walk_exceeds_limit_zero :
    Reachable Readable (firstTable ⟨true, true⟩ X64PagingMetaData X64PTE 8)
        (threeSizesWorld X64PagingMetaData X64PTE) ∧
      ¬ HonoursLimit (firstTable ⟨true, true⟩ X64PagingMetaData X64PTE 8)
        (threeSizesWorld X64PagingMetaData X64PTE) 0 := by
  have hpresent : isPresent ((threeSizesWorld X64PagingMetaData X64PTE).mem 0x1000
      ⟨0, by decide⟩) = true := by decide +kernel
  exact ⟨threeSizesWorld_reachable X64PagingMetaData X64PTE,
    not_honoursLimit_zero (firstTable ⟨true, true⟩ X64PagingMetaData X64PTE 8) _ hpresent⟩

end PageTableMultiarch
