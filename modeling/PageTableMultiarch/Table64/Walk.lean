/-
The walks of `PageTable64` as a search in a radix tree.

An entry is a pointer (`child`) exactly when `next_table` accepts it, so the tables of
a page table form a radix tree in memory.  `vpath` is the path of indices of an
address, and `seek` is the walk along a path: it stops at the first huge entry of the
last three levels, at the last level, or where there is no next table.

* `getEntry_apply` — `get_entry` is `seek`, and it accesses only reached tables;
* `seek_append` — a walk passes through the tables that `resolve` passes through;
* `seek_eq_ok`, `seek_eq_error` — where a walk stops, and why;
* `seek_congr` — a walk depends only on the entries it reads above the last level.
-/
import PageTableMultiarch.Table64.Code

namespace PageTableMultiarch

open GenericPTE Radix

variable {B : Build} {M : PagingMetaData} {PTE σ : Type} {H : PagingHandler 64 σ}
  [GenericPTE 64 PTE]

/-- The table that an entry points to. -/
def child (e : PTE) : Option PhysAddr :=
  if paddr e = 0 then none else if isHuge e then none else some (paddr e)

theorem child_eq_some {e : PTE} {p : PhysAddr} :
    child e = some p ↔ paddr e ≠ 0 ∧ isHuge e = false ∧ paddr e = p := by
  rw [child]
  by_cases h0 : paddr e = 0
  · rw [if_pos h0]
    exact ⟨fun h => absurd h (by simp), fun h => absurd h0 h.1⟩
  · rw [if_neg h0]
    by_cases hh : isHuge e = true
    · rw [if_pos hh]
      exact ⟨fun h => absurd h (by simp), fun h => absurd hh (by simp [h.2.1])⟩
    · rw [if_neg hh, Option.some_inj]
      exact ⟨fun h => ⟨h0, by simpa using hh, h⟩, fun h => h.2.2⟩

theorem child_of_isHuge {e : PTE} (h : isHuge e = true) : child e = none := by
  rw [child, if_pos h]
  split <;> rfl

theorem child_empty (M : PagingMetaData) [LawfulPTE M PTE] : child (empty : PTE) = none := by
  rw [child, if_pos (LawfulPTE.paddr_empty M)]

theorem nextTable_of_child {e : PTE} {p : PhysAddr} (h : child e = some p) :
    PageTable64.nextTable e = .ok p := by
  obtain ⟨hne, hh, rfl⟩ := child_eq_some.mp h
  rw [PageTable64.nextTable, if_neg (by simpa using hne), if_neg (by simp [hh])]

theorem child_of_nextTable {e : PTE} {p : PhysAddr} (h : PageTable64.nextTable e = .ok p) :
    child e = some p := by
  rw [PageTable64.nextTable] at h
  split at h
  · exact absurd h (by simp)
  · next h0 =>
    split at h
    · exact absurd h (by simp)
    · next hh =>
      exact child_eq_some.mpr ⟨by simpa using h0, by simpa using hh, by simpa using h⟩

theorem child_of_nextTable_error {e : PTE} {err : PagingError}
    (h : PageTable64.nextTable e = .error err) : child e = none := by
  cases hc : child e with
  | none => rfl
  | some p =>
    rw [nextTable_of_child hc] at h
    exact absurd h (by simp)

theorem nextTable_isOk (e : PTE) :
    (PageTable64.nextTable e).isOk = (child e).isSome := by
  rcases hc : child e with _ | p
  · rcases hn : PageTable64.nextTable e with err | p
    · rfl
    · rw [child_of_nextTable hn] at hc
      exact absurd hc (by simp)
  · rw [nextTable_of_child hc]
    rfl

/-! ### Paths -/

/-- The indices of an address, from the root table to the last level. -/
def vpath (M : PagingMetaData) (v : VirtAddr) : List (Fin ENTRY_COUNT) :=
  if M.LEVELS = 3 then [p3Index v, p2Index v, p1Index v]
  else [p4Index v, p3Index v, p2Index v, p1Index v]

theorem vpath_three (h : M.LEVELS = 3) (v : VirtAddr) :
    vpath M v = [p3Index v, p2Index v, p1Index v] := by
  rw [vpath, if_pos h]

theorem vpath_four (h : M.LEVELS = 4) (v : VirtAddr) :
    vpath M v = [p4Index v, p3Index v, p2Index v, p1Index v] := by
  rw [vpath, if_neg (by omega)]

theorem length_vpath (hL : M.LEVELS = 3 ∨ M.LEVELS = 4) (v : VirtAddr) :
    (vpath M v).length = M.LEVELS := by
  rcases hL with h | h
  · rw [vpath_three h, h]
    rfl
  · rw [vpath_four h, h]
    rfl

/-- The size of the pages mapped `height` levels above the last one. -/
def heightSize : ℕ → PageSize
  | 0 => .size4K
  | 1 => .size2M
  | _ => .size1G

theorem isHuge_heightSize (k : ℕ) : (heightSize k).isHuge = decide (0 < k) := by
  rcases k with _ | _ | k <;> rfl

theorem bytes_heightSize {k : ℕ} (hk : k ≤ 2) : (heightSize k).bytes = 2 ^ (12 + 9 * k) := by
  obtain rfl | rfl | rfl : k = 0 ∨ k = 1 ∨ k = 2 := by omega
  all_goals rfl

/-- The walk along a path: the slot where it stops and its height, or the error of
the entry that has no next table. -/
def seek (m : PhysAddr → Fin ENTRY_COUNT → PTE) :
    PhysAddr → List (Fin ENTRY_COUNT) → Except PagingError (Slot × ℕ)
  | _, [] => .error .notMapped
  | t, [i] => .ok (⟨t, i⟩, 0)
  | t, i :: j :: π =>
    if π.length < 2 ∧ isHuge (m t i) = true then .ok (⟨t, i⟩, π.length + 1)
    else
      match PageTable64.nextTable (m t i) with
      | .ok s => seek m s (j :: π)
      | .error e => .error e

/-- What `get_entry` returns for a walk. -/
def seekRes : Except PagingError (Slot × ℕ) → Res (Slot × PageSize)
  | .ok (slot, k) => .ok (slot, heightSize k)
  | .error e => .err e

variable {m m' : PhysAddr → Fin ENTRY_COUNT → PTE}

theorem seek_cons_of_huge {t : PhysAddr} {i : Fin ENTRY_COUNT} {π : List (Fin ENTRY_COUNT)}
    (hπ : π.length ≤ 2) (hh : isHuge (m t i) = true) :
    seek m t (i :: π) = .ok (⟨t, i⟩, π.length) := by
  rcases π with _ | ⟨j, π⟩
  · rfl
  · rw [List.length_cons] at hπ
    rw [seek, if_pos ⟨by omega, hh⟩]
    rfl

theorem seek_cons_of_child {t s : PhysAddr} {i : Fin ENTRY_COUNT} {π : List (Fin ENTRY_COUNT)}
    (hπ : π ≠ []) (hc : child (m t i) = some s) : seek m t (i :: π) = seek m s π := by
  rcases π with _ | ⟨j, π⟩
  · exact absurd rfl hπ
  · have hh := (child_eq_some.mp hc).2.1
    rw [seek, if_neg (by simp [hh]), nextTable_of_child hc]

/-- A walk passes through the tables on its path. -/
theorem seek_append {t s : PhysAddr} {π τ : List (Fin ENTRY_COUNT)} (hτ : τ ≠ [])
    (hs : resolve child m t π = some s) : seek m t (π ++ τ) = seek m s τ := by
  induction π generalizing t with
  | nil =>
    obtain rfl : t = s := Option.some_inj.mp hs
    rfl
  | cons i π ih =>
    rw [resolve_cons, Option.bind_eq_some_iff] at hs
    obtain ⟨u, hu, hs⟩ := hs
    rw [List.cons_append, seek_cons_of_child (by simp [hτ]) hu, ih hs]

/-- Where a walk stops: the slot is on the path, in a reached table, and above the
last level its entry is huge. -/
theorem seek_eq_ok {t : PhysAddr} {π : List (Fin ENTRY_COUNT)} {slot : Slot} {k : ℕ}
    (h : seek m t π = .ok (slot, k)) :
    ∃ ρ τ, π = ρ ++ slot.index :: τ ∧ resolve child m t ρ = some slot.table ∧ k = τ.length ∧
      (0 < k → k ≤ 2 ∧ isHuge (m slot.table slot.index) = true) := by
  induction π generalizing t with
  | nil => exact absurd h (by simp [seek])
  | cons i π ih =>
    rcases π with _ | ⟨j, π⟩
    · simp only [seek, Except.ok.injEq, Prod.mk.injEq] at h
      obtain ⟨rfl, rfl⟩ := h
      exact ⟨[], [], rfl, rfl, rfl, fun h => absurd h (by simp)⟩
    · rw [seek] at h
      split at h
      · next hh =>
        simp only [Except.ok.injEq, Prod.mk.injEq] at h
        obtain ⟨rfl, rfl⟩ := h
        exact ⟨[], j :: π, rfl, rfl, rfl, fun _ => ⟨by omega, hh.2⟩⟩
      · rcases hn : PageTable64.nextTable (m t i) with e | s
        · rw [hn] at h
          exact absurd h (by simp)
        · rw [hn] at h
          obtain ⟨ρ, τ, hπ, hρ, hk, hh⟩ := ih h
          refine ⟨i :: ρ, τ, by rw [hπ]; rfl, ?_, hk, hh⟩
          rw [resolve_cons, child_of_nextTable hn]
          exact hρ

/-- Why a walk fails: an entry above the last level has no next table. -/
theorem seek_eq_error {t : PhysAddr} {π : List (Fin ENTRY_COUNT)} {e : PagingError}
    (hπ : π ≠ []) (h : seek m t π = .error e) :
    ∃ ρ i τ s, π = ρ ++ i :: τ ∧ τ ≠ [] ∧ resolve child m t ρ = some s ∧
      PageTable64.nextTable (m s i) = .error e ∧ (τ.length ≤ 2 → isHuge (m s i) = false) := by
  induction π generalizing t with
  | nil => exact absurd rfl hπ
  | cons i π ih =>
    rcases π with _ | ⟨j, π⟩
    · exact absurd h (by simp [seek])
    · rw [seek] at h
      split at h
      · exact absurd h (by simp)
      · next hno =>
        rcases hn : PageTable64.nextTable (m t i) with e' | s
        · rw [hn] at h
          obtain rfl : e' = e := by simpa using h
          refine ⟨[], i, j :: π, t, rfl, by simp, rfl, hn, fun hlen => ?_⟩
          rw [List.length_cons] at hlen
          by_contra hh
          exact hno ⟨by omega, by simpa using hh⟩
        · rw [hn] at h
          obtain ⟨ρ, i', τ, s', hπ', hτ, hρ, he, hh⟩ := ih (by simp) h
          refine ⟨i :: ρ, i', τ, s', by rw [hπ']; rfl, hτ, ?_, he, hh⟩
          rw [resolve_cons, child_of_nextTable hn]
          exact hρ

/-- Two heaps that agree on every entry a walk reads give the same walk. -/
theorem seek_congr {t : PhysAddr} {π : List (Fin ENTRY_COUNT)}
    (h : ∀ ρ i τ s, π = ρ ++ i :: τ → τ ≠ [] → resolve child m t ρ = some s →
      m' s i = m s i) : seek m' t π = seek m t π := by
  induction π generalizing t with
  | nil => rfl
  | cons i π ih =>
    rcases π with _ | ⟨j, π⟩
    · rfl
    · have h0 : m' t i = m t i := h [] i (j :: π) t rfl (by simp) rfl
      rw [seek, seek, h0]
      split
      · rfl
      · rcases hn : PageTable64.nextTable (m t i) with e | s
        · rfl
        · refine ih fun ρ i' τ s' hπ hτ hs' => h (i :: ρ) i' τ s' (by rw [hπ]; rfl) hτ ?_
          rw [resolve_cons, child_of_nextTable hn]
          exact hs'

/-! ### `get_entry` -/

omit [GenericPTE 64 PTE] in
theorem readEntry_apply (slot : Slot) (w : World PTE σ) :
    readEntry slot w = (.ok (w.mem slot.table slot.index),
      { w with trace := .access slot.table :: w.trace }) := rfl

/-- The part of `get_entry` below the table of the third level. -/
def getEntryFrom (p3 : PhysAddr) (vaddr : VirtAddr) : Op (World PTE σ) (Slot × PageSize) := do
  let p3e : PTE ← readEntry ⟨p3, p3Index vaddr⟩
  if isHuge p3e then
    return (⟨p3, p3Index vaddr⟩, .size1G)
  else do
    let p2 ← Op.ofResult (PageTable64.nextTable p3e)
    let p2e : PTE ← readEntry ⟨p2, p2Index vaddr⟩
    if isHuge p2e then
      return (⟨p2, p2Index vaddr⟩, .size2M)
    else do
      let p1 ← Op.ofResult (PageTable64.nextTable p2e)
      return (⟨p1, p1Index vaddr⟩, .size4K)

theorem getEntryFrom_apply (p3 : PhysAddr) (v : VirtAddr) (w : World PTE σ) :
    ∃ acc : List PhysAddr,
      (∀ t ∈ acc, ∃ π : List (Fin ENTRY_COUNT), π.length ≤ 1 ∧
        resolve child w.mem p3 π = some t) ∧
      getEntryFrom p3 v w = (seekRes (seek w.mem p3 [p3Index v, p2Index v, p1Index v]),
        { w with trace := acc.map .access ++ w.trace }) := by
  rw [getEntryFrom, Op.bind_ok (readEntry_apply _ w)]
  by_cases h3 : isHuge (w.mem p3 (p3Index v)) = true
  · refine ⟨[p3], fun t ht => ⟨[], by simp, ?_⟩, ?_⟩
    · rw [List.mem_singleton.mp ht]
      rfl
    · rw [if_pos h3, seek_cons_of_huge (by simp) h3]
      rfl
  · rw [if_neg h3]
    rcases hn3 : PageTable64.nextTable (w.mem p3 (p3Index v)) with e | p2
    · refine ⟨[p3], fun t ht => ⟨[], by simp, ?_⟩, ?_⟩
      · rw [List.mem_singleton.mp ht]
        rfl
      · rw [seek, if_neg (by simp [h3]), hn3]
        rfl
    · -- the second level: its entry is huge, in error, or leads to the last
      have hc3 := child_of_nextTable hn3
      have hreach : ∀ t ∈ [p2, p3], ∃ π : List (Fin ENTRY_COUNT), π.length ≤ 1 ∧
          resolve child w.mem p3 π = some t := by
        intro t ht
        simp only [List.mem_cons, List.not_mem_nil, or_false] at ht
        rcases ht with rfl | rfl
        · exact ⟨[p3Index v], by simp, by simp [hc3]⟩
        · exact ⟨[], by simp, rfl⟩
      refine ⟨[p2, p3], hreach, ?_⟩
      rw [seek_cons_of_child (by simp) hc3, Op.ofResult, Op.bind_ok (Op.pure_apply p2 _),
        Op.bind_ok (readEntry_apply _ _)]
      by_cases h2 : isHuge (w.mem p2 (p2Index v)) = true
      · rw [if_pos h2, seek_cons_of_huge (by simp) h2]
        rfl
      · rw [if_neg h2, seek, if_neg (by simp [h2])]
        rcases hn2 : PageTable64.nextTable (w.mem p2 (p2Index v)) with e | p1
        · rfl
        · rfl

/-- `get_entry` is the walk along the path of the address. -/
theorem getEntry_apply (hL : M.LEVELS = 3 ∨ M.LEVELS = 4) (self : PageTable64 B M PTE H)
    (v : VirtAddr) (w : World PTE σ) :
    ∃ acc : List PhysAddr,
      (∀ t ∈ acc, t ∈ nodes child w.mem {self.rootPaddr} (M.LEVELS - 1)) ∧
      self.getEntry v w = (seekRes (seek w.mem self.rootPaddr (vpath M v)),
        { w with trace := acc.map .access ++ w.trace }) := by
  rcases hL with h | h
  · obtain ⟨acc, hacc, heq⟩ := getEntryFrom_apply self.rootPaddr v w
    refine ⟨acc, fun t ht => ?_, ?_⟩
    · obtain ⟨π, hπ, ht⟩ := hacc t ht
      exact ⟨_, rfl, π, by omega, ht⟩
    · rw [vpath_three h, ← heq, PageTable64.getEntry, if_pos h]
      rfl
  · -- four levels: the root entry comes first, and it is not asked whether it is huge
    rw [vpath_four h, PageTable64.getEntry, if_neg (by omega), if_pos h]
    rw [Op.bind_ok (readEntry_apply _ w)]
    rcases hn : PageTable64.nextTable (w.mem self.rootPaddr (p4Index v)) with e | p3
    · refine ⟨[self.rootPaddr], fun t ht => ?_, ?_⟩
      · rw [List.mem_singleton.mp ht]
        exact mem_nodes_root rfl
      · rw [seek, if_neg (by simp), hn]
        exact Op.bind_err rfl
    · have hc := child_of_nextTable hn
      obtain ⟨acc, hacc, heq⟩ := getEntryFrom_apply p3 v
        { w with trace := .access self.rootPaddr :: w.trace }
      refine ⟨acc ++ [self.rootPaddr], fun t ht => ?_, ?_⟩
      · rcases List.mem_append.mp ht with ht | ht
        · obtain ⟨π, hπ, ht⟩ := hacc t ht
          refine ⟨_, rfl, p4Index v :: π, by rw [List.length_cons]; omega, ?_⟩
          rw [resolve_cons, hc]
          exact ht
        · rw [List.mem_singleton.mp ht]
          exact mem_nodes_root rfl
      · rw [seek_cons_of_child (by simp) hc, List.map_append, List.append_assoc]
        exact (Op.bind_ok rfl).trans heq

end PageTableMultiarch
