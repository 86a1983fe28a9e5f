/-
The leaves of a page table, and what stores do to them.

`leaf` is the present entry that a walk finds, with its height; `leafAt` is the same
for an address.  Two addresses share a page of height `k` (`SamePage`) when the walks
to that height take the same indices, that is when they lie in the same block of
`2 ^ (12 + 9 * k)` bytes of the address space.

* `samePage_iff` — `SamePage` in numbers;
* `leafAt_set` — overwriting the entry on the path of an address at height `k` changes
  the leaves of the addresses of that page and no others;
* `leaf_attach` — hanging a fresh zeroed table under an unused entry changes no leaf.
-/
import PageTableMultiarch.Table64.Walk
import Mathlib.Data.List.Infix
import Mathlib.Data.Nat.ModEq

namespace PageTableMultiarch

open GenericPTE Radix

variable {B : Build} {M : PagingMetaData} {PTE σ : Type} {H : PagingHandler 64 σ}
  [GenericPTE 64 PTE]

/-! ### Slots on a path -/

/-- The slot reached by a path of indices, the last of which is its own. -/
def SlotAt (m : PhysAddr → Fin ENTRY_COUNT → PTE) (root : PhysAddr)
    (ρ : List (Fin ENTRY_COUNT)) (slot : Slot) : Prop :=
  ∃ π, ρ = π ++ [slot.index] ∧ resolve child m root π = some slot.table

variable {m : PhysAddr → Fin ENTRY_COUNT → PTE} {root : PhysAddr} {n : ℕ}
  {ρ π : List (Fin ENTRY_COUNT)} {slot : Slot}

theorem SlotAt.length_pos (h : SlotAt m root ρ slot) : 0 < ρ.length := by
  obtain ⟨π, rfl, -⟩ := h
  simp

/-- The slot at the end of a path holds the entry there. -/
theorem SlotAt.entryAt (h : SlotAt m root ρ slot) :
    entryAt child m root ρ = some (m slot.table slot.index) := by
  obtain ⟨π, rfl, hs⟩ := h
  rw [entryAt_append, hs]
  rfl

/-- The path goes on to the table that the entry points to. -/
theorem SlotAt.resolve_eq (h : SlotAt m root ρ slot) :
    resolve child m root ρ = child (m slot.table slot.index) := by
  obtain ⟨π, rfl, hs⟩ := h
  rw [resolve_append, hs, Option.bind_some, resolve_cons]
  cases child (m slot.table slot.index) <;> rfl

theorem exists_slotAt {e : PTE} (h : entryAt child m root ρ = some e) :
    ∃ slot, SlotAt m root ρ slot ∧ m slot.table slot.index = e := by
  obtain rfl | ⟨π, i, rfl⟩ := ρ.eq_nil_or_concat
  · exact absurd h (by simp [Radix.entryAt])
  · rw [List.concat_eq_append, entryAt_append, Option.map_eq_some_iff] at h
    obtain ⟨t, ht, rfl⟩ := h
    exact ⟨⟨t, i⟩, ⟨π, List.concat_eq_append, ht⟩, rfl⟩

/-- In a tree a slot is reached along one path only. -/
theorem SlotAt.path_unique (F : Forest child m {root} n) {ρ' : List (Fin ENTRY_COUNT)}
    (h : SlotAt m root ρ slot) (h' : SlotAt m root ρ' slot) (hρ : ρ.length ≤ n + 1)
    (hρ' : ρ'.length ≤ n + 1) : ρ = ρ' := by
  obtain ⟨π, rfl, hπ⟩ := h
  obtain ⟨π', rfl, hπ'⟩ := h'
  rw [List.length_append, List.length_singleton] at hρ hρ'
  rw [(F rfl rfl (by omega) (by omega) hπ hπ').2]

/-- Writing the last entry of a path leaves the path in place. -/
theorem SlotAt.set (F : Forest child m {root} n) (h : SlotAt m root ρ slot)
    (hρ : ρ.length ≤ n + 1) (e : PTE) :
    SlotAt (Radix.set m slot.table slot.index e) root ρ slot := by
  obtain ⟨π, rfl, hπ⟩ := h
  rw [List.length_append, List.length_singleton] at hρ
  refine ⟨π, rfl, ?_⟩
  rw [← hπ]
  refine resolve_congr fun ρ' j hp s hs => ?_
  have hlen := hp.length_le
  rw [List.length_append, List.length_singleton] at hlen
  rw [set_apply, if_neg]
  rintro ⟨rfl, -⟩
  obtain rfl := (F rfl rfl (by omega) (by omega) hs hπ).2
  omega

/-- The walk past a slot whose entry is no pointer. -/
theorem SlotAt.seek_append (h : SlotAt m root ρ slot) {τ : List (Fin ENTRY_COUNT)}
    (hc : τ = [] ∨ child (m slot.table slot.index) = none) :
    (τ = [] ∨ τ.length ≤ 2 ∧ isHuge (m slot.table slot.index) = true →
      seek m root (ρ ++ τ) = .ok (slot, τ.length)) ∧
    (¬ (τ = [] ∨ τ.length ≤ 2 ∧ isHuge (m slot.table slot.index) = true) →
      ∃ e, PageTable64.nextTable (m slot.table slot.index) = .error e ∧
        seek m root (ρ ++ τ) = .error e) := by
  obtain ⟨π, rfl, hπ⟩ := h
  rw [List.append_assoc, PageTableMultiarch.seek_append (by simp) hπ, List.singleton_append]
  constructor
  · rintro (rfl | ⟨hlen, hh⟩)
    · rfl
    · exact seek_cons_of_huge hlen hh
  · intro hno
    rcases τ with _ | ⟨j, τ⟩
    · exact absurd (Or.inl rfl) hno
    · rw [seek, if_neg fun hc => hno (Or.inr ⟨Nat.succ_le_of_lt hc.1, hc.2⟩)]
      rcases hn : PageTable64.nextTable (m slot.table slot.index) with e | s
      · exact ⟨e, rfl, rfl⟩
      · rcases hc with hc | hc
        · exact absurd hc (by simp)
        · rw [child_of_nextTable hn] at hc
          exact absurd hc (by simp)

/-! ### Leaves -/

/-- The present entry that a walk finds, with its height. -/
def leaf (m : PhysAddr → Fin ENTRY_COUNT → PTE) (root : PhysAddr)
    (π : List (Fin ENTRY_COUNT)) : Option (PTE × ℕ) :=
  match seek m root π with
  | .ok (slot, k) =>
    let e := m slot.table slot.index
    if isPresent e then some (e, k) else none
  | .error _ => none

/-- The leaf that maps an address. -/
def leafAt (M : PagingMetaData) (m : PhysAddr → Fin ENTRY_COUNT → PTE) (root : PhysAddr)
    (v : VirtAddr) : Option (PTE × ℕ) := leaf m root (vpath M v)

theorem leaf_of_seek_ok {k : ℕ} (h : seek m root π = .ok (slot, k)) :
    leaf m root π = if isPresent (m slot.table slot.index) then
      some (m slot.table slot.index, k) else none := by
  rw [leaf, h]

theorem leaf_of_seek_error {e : PagingError} (h : seek m root π = .error e) :
    leaf m root π = none := by
  rw [leaf, h]

theorem leaf_eq_some {e : PTE} {k : ℕ} (h : leaf m root π = some (e, k)) :
    ∃ slot, seek m root π = .ok (slot, k) ∧ e = m slot.table slot.index ∧
      isPresent e = true := by
  rcases hs : seek m root π with err | ⟨slot, k'⟩
  · rw [leaf_of_seek_error hs] at h
    exact absurd h (by simp)
  · rw [leaf_of_seek_ok hs] at h
    split at h
    · next hp =>
      simp only [Option.some.injEq, Prod.mk.injEq] at h
      obtain ⟨rfl, rfl⟩ := h
      exact ⟨slot, rfl, rfl, hp⟩
    · exact absurd h (by simp)

/-- The leaves below a slot whose entry is no pointer. -/
theorem SlotAt.leaf_append (h : SlotAt m root ρ slot) {τ : List (Fin ENTRY_COUNT)}
    (hc : τ = [] ∨ child (m slot.table slot.index) = none) :
    leaf m root (ρ ++ τ) =
      if isPresent (m slot.table slot.index) = true ∧
          (τ = [] ∨ τ.length ≤ 2 ∧ isHuge (m slot.table slot.index) = true)
      then some (m slot.table slot.index, τ.length) else none := by
  by_cases hτ : τ = [] ∨ τ.length ≤ 2 ∧ isHuge (m slot.table slot.index) = true
  · rw [leaf_of_seek_ok ((h.seek_append hc).1 hτ)]
    simp [hτ]
  · obtain ⟨e, -, he⟩ := (h.seek_append hc).2 hτ
    rw [leaf_of_seek_error he, if_neg fun hp => hτ hp.2]

/-- Writing a slot leaves the walks alone that do not pass through it. -/
theorem seek_set_of_not_prefix (F : Forest child m {root} n) (h : SlotAt m root ρ slot)
    (hρ : ρ.length ≤ n + 1) (e : PTE) (hπ : π.length ≤ n + 1) (hno : ¬ ρ <+: π) :
    seek (Radix.set m slot.table slot.index e) root π = seek m root π := by
  refine seek_congr fun ρ' i τ s hsplit _ hs => ?_
  rw [set_apply, if_neg]
  rintro ⟨rfl, rfl⟩
  have hlen : (ρ' ++ [slot.index]).length ≤ n + 1 := by
    rw [hsplit] at hπ
    simp only [List.length_append, List.length_cons, List.length_nil] at hπ ⊢
    omega
  rw [h.path_unique F ⟨ρ', rfl, hs⟩ hρ hlen] at hno
  exact hno ⟨τ, by rw [hsplit]; simp⟩

theorem leaf_set_of_not_prefix (F : Forest child m {root} n) (h : SlotAt m root ρ slot)
    (hρ : ρ.length ≤ n + 1) (e : PTE) (hπ : π.length ≤ n + 1) (hno : ¬ ρ <+: π) :
    leaf (Radix.set m slot.table slot.index e) root π = leaf m root π := by
  have hseek := seek_set_of_not_prefix F h hρ e hπ hno
  rw [leaf, leaf, hseek]
  rcases hs : seek m root π with err | ⟨slot', k⟩
  · rfl
  · -- the slot found lies on `π`, the one written does not
    obtain ⟨ρ', τ, hsplit, hs', -, -⟩ := seek_eq_ok hs
    have hne : ¬ (slot'.table = slot.table ∧ slot'.index = slot.index) := by
      rintro ⟨ht, hi⟩
      have hlen : (ρ' ++ [slot.index]).length ≤ n + 1 := by
        rw [hsplit] at hπ
        simp only [List.length_append, List.length_cons, List.length_nil] at hπ ⊢
        omega
      rw [h.path_unique F ⟨ρ', rfl, ht ▸ hs'⟩ hρ hlen] at hno
      exact hno ⟨τ, by rw [hsplit, hi]; simp⟩
    simp only [set_apply, if_neg hne]

/-- Hanging a zeroed table under an unused entry above the last level adds no leaf and
removes none. -/
theorem leaf_attach [LawfulPTE M PTE] (F : Forest child m {root} n) (h : SlotAt m root ρ slot)
    (hρ : ρ.length ≤ n) (hold : m slot.table slot.index = empty) {p : PhysAddr}
    (hp : p ∉ nodes child m {root} n) {e : PTE} (he : child e = some p) (hπ : π.length = n + 1) :
    leaf (attach m slot.table slot.index e p empty) root π = leaf m root π := by
  have hempty : child (empty : PTE) = none := child_empty M
  obtain ⟨π₀, rfl, hs⟩ := h
  rw [List.length_append, List.length_singleton] at hρ
  have hps : p ≠ slot.table := fun hc => hp (hc ▸ ⟨root, rfl, π₀, by omega, hs⟩)
  by_cases hpre : π₀ ++ [slot.index] <+: π
  · obtain ⟨τ, rfl⟩ := hpre
    have hτ : τ ≠ [] := by
      rintro rfl
      simp only [List.append_nil, List.length_append, List.length_singleton] at hπ
      omega
    -- before the store the walk stopped at the unused entry
    have hbefore : leaf m root (π₀ ++ [slot.index] ++ τ) = none := by
      rw [SlotAt.leaf_append ⟨π₀, rfl, hs⟩ (Or.inr (hold ▸ hempty)), if_neg]
      rw [hold, LawfulPTE.isPresent_empty M]
      simp
    -- after it the walk goes on in the zeroed table
    have hs' : resolve child (attach m slot.table slot.index e p empty) root
        (π₀ ++ [slot.index]) = some p :=
      (F.resolve_attach rfl (by omega) hs (hold ▸ hempty) hp he hempty rfl
        (by rw [List.length_append, List.length_singleton]; omega)).mpr (Or.inr ⟨rfl, rfl, rfl⟩)
    rw [hbefore]
    obtain ⟨j, τ, rfl⟩ := List.exists_cons_of_ne_nil hτ
    have hzero : attach m slot.table slot.index e p empty p j = empty := by
      rw [attach_apply hps, if_neg (fun hc => hps hc.1), if_pos rfl]
    have hslot : SlotAt (attach m slot.table slot.index e p empty) root
        (π₀ ++ [slot.index] ++ [j]) ⟨p, j⟩ := ⟨π₀ ++ [slot.index], rfl, hs'⟩
    have hnone : child (attach m slot.table slot.index e p empty p j) = none := by
      rw [hzero]
      exact hempty
    rw [List.append_cons, hslot.leaf_append (Or.inr hnone), if_neg]
    rw [hzero, LawfulPTE.isPresent_empty M]
    simp
  · -- the walk reads neither the new table nor the entry that now points to it
    have hsame : ∀ ρ' i τ s, π = ρ' ++ i :: τ → resolve child m root ρ' = some s →
        attach m slot.table slot.index e p empty s i = m s i := by
      intro ρ' i τ s hsplit hs'
      have hlen : ρ'.length ≤ n := by
        rw [hsplit] at hπ
        simp only [List.length_append, List.length_cons] at hπ
        omega
      rw [attach_apply hps, if_neg, if_neg]
      · rintro rfl
        exact hp ⟨root, rfl, ρ', hlen, hs'⟩
      · rintro ⟨rfl, rfl⟩
        obtain rfl := (F rfl rfl (by omega) (by omega) hs' hs).2
        exact hpre ⟨τ, by rw [hsplit]; simp⟩
    have hseek : seek (attach m slot.table slot.index e p empty) root π = seek m root π :=
      seek_congr fun ρ' i τ s hsplit _ hs' => hsame ρ' i τ s hsplit hs'
    rw [leaf, leaf, hseek]
    rcases hf : seek m root π with err | ⟨slot', k⟩
    · rfl
    · obtain ⟨ρ', τ, hsplit, hs', -, -⟩ := seek_eq_ok hf
      simp only [hsame ρ' slot'.index τ slot'.table hsplit hs']

/-! ### Pages -/

/-- The two addresses lie in the same page of height `k`. -/
def SamePage (M : PagingMetaData) (k : ℕ) (v v' : VirtAddr) : Prop :=
  (vpath M v).take (M.LEVELS - k) = (vpath M v').take (M.LEVELS - k)

instance (M : PagingMetaData) (k : ℕ) (v v' : VirtAddr) : Decidable (SamePage M k v v') :=
  inferInstanceAs (Decidable (_ = _))

theorem SamePage.refl (k : ℕ) (v : VirtAddr) : SamePage M k v v := rfl

theorem SamePage.symm {k : ℕ} {v v' : VirtAddr} (h : SamePage M k v v') : SamePage M k v' v :=
  Eq.symm h

theorem SamePage.trans {k : ℕ} {u v v' : VirtAddr} (h : SamePage M k u v)
    (h' : SamePage M k v v') : SamePage M k u v' :=
  Eq.trans h h'

/-- The number of addresses that the levels of a page table tell apart. -/
def PagingMetaData.space (M : PagingMetaData) : ℕ := 2 ^ (12 + 9 * M.LEVELS)

theorem val_tableIndex (k : ℕ) (v : VirtAddr) : (tableIndex k v).val = v.toNat / 2 ^ k % 512 := by
  have h : (tableIndex k v).val = (v >>> k &&& (BitVec.ofNat 64 ENTRY_COUNT - 1)).toNat := rfl
  rw [h, BitVec.toNat_and, BitVec.toNat_ushiftRight, Nat.shiftRight_eq_div_pow]
  exact Nat.and_two_pow_sub_one_eq_mod (v.toNat / 2 ^ k) 9

theorem samePage_iff_of_lt (hL : M.LEVELS = 3 ∨ M.LEVELS = 4) {k : ℕ} (hk : k < M.LEVELS)
    {v v' : VirtAddr} : SamePage M k v v' ↔ v.toNat % M.space / 2 ^ (12 + 9 * k) =
      v'.toNat % M.space / 2 ^ (12 + 9 * k) := by
  have index_eq : ∀ {j : ℕ}, tableIndex j v = tableIndex j v' ↔
      v.toNat / 2 ^ j % 512 = v'.toNat / 2 ^ j % 512 := by
    intro j
    rw [Fin.ext_iff, val_tableIndex, val_tableIndex]
  rw [SamePage, PagingMetaData.space]
  rcases hL with h | h
  · obtain rfl | rfl | rfl : k = 0 ∨ k = 1 ∨ k = 2 := by omega
    all_goals
      rw [vpath_three h, vpath_three h, h]
      simp only [List.take, List.cons.injEq, and_true, p3Index, p2Index, p1Index, index_eq]
      omega
  · obtain rfl | rfl | rfl | rfl : k = 0 ∨ k = 1 ∨ k = 2 ∨ k = 3 := by omega
    all_goals
      rw [vpath_four h, vpath_four h, h]
      simp only [List.take, List.cons.injEq, and_true, p4Index, p3Index, p2Index, p1Index,
        index_eq]
      omega

theorem samePage_iff (hL : M.LEVELS = 3 ∨ M.LEVELS = 4) {k : ℕ} (hk : k ≤ 2) {v v' : VirtAddr} :
    SamePage M k v v' ↔ v.toNat % M.space / 2 ^ (12 + 9 * k) =
      v'.toNat % M.space / 2 ^ (12 + 9 * k) :=
  samePage_iff_of_lt hL (by omega)

/-- The path of an address to the entry at height `k`. -/
def pathTo (M : PagingMetaData) (k : ℕ) (v : VirtAddr) : List (Fin ENTRY_COUNT) :=
  (vpath M v).take (M.LEVELS - k)

theorem length_pathTo (hL : M.LEVELS = 3 ∨ M.LEVELS = 4) (k : ℕ) (v : VirtAddr) :
    (pathTo M k v).length = M.LEVELS - k := by
  rw [pathTo, List.length_take, length_vpath hL]
  omega

theorem pathTo_prefix_iff (hL : M.LEVELS = 3 ∨ M.LEVELS = 4) {k : ℕ} {v v' : VirtAddr} :
    pathTo M k v <+: vpath M v' ↔ SamePage M k v v' := by
  rw [List.prefix_iff_eq_take, length_pathTo hL]
  rfl

/-- The path of an address goes on to the last level for addresses of the same page. -/
theorem SamePage.exists_append (hL : M.LEVELS = 3 ∨ M.LEVELS = 4) {k : ℕ} (hk : k < M.LEVELS)
    {v v' : VirtAddr} (h : SamePage M k v v') :
    ∃ τ, vpath M v' = pathTo M k v ++ τ ∧ τ.length = k := by
  obtain ⟨τ, hτ⟩ := (pathTo_prefix_iff hL).mpr h
  refine ⟨τ, hτ.symm, ?_⟩
  have := congrArg List.length hτ
  rw [List.length_append, length_pathTo hL, length_vpath hL] at this
  omega

/-- A walk that stops finds the entry on the path of the address. -/
theorem slotAt_of_seek (hL : M.LEVELS = 3 ∨ M.LEVELS = 4) {v : VirtAddr} {k : ℕ}
    (h : seek m root (vpath M v) = .ok (slot, k)) :
    SlotAt m root (pathTo M k v) slot ∧ k ≤ 2 ∧
      (0 < k → isHuge (m slot.table slot.index) = true) := by
  obtain ⟨ρ, τ, hsplit, hs, rfl, hh⟩ := seek_eq_ok h
  have hlen := congrArg List.length hsplit
  rw [length_vpath hL, List.length_append, List.length_cons] at hlen
  refine ⟨⟨ρ, ?_, hs⟩, ?_, fun hk => (hh hk).2⟩
  · rw [pathTo, hsplit, List.append_cons, List.take_left']
    rw [List.length_append, List.length_singleton]
    omega
  · rcases Nat.eq_zero_or_pos τ.length with h0 | h0
    · omega
    · exact (hh h0).1

/-- The leaves of a page whose entry is no pointer. -/
theorem SlotAt.leafAt_samePage (hL : M.LEVELS = 3 ∨ M.LEVELS = 4) {v v' : VirtAddr} {k : ℕ}
    (hk : k ≤ 2) (h : SlotAt m root (pathTo M k v) slot)
    (hc : k = 0 ∨ child (m slot.table slot.index) = none) (hs : SamePage M k v v') :
    leafAt M m root v' =
      if isPresent (m slot.table slot.index) = true ∧
          (k = 0 ∨ isHuge (m slot.table slot.index) = true)
      then some (m slot.table slot.index, k) else none := by
  obtain ⟨τ, hτ, rfl⟩ := hs.exists_append hL (by omega)
  rw [leafAt, hτ, h.leaf_append (by simpa using hc)]
  simp [hk]

/-- Overwriting the entry at height `k` on the path of an address changes the leaves of
the addresses of its page and no others. -/
theorem leafAt_set (hL : M.LEVELS = 3 ∨ M.LEVELS = 4) (F : Forest child m {root} (M.LEVELS - 1))
    {v : VirtAddr} {k : ℕ} (hk : k ≤ 2) (h : SlotAt m root (pathTo M k v) slot) {e : PTE}
    (he : k = 0 ∨ child e = none) (v' : VirtAddr) :
    leafAt M (Radix.set m slot.table slot.index e) root v' =
      if SamePage M k v v' then
        if isPresent e = true ∧ (k = 0 ∨ isHuge e = true) then some (e, k) else none
      else leafAt M m root v' := by
  have hlen : (pathTo M k v).length ≤ M.LEVELS - 1 + 1 := by
    rw [length_pathTo hL]
    omega
  split
  · next hs =>
    have hslot := h.set F hlen e
    rw [hslot.leafAt_samePage hL hk (by simpa using he) hs, set_self]
  · next hs =>
    exact leaf_set_of_not_prefix F h hlen e (by rw [length_vpath hL]; omega)
      fun hpre => hs ((pathTo_prefix_iff hL).mp hpre)

theorem leafAt_attach [LawfulPTE M PTE] (F : Forest child m {root} (M.LEVELS - 1))
    (h : SlotAt m root ρ slot) (hρ : ρ.length < M.LEVELS)
    (hold : m slot.table slot.index = empty) {p : PhysAddr}
    (hp : p ∉ nodes child m {root} (M.LEVELS - 1)) {e : PTE} (he : child e = some p)
    (v : VirtAddr) :
    leafAt M (attach m slot.table slot.index e p empty) root v = leafAt M m root v :=
  leaf_attach (M := M) F h (by omega) hold hp he
    (by rw [length_vpath (LawfulPTE.levels PTE)]; omega)

end PageTableMultiarch
