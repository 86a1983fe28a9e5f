/-
The calls that `walk` makes.

The recursive walk is the depth-first traversal of the tree of tables (`Radix.traverse`) in
which the present entries are visible, in memory where each table keeps as many of them as
the limit allows.  An entry is reported by its level, its index, the first address that it
covers, and itself.

* `walkBelow_spec`, `walk_limited` — the calls of the visitors are those of the traversal;
* `walk_spec` — a limit of `ENTRY_COUNT` keeps them all;
* `pathTo_of_mod` — the address of an entry leads back to its path.
-/
import PageTableMultiarch.Table64.Remap
import PageTableMultiarch.Lib.Traversal

namespace PageTableMultiarch

open GenericPTE Radix

variable {B : Build} {M : PagingMetaData} {PTE σ : Type} {H : PagingHandler 64 σ}

/-! ### Addresses of entries -/

/-- The first address of the entry at the end of a path, in a table that covers
`2 ^ (12 + 9 * n)` bytes from address zero. -/
def pathOffset : ℕ → List (Fin ENTRY_COUNT) → ℕ
  | n + 1, i :: ρ => i.val * 2 ^ (12 + 9 * n) + pathOffset n ρ
  | _, _ => 0

@[simp] theorem pathOffset_nil (n : ℕ) : pathOffset n [] = 0 := by
  cases n <;> rfl

@[simp] theorem pathOffset_cons (n : ℕ) (i : Fin ENTRY_COUNT) (ρ : List (Fin ENTRY_COUNT)) :
    pathOffset (n + 1) (i :: ρ) = i.val * 2 ^ (12 + 9 * n) + pathOffset n ρ := rfl

/-- The span of a table is that of its entries. -/
theorem two_pow_span (n : ℕ) : 2 ^ (12 + 9 * (n + 1)) = 512 * 2 ^ (12 + 9 * n) := by
  rw [show 12 + 9 * (n + 1) = 12 + 9 * n + 9 by omega, Nat.pow_add]
  omega

/-- The addresses of an entry lie in the span of its table. -/
theorem entry_end_le (n : ℕ) (i : Fin ENTRY_COUNT) :
    i.val * 2 ^ (12 + 9 * n) + 2 ^ (12 + 9 * n) ≤ 2 ^ (12 + 9 * (n + 1)) := by
  have hi : i.val + 1 ≤ 512 := i.isLt
  calc i.val * 2 ^ (12 + 9 * n) + 2 ^ (12 + 9 * n)
      = (i.val + 1) * 2 ^ (12 + 9 * n) := by rw [Nat.add_mul, Nat.one_mul]
    _ ≤ 512 * 2 ^ (12 + 9 * n) := Nat.mul_le_mul_right _ hi
    _ = 2 ^ (12 + 9 * (n + 1)) := (two_pow_span n).symm

theorem pathOffset_lt {n : ℕ} {ρ : List (Fin ENTRY_COUNT)} (h : ρ.length ≤ n) :
    pathOffset n ρ < 2 ^ (12 + 9 * n) := by
  induction ρ generalizing n with
  | nil =>
    rw [pathOffset_nil]
    exact Nat.two_pow_pos _
  | cons i ρ ih =>
    obtain ⟨n, rfl⟩ : ∃ k, n = k + 1 := ⟨n - 1, by rw [List.length_cons] at h; omega⟩
    have hρ := ih (show ρ.length ≤ n by rw [List.length_cons] at h; omega)
    have hend := entry_end_le n i
    rw [pathOffset_cons]
    omega

/-- The lexicographic order of paths is the order of the addresses, and of the levels where
the addresses are equal. -/
theorem pathOffset_lex {n : ℕ} {ρ τ : List (Fin ENTRY_COUNT)} (h : ρ < τ) (hρ : ρ.length ≤ n)
    (hτ : τ.length ≤ n) : pathOffset n ρ < pathOffset n τ ∨
      pathOffset n ρ = pathOffset n τ ∧ ρ.length < τ.length := by
  induction h generalizing n with
  | @nil j τ =>
    rw [pathOffset_nil, List.length_nil, List.length_cons]
    omega
  | @cons i ρ τ _ ih =>
    rw [List.length_cons] at hρ hτ
    obtain ⟨n, rfl⟩ : ∃ k, n = k + 1 := ⟨n - 1, by omega⟩
    have := ih (show ρ.length ≤ n by omega) (show τ.length ≤ n by omega)
    rw [pathOffset_cons, pathOffset_cons, List.length_cons, List.length_cons]
    omega
  | @rel i ρ j τ hij =>
    rw [List.length_cons] at hρ hτ
    obtain ⟨n, rfl⟩ : ∃ k, n = k + 1 := ⟨n - 1, by omega⟩
    have hlt := pathOffset_lt (show ρ.length ≤ n by omega)
    have hij : i.val + 1 ≤ j.val := hij
    have hmul := Nat.mul_le_mul_right (2 ^ (12 + 9 * n)) hij
    rw [Nat.add_mul, Nat.one_mul] at hmul
    rw [pathOffset_cons, pathOffset_cons]
    omega

theorem two_pow_dvd_pathOffset {n : ℕ} {ρ : List (Fin ENTRY_COUNT)} (h : ρ.length ≤ n) :
    2 ^ (12 + 9 * (n - ρ.length)) ∣ pathOffset n ρ := by
  induction ρ generalizing n with
  | nil =>
    rw [pathOffset_nil]
    exact Nat.dvd_zero _
  | cons i ρ ih =>
    rw [List.length_cons] at h ⊢
    obtain ⟨n, rfl⟩ : ∃ k, n = k + 1 := ⟨n - 1, by omega⟩
    rw [pathOffset_cons, Nat.add_sub_add_right]
    refine Nat.dvd_add (Dvd.dvd.mul_left (Nat.pow_dvd_pow 2 ?_) _) (ih (by omega))
    omega

/-- The indices of an address in `n` levels of tables. -/
def indices : ℕ → VirtAddr → List (Fin ENTRY_COUNT)
  | 0, _ => []
  | n + 1, v => tableIndex (12 + 9 * n) v :: indices n v

theorem vpath_eq_indices (hL : M.LEVELS = 3 ∨ M.LEVELS = 4) (v : VirtAddr) :
    vpath M v = indices M.LEVELS v := by
  rcases hL with h | h
  · rw [vpath_three h, h]
    rfl
  · rw [vpath_four h, h]
    rfl

/-- An address in a table is the start of an entry and an offset in it. -/
theorem mod_span (n : ℕ) (v : VirtAddr) : v.toNat % 2 ^ (12 + 9 * (n + 1)) =
    (tableIndex (12 + 9 * n) v).val * 2 ^ (12 + 9 * n) + v.toNat % 2 ^ (12 + 9 * n) := by
  rw [val_tableIndex, two_pow_span, Nat.mul_comm 512, Nat.mod_mul,
    Nat.mul_comm _ (2 ^ (12 + 9 * n)), Nat.add_comm]

theorem take_indices {n : ℕ} {ρ : List (Fin ENTRY_COUNT)} (h : ρ.length ≤ n) {v : VirtAddr}
    (hv : v.toNat % 2 ^ (12 + 9 * n) = pathOffset n ρ) : (indices n v).take ρ.length = ρ := by
  induction ρ generalizing n with
  | nil => rw [List.length_nil, List.take_zero]
  | cons i ρ ih =>
    rw [List.length_cons] at h
    obtain ⟨n, rfl⟩ : ∃ k, n = k + 1 := ⟨n - 1, by omega⟩
    have hlt := pathOffset_lt (show ρ.length ≤ n by omega)
    have hmod := Nat.mod_lt v.toNat (Nat.two_pow_pos (12 + 9 * n))
    rw [mod_span, pathOffset_cons] at hv
    -- both sides split at the same multiple of the span of an entry
    have hdiv := congrArg (· / 2 ^ (12 + 9 * n)) hv
    simp only [Nat.mul_add_div (Nat.two_pow_pos _), Nat.mul_comm _ (2 ^ (12 + 9 * n)),
      Nat.div_eq_of_lt hlt, Nat.div_eq_of_lt hmod, Nat.add_zero] at hdiv
    have hi : tableIndex (12 + 9 * n) v = i := Fin.ext hdiv
    rw [indices, List.length_cons, List.take_succ_cons, hi, ih (by omega)]
    rw [hi] at hv
    omega

theorem pathOffset_take_indices (n j : ℕ) (v : VirtAddr) : pathOffset n ((indices n v).take j) =
    v.toNat % 2 ^ (12 + 9 * n) / 2 ^ (12 + 9 * (n - j)) * 2 ^ (12 + 9 * (n - j)) := by
  induction n generalizing j with
  | zero =>
    rw [indices, List.take_nil, pathOffset_nil, Nat.zero_sub]
    have := Nat.mod_lt v.toNat (Nat.two_pow_pos (12 + 9 * 0))
    rw [Nat.div_eq_of_lt this, Nat.zero_mul]
  | succ n ih =>
    cases j with
    | zero =>
      have := Nat.mod_lt v.toNat (Nat.two_pow_pos (12 + 9 * (n + 1)))
      rw [List.take_zero, pathOffset_nil, Nat.sub_zero, Nat.div_eq_of_lt this, Nat.zero_mul]
    | succ j =>
      obtain ⟨c, hc⟩ : 2 ^ (12 + 9 * (n - j)) ∣ 2 ^ (12 + 9 * n) := Nat.pow_dvd_pow 2 (by omega)
      have hpos := Nat.two_pow_pos (12 + 9 * (n - j))
      rw [indices, List.take_succ_cons, pathOffset_cons, ih, mod_span, Nat.add_sub_add_right, hc,
        Nat.mul_left_comm, Nat.mul_add_div hpos, Nat.add_mul,
        Nat.mul_comm (2 ^ (12 + 9 * (n - j)))]

section Paths

variable (hL : M.LEVELS = 3 ∨ M.LEVELS = 4)
include hL

/-- The address of an entry leads to it. -/
theorem pathTo_of_mod {ρ : List (Fin ENTRY_COUNT)} (h : ρ.length ≤ M.LEVELS) {v : VirtAddr}
    (hv : v.toNat % M.space = pathOffset M.LEVELS ρ) : pathTo M (M.LEVELS - ρ.length) v = ρ := by
  rw [pathTo, vpath_eq_indices hL, Nat.sub_sub_self h]
  exact take_indices h hv

/-- The entry on the path of an address starts at the address rounded down. -/
theorem pathOffset_pathTo {k : ℕ} (hk : k ≤ M.LEVELS) (v : VirtAddr) :
    pathOffset M.LEVELS (pathTo M k v) =
      v.toNat % M.space / 2 ^ (12 + 9 * k) * 2 ^ (12 + 9 * k) := by
  rw [pathTo, vpath_eq_indices hL, pathOffset_take_indices, Nat.sub_sub_self hk]
  rfl

theorem getLast?_pathTo {k : ℕ} (hk : k < M.LEVELS) (v : VirtAddr) :
    (pathTo M k v).getLast? = some (tableIndex (12 + 9 * k) v) := by
  rw [pathTo]
  rcases hL with h | h
  · rw [vpath_three h, h]
    obtain rfl | rfl | rfl : k = 0 ∨ k = 1 ∨ k = 2 := by omega
    all_goals rfl
  · rw [vpath_four h, h]
    obtain rfl | rfl | rfl | rfl : k = 0 ∨ k = 1 ∨ k = 2 ∨ k = 3 := by omega
    all_goals rfl

end Paths

/-- The address of an entry does not overflow. -/
theorem checkedAdd_index {S : Type} {start : VirtAddr} {n : ℕ} (i : Fin ENTRY_COUNT)
    (hstart : start.toNat + 2 ^ (12 + 9 * (n + 1)) ≤ 2 ^ 64) (s : S) :
    checkedAdd B start (BitVec.ofNat 64 i.val <<< (12 + n * 9)) s =
      (.ok (start + BitVec.ofNat 64 (i.val * 2 ^ (12 + 9 * n))), s) := by
  have hend := entry_end_le n i
  have hpos := Nat.two_pow_pos (12 + 9 * n)
  have hshift : BitVec.ofNat 64 i.val <<< (12 + n * 9) =
      BitVec.ofNat 64 (i.val * 2 ^ (12 + 9 * n)) := by
    apply BitVec.eq_of_toNat_eq
    rw [BitVec.toNat_shiftLeft, BitVec.toNat_ofNat, BitVec.toNat_ofNat, Nat.shiftLeft_eq,
      Nat.mul_comm n 9, Nat.mod_mul_mod]
  rw [hshift, checkedAdd, if_neg]
  · rfl
  · rw [Bool.and_eq_true, decide_eq_true_eq, BitVec.toNat_ofNat]
    rintro ⟨-, h⟩
    have := Nat.mod_le (i.val * 2 ^ (12 + 9 * n)) (2 ^ 64)
    omega

/-! ### Calls of the visitors -/

/-- What a visitor is called with. -/
structure Visited (PTE : Type) where
  level : ℕ
  index : ℕ
  vaddr : VirtAddr
  entry : PTE

/-- A call of `pre_func` or of `post_func`. -/
inductive WalkCall (PTE : Type) where
  | pre (x : Visited PTE)
  | post (x : Visited PTE)

def WalkCall.visited : WalkCall PTE → Visited PTE
  | pre x | post x => x

/-- What a call does to the state of the visitors. -/
def WalkCall.run {α : Type} (preFunc postFunc : Option (Visitor PTE α)) (a : α) :
    WalkCall PTE → α
  | pre x => match preFunc with
    | some func => func x.level x.index x.vaddr x.entry a
    | none => a
  | post x => match postFunc with
    | some func => func x.level x.index x.vaddr x.entry a
    | none => a

/-- The visitors that write down their calls. -/
def recordPre : Visitor PTE (List (WalkCall PTE)) := fun level index vaddr entry calls =>
  calls ++ [.pre ⟨level, index, vaddr, entry⟩]

def recordPost : Visitor PTE (List (WalkCall PTE)) := fun level index vaddr entry calls =>
  calls ++ [.post ⟨level, index, vaddr, entry⟩]

theorem foldl_record (l calls : List (WalkCall PTE)) :
    l.foldl (WalkCall.run (some recordPre) (some recordPost)) calls = calls ++ l := by
  induction l generalizing calls with
  | nil => rw [List.foldl_nil, List.append_nil]
  | cons x l ih =>
    rw [List.foldl_cons, ih]
    cases x <;> simp [WalkCall.run, recordPre, recordPost]

variable [GenericPTE 64 PTE] {m : PhysAddr → Fin ENTRY_COUNT → PTE} {n : ℕ} {t : PhysAddr}
  {level : ℕ} {start : VirtAddr} {ρ : List (Fin ENTRY_COUNT)}

/-- How the entry at the end of a path is reported, in a table at a level with `n` levels under
it that covers the addresses from `start`. -/
def report (m : PhysAddr → Fin ENTRY_COUNT → PTE) (n : ℕ) (t : PhysAddr) (level : ℕ)
    (start : VirtAddr) (ρ : List (Fin ENTRY_COUNT)) : Option (Visited PTE) :=
  (entryAt child m t ρ).map fun e =>
    ⟨level + ρ.length - 1, ρ.getLast?.elim 0 Fin.val,
      start + BitVec.ofNat 64 (pathOffset (n + 1) ρ), e⟩

/-- The call for a step of the traversal. -/
def reportCall (m : PhysAddr → Fin ENTRY_COUNT → PTE) (n : ℕ) (t : PhysAddr) (level : ℕ)
    (start : VirtAddr) : Event (Fin ENTRY_COUNT) → Option (WalkCall PTE)
  | .enter ρ => (report m n t level start ρ).map .pre
  | .leave ρ => (report m n t level start ρ).map .post

/-- The calls for a table with `n` levels under it. -/
def callsBelow (m : PhysAddr → Fin ENTRY_COUNT → PTE) (n : ℕ) (t : PhysAddr) (level : ℕ)
    (start : VirtAddr) : List (WalkCall PTE) :=
  (traverse child isPresent entryIndices m n t).filterMap (reportCall m n t level start)

theorem report_singleton (i : Fin ENTRY_COUNT) : report m n t level start [i] =
    some ⟨level, i.val, start + BitVec.ofNat 64 (i.val * 2 ^ (12 + 9 * n)), m t i⟩ := by
  simp [report, entryAt]

/-- The entries of the next table are reported as from there. -/
theorem report_cons {i : Fin ENTRY_COUNT} {s : PhysAddr} (hs : child (m t i) = some s)
    (hρ : ρ ≠ []) : report m (n + 1) t level start (i :: ρ) =
      report m n s (level + 1) (start + BitVec.ofNat 64 (i.val * 2 ^ (12 + 9 * (n + 1)))) ρ := by
  obtain ⟨j, ρ, rfl⟩ := List.exists_cons_of_ne_nil hρ
  rw [report, report, entryAt, hs, Option.bind_some]
  refine congrArg (fun f => Option.map f _) (funext fun e => ?_)
  have hlevel : level + (i :: j :: ρ).length - 1 = level + 1 + (j :: ρ).length - 1 := by
    simp only [List.length_cons]
    omega
  rw [hlevel, pathOffset_cons, BitVec.ofNat_add, BitVec.add_assoc, List.getLast?_cons_cons]

/-- The calls for the entry at one index. -/
def entryCalls (m : PhysAddr → Fin ENTRY_COUNT → PTE) (n : ℕ) (t : PhysAddr) (level : ℕ)
    (start : VirtAddr) (below : PhysAddr → VirtAddr → List (WalkCall PTE)) (i : Fin ENTRY_COUNT) :
    List (WalkCall PTE) :=
  let vaddr := start + BitVec.ofNat 64 (i.val * 2 ^ (12 + 9 * n))
  let x : Visited PTE := ⟨level, i.val, vaddr, m t i⟩
  if isPresent (m t i) then
    .pre x :: ((match child (m t i) with
      | some s => below s vaddr
      | none => []) ++ [.post x])
  else []

/-- The calls below an entry, when there are `n` levels under its table. -/
def callsUnder (m : PhysAddr → Fin ENTRY_COUNT → PTE) (level : ℕ) :
    ℕ → PhysAddr → VirtAddr → List (WalkCall PTE)
  | 0, _, _ => []
  | n + 1, s, vaddr => callsBelow m n s (level + 1) vaddr

theorem callsBelow_eq : callsBelow m n t level start =
    entryIndices.flatMap (entryCalls m n t level start (callsUnder m level n)) := by
  rw [callsBelow, traverse_eq, List.filterMap_flatMap]
  refine congrArg (fun f => List.flatMap f _) (funext fun i => ?_)
  rw [traverseEntry, entryCalls]
  by_cases hp : isPresent (m t i) = true
  · rw [if_pos hp, if_pos hp, List.filterMap_cons, reportCall, report_singleton, Option.map_some,
      List.filterMap_append, List.filterMap_map]
    -- what is below the entry is reported as from the next table
    have hbelow : (restBelow child isPresent entryIndices m n (m t i)).filterMap
        (reportCall m n t level start ∘ Event.below i) = match child (m t i) with
          | some s => callsUnder m level n s (start + BitVec.ofNat 64 (i.val * 2 ^ (12 + 9 * n)))
          | none => [] := by
      cases n with
      | zero => cases child (m t i) <;> rfl
      | succ n =>
        rw [restBelow]
        cases hc : child (m t i) with
        | none => rfl
        | some s =>
          refine List.filterMap_congr fun x hx => ?_
          have hne := path_ne_nil hx
          cases x with
          | enter ρ => exact congrArg (Option.map WalkCall.pre) (report_cons hc hne)
          | leave ρ => exact congrArg (Option.map WalkCall.post) (report_cons hc hne)
    rw [hbelow]
    simp [reportCall, report_singleton]
  · rw [if_neg hp, if_neg hp]
    rfl

/-! ### The walk -/

omit [GenericPTE 64 PTE] in
theorem visit_apply {α : Type} (func : Option (Visitor PTE α)) (level i : ℕ) (vaddr : VirtAddr)
    (entry : PTE) (s : World PTE σ × α) : visit func level i vaddr entry s =
      (.ok (), s.1, match func with
        | some func => func level i vaddr entry s.2
        | none => s.2) := by
  cases func <;> rfl

/-- Between the two calls the walk descends into the next table, if there is one. -/
theorem descend_bind {α β : Type} (descend : PhysAddr → VirtAddr → Op (World PTE σ × α) Unit)
    (inner : Bool) (e : PTE) (vaddr : VirtAddr) (rest : Op (World PTE σ × α) β) :
    (if inner && !isHuge e then
        match PageTable64.nextTable e with
        | .ok table => descend table vaddr >>= fun _ => rest
        | .error _ => rest
      else rest) =
      (match child e with
        | some s => if inner then descend s vaddr else pure ()
        | none => pure ()) >>= fun _ => rest := by
  cases inner with
  | false => cases child e <;> rfl
  | true =>
    cases hh : isHuge e with
    | true =>
      rw [child_of_isHuge hh]
      rfl
    | false =>
      cases hn : PageTable64.nextTable e with
      | ok s =>
        rw [child_of_nextTable hn]
        rfl
      | error err =>
        rw [child_of_nextTable_error hn]
        rfl

section Walk

variable {α : Type} {limit : ℕ} {preFunc postFunc : Option (Visitor PTE α)} {w : World PTE σ}
  {V : PhysAddr → Prop}

/-- The first entries of a table that are present, as many as the limit allows. -/
def firstPresent (limit : ℕ) (entries : Fin ENTRY_COUNT → PTE) : List (Fin ENTRY_COUNT) :=
  (entryIndices.filter fun i => isPresent (entries i)).take limit

/-- Memory in which each table keeps those entries only. -/
def truncated (limit : ℕ) (m : PhysAddr → Fin ENTRY_COUNT → PTE) :
    PhysAddr → Fin ENTRY_COUNT → PTE := fun t i =>
  if i ∈ firstPresent limit (m t) then m t i else empty

theorem firstPresent_sublist (entries : Fin ENTRY_COUNT → PTE) :
    (firstPresent limit entries).Sublist entryIndices :=
  (List.take_sublist _ _).trans List.filter_sublist

theorem isPresent_of_mem_firstPresent {entries : Fin ENTRY_COUNT → PTE} {i : Fin ENTRY_COUNT}
    (h : i ∈ firstPresent limit entries) : isPresent (entries i) = true :=
  (List.mem_filter.mp (List.mem_of_mem_take h)).2

/-- A limit of at least `ENTRY_COUNT` allows all present entries. -/
theorem mem_firstPresent (hlimit : ENTRY_COUNT ≤ limit) (entries : Fin ENTRY_COUNT → PTE)
    (i : Fin ENTRY_COUNT) : i ∈ firstPresent limit entries ↔ isPresent (entries i) = true := by
  have hlen : (entryIndices.filter fun i => isPresent (entries i)).length ≤ limit := by
    refine (List.length_filter_le _ _).trans ?_
    rw [length_entryIndices]
    exact hlimit
  rw [firstPresent, List.take_of_length_le hlen, List.mem_filter]
  exact and_iff_right (mem_entryIndices i)

/-- The calls for a table are those for the entries that the limit allows. -/
theorem flatMap_truncated (hempty : isPresent (empty : PTE) = false)
    (below : PhysAddr → VirtAddr → List (WalkCall PTE)) :
    entryIndices.flatMap (entryCalls (truncated limit m) n t level start below) =
      (firstPresent limit (m t)).flatMap (entryCalls m n t level start below) := by
  refine Radix.flatMap_eq_of_sublist (firstPresent_sublist _) nodup_entryIndices ?_ ?_
  · intro i hi
    rw [entryCalls, entryCalls, truncated, if_pos hi]
  · intro i _ hi
    rw [entryCalls, truncated, if_neg hi, hempty]
    rfl

/-- The state of a walk that started in `w`: tables that satisfy `V` have been read. -/
def Walked (V : PhysAddr → Prop) (w : World PTE σ) (s : World PTE σ × α) : Prop :=
  ∃ acc : List PhysAddr, (∀ t ∈ acc, V t) ∧ s.1 = w.touch acc

/-- One round of the walk reports the entry, and what the walk of the next table reports. -/
theorem walkEntry_spec {below : PhysAddr → VirtAddr → List (WalkCall PTE)}
    {descend : PhysAddr → VirtAddr → Op (World PTE σ × α) Unit} {i : Fin ENTRY_COUNT}
    (hn : M.LEVELS - 1 - level = n) (ht : V t)
    (hstart : start.toNat + 2 ^ (12 + 9 * (n + 1)) ≤ 2 ^ 64)
    (hlast : level < M.LEVELS - 1 ∨ ∀ s vaddr, below s vaddr = [])
    (hdescend : level < M.LEVELS - 1 → isPresent (w.mem t i) = true →
      ∀ t', child (w.mem t i) = some t' → ∀ s, Walked V w s → ∃ s',
      descend t' (start + BitVec.ofNat 64 (i.val * 2 ^ (12 + 9 * n))) s = (.ok (), s') ∧
      Walked V w s' ∧ s'.2 = (below t' (start + BitVec.ofNat 64 (i.val * 2 ^ (12 + 9 * n)))).foldl
        (WalkCall.run preFunc postFunc) s.2)
    {s : World PTE σ × α} (hs : Walked V w s) :
    ∃ s', PageTable64.walkEntry B M preFunc postFunc descend t level start i s =
        (.ok (isPresent (w.mem t i)), s') ∧
      Walked V w s' ∧ s'.2 = if isPresent (w.mem t i) then
        (entryCalls w.mem n t level start below i).foldl (WalkCall.run preFunc postFunc) s.2
      else s.2 := by
  obtain ⟨acc, hV, hacc⟩ := hs
  have hmem : s.1.mem = w.mem := by rw [hacc, World.touch_mem]
  have hread : onWorld (readEntry ⟨t, i⟩) s =
      (.ok (w.mem t i), (s.1.touch [t], s.2)) := by
    rw [onWorld, readEntry_eq, World.entry, hmem]
  have hwalked : ∀ a : α, Walked V w (s.1.touch [t], a) := fun a =>
    ⟨t :: acc, List.forall_mem_cons.mpr ⟨ht, hV⟩, by rw [hacc, World.touch_touch]; rfl⟩
  rw [PageTable64.walkEntry, hn, Op.bind_ok (checkedAdd_index i hstart s), Op.bind_ok hread,
    entryCalls]
  generalize start + BitVec.ofNat 64 (i.val * 2 ^ (12 + 9 * n)) = vaddr at hdescend ⊢
  cases hp : isPresent (w.mem t i) with
  | true =>
    rw [if_pos rfl, if_pos rfl, if_pos rfl, Op.bind_ok (visit_apply preFunc level i.val vaddr _ _),
      List.foldl_cons, List.foldl_append]
    -- the part between the two calls
    have hmid : ∀ a : α, ∃ s', (match child (w.mem t i) with
          | some s => if decide (level < M.LEVELS - 1) then descend s vaddr else pure ()
          | none => pure () : Op (World PTE σ × α) Unit) (s.1.touch [t], a) = (.ok (), s') ∧
        Walked V w s' ∧ s'.2 = (match child (w.mem t i) with
          | some s => below s vaddr
          | none => []).foldl (WalkCall.run preFunc postFunc) a := by
      intro a
      cases hc : child (w.mem t i) with
      | none => exact ⟨_, rfl, hwalked a, rfl⟩
      | some t' =>
        by_cases hlevel : level < M.LEVELS - 1
        · rw [decide_eq_true hlevel]
          exact hdescend hlevel hp t' hc _ (hwalked a)
        · rw [decide_eq_false hlevel]
          refine ⟨_, rfl, hwalked a, ?_⟩
          simp only [hlast.resolve_left hlevel, List.foldl_nil]
    obtain ⟨s', hs', hwalk, hfold⟩ := hmid _
    refine ⟨(s'.1, WalkCall.run preFunc postFunc s'.2 (.post ⟨level, i.val, vaddr, w.mem t i⟩)),
      (congrFun (descend_bind descend _ _ vaddr _) _).trans ?_, hwalk, ?_⟩
    · rw [Op.bind_ok hs', Op.bind_ok (visit_apply postFunc level i.val vaddr _ _)]
      rfl
    · rw [List.foldl_cons, List.foldl_nil]
      exact congrArg (fun a => WalkCall.run preFunc postFunc a
        (.post ⟨level, i.val, vaddr, w.mem t i⟩)) hfold
  | false => exact ⟨_, rfl, hwalked s.2, rfl⟩

/-- A table is walked until the limit is reached. -/
theorem forLimited_entries {descend : PhysAddr → VirtAddr → Op (World PTE σ × α) Unit}
    (hempty : isPresent (empty : PTE) = false) (hlimit : 0 < limit)
    (hround : ∀ i : Fin ENTRY_COUNT, (isPresent (w.mem t i) = true →
        i ∈ firstPresent limit (w.mem t)) → ∀ s, Walked V w s → ∃ s',
      PageTable64.walkEntry B M preFunc postFunc descend t level start i s =
        (.ok (isPresent (w.mem t i)), s') ∧
      Walked V w s' ∧ s'.2 = if isPresent (w.mem t i) then
        (entryCalls w.mem n t level start (callsUnder (truncated limit w.mem) level n) i).foldl
          (WalkCall.run preFunc postFunc) s.2 else s.2) {s : World PTE σ × α}
    (hs : Walked V w s) :
    ∃ s', forLimited limit (PageTable64.walkEntry B M preFunc postFunc descend t level start)
        entryIndices 0 s = (.ok (), s') ∧ Walked V w s' ∧
      s'.2 = (callsBelow (truncated limit w.mem) n t level start).foldl
        (WalkCall.run preFunc postFunc) s.2 := by
  have hbody : ∀ i ∈ entryIndices, (isPresent (w.mem t i) = true →
      i ∈ (entryIndices.filter fun i => isPresent (w.mem t i)).take (limit - 0)) → _ :=
    fun i _ hi => hround i hi
  rw [callsBelow_eq, flatMap_truncated hempty, List.foldl_flatMap]
  exact forLimited_take hbody hlimit hs

/-- The walk of a table reports what the traversal enters and leaves, as far as the limit
allows. -/
theorem walkBelow_spec {limit : Usize} (hempty : isPresent (empty : PTE) = false)
    (hlimit : 0 < limit.toNat) (hn : M.LEVELS - 1 - level = n)
    (hV : ∀ u ∈ nodes child (truncated limit.toNat w.mem) {t} n, V u)
    (hstart : start.toNat + 2 ^ (12 + 9 * (n + 1)) ≤ 2 ^ 64) {s : World PTE σ × α}
    (hs : Walked V w s) :
    ∃ s', PageTable64.walkBelow B M limit preFunc postFunc n t level start s = (.ok (), s') ∧
      Walked V w s' ∧ s'.2 = (callsBelow (truncated limit.toNat w.mem) n t level start).foldl
        (WalkCall.run preFunc postFunc) s.2 := by
  induction n generalizing t level start s with
  | zero =>
    refine forLimited_entries hempty hlimit (fun i _ s hs => ?_) hs
    exact walkEntry_spec hn (hV t (mem_nodes_root rfl)) hstart (Or.inr fun _ _ => rfl)
      (fun hlevel => absurd hlevel (by omega)) hs
  | succ n ih =>
    refine forLimited_entries hempty hlimit (fun i hi s hs => ?_) hs
    refine walkEntry_spec hn (hV t (mem_nodes_root rfl)) hstart (Or.inl (by omega)) ?_ hs
    intro hlevel hp t' hc s hs
    -- the next table covers the addresses of the entry
    have hend := entry_end_le (n + 1) i
    have hlt : i.val * 2 ^ (12 + 9 * (n + 1)) < 2 ^ 64 := by
      have := Nat.two_pow_pos (12 + 9 * (n + 1))
      omega
    have hkept : child (truncated limit.toNat w.mem t i) = some t' := by
      rw [truncated, if_pos (hi hp), hc]
    refine ih (by omega) ?_ ?_ hs
    · intro u hu
      refine hV u ?_
      rw [nodes_succ]
      exact Or.inr ⟨i, t', hkept, hu⟩
    · rw [BitVec.toNat_add, BitVec.toNat_ofNat, Nat.mod_eq_of_lt hlt, Nat.mod_eq_of_lt (by
        have := Nat.two_pow_pos (12 + 9 * (n + 1))
        omega)]
      omega

/-- The calls of a walk of a page table. -/
def walkCalls (M : PagingMetaData) (m : PhysAddr → Fin ENTRY_COUNT → PTE) (root : PhysAddr) :
    List (WalkCall PTE) :=
  callsBelow m (M.LEVELS - 1) root 0 0

/-- The walk succeeds and only reads the tables that are reached through the entries reported;
the visitors are called in the order of `walkCalls`. -/
theorem walk_limited [LawfulPTE M PTE] {limit : Usize} (hlimit : 0 < limit.toNat)
    (self : PageTable64 B M PTE H) (w : World PTE σ) (a : α) :
    ∃ acc : List PhysAddr,
      (∀ t ∈ acc, t ∈ nodes child (truncated limit.toNat w.mem) {self.rootPaddr} (M.LEVELS - 1)) ∧
      self.walk limit preFunc postFunc (w, a) = (.ok (), w.touch acc,
        (walkCalls M (truncated limit.toNat w.mem) self.rootPaddr).foldl
          (WalkCall.run preFunc postFunc) a) := by
  have hspan : (0 : VirtAddr).toNat + 2 ^ (12 + 9 * (M.LEVELS - 1 + 1)) ≤ 2 ^ 64 := by
    rcases LawfulPTE.levels (M := M) PTE with h | h <;> rw [h] <;> decide
  obtain ⟨s', hs', ⟨acc, hV, hacc⟩, hfold⟩ := walkBelow_spec (B := B) (w := w)
    (s := (w, a)) (t := self.rootPaddr) (LawfulPTE.isPresent_empty M) hlimit (Nat.sub_zero _)
    (fun _ hu => hu) hspan ⟨[], fun t ht => absurd ht List.not_mem_nil, rfl⟩
  refine ⟨acc, hV, ?_⟩
  rw [PageTable64.walk, hs', walkCalls, ← hacc, ← hfold]

/-- With a limit that allows all present entries no call is missing. -/
theorem walkCalls_truncated (hempty : isPresent (empty : PTE) = false)
    (hlimit : ENTRY_COUNT ≤ limit) (m : PhysAddr → Fin ENTRY_COUNT → PTE) (n : ℕ) (t : PhysAddr)
    (level : ℕ) (start : VirtAddr) :
    callsBelow (truncated limit m) n t level start = callsBelow m n t level start := by
  have hstep : ∀ n t level start, callsUnder (truncated limit m) level n = callsUnder m level n →
      callsBelow (truncated limit m) n t level start = callsBelow m n t level start := by
    intro n t level start hunder
    rw [callsBelow_eq, callsBelow_eq, hunder, flatMap_truncated hempty]
    refine (Radix.flatMap_eq_of_sublist (firstPresent_sublist _) nodup_entryIndices
      (fun _ _ => rfl) fun i _ hi => ?_).symm
    rw [entryCalls, if_neg fun hp => hi ((mem_firstPresent hlimit _ i).mpr hp)]
  induction n generalizing t level start with
  | zero => exact hstep 0 t level start rfl
  | succ n ih =>
    exact hstep (n + 1) t level start (funext fun s => funext fun v => ih s (level + 1) v)

/-- The walk succeeds and only reads; the visitors are called in the order of `walkCalls`. -/
theorem walk_spec [LawfulPTE M PTE] {limit : Usize} (hlimit : ENTRY_COUNT ≤ limit.toNat)
    (self : PageTable64 B M PTE H) (w : World PTE σ) (a : α) :
    ∃ acc : List PhysAddr, self.walk limit preFunc postFunc (w, a) = (.ok (), w.touch acc,
      (walkCalls M w.mem self.rootPaddr).foldl (WalkCall.run preFunc postFunc) a) := by
  have hpos : 0 < limit.toNat := Nat.lt_of_lt_of_le (by decide) hlimit
  have htrunc := walkCalls_truncated (LawfulPTE.isPresent_empty M) hlimit w.mem (M.LEVELS - 1)
    self.rootPaddr 0 0
  rw [walkCalls, ← htrunc]
  obtain ⟨acc, -, hwalk⟩ := walk_limited hpos self w a
  exact ⟨acc, hwalk⟩

end Walk

/-- The calls that `walk` makes, in their order. -/
def PageTable64.reported (self : PageTable64 B M PTE H) (limit : Usize) (w : World PTE σ) :
    List (WalkCall PTE) :=
  (self.walk limit (some recordPre) (some recordPost) (w, [])).2.2

theorem reported_eq [LawfulPTE M PTE] {limit : Usize} (hlimit : ENTRY_COUNT ≤ limit.toNat)
    (self : PageTable64 B M PTE H) (w : World PTE σ) :
    self.reported limit w = walkCalls M w.mem self.rootPaddr := by
  obtain ⟨acc, hwalk⟩ := walk_spec hlimit self w ([] : List (WalkCall PTE))
  rw [PageTable64.reported, hwalk, foldl_record, List.nil_append]

end PageTableMultiarch
