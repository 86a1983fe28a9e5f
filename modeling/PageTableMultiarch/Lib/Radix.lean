/-
Pointer-linked radix trees in a heap.

A heap gives every node an entry for each index; `child e` is the node that the
entry `e` points to, when `e` is a pointer.  `resolve` follows a path of indices
from a node, `nodes` collects what is reached within a depth, and a `Forest` is a
set of roots below which every node is reached along exactly one path.

* `resolve_congr` — a walk only sees the pointers it follows;
* `Forest.resolve_set` — overwriting an entry without changing its pointer (or
  below the last level) changes no walk;
* `Forest.resolve_attach` — hanging a fresh, pointer-free node under an entry
  without a child adds exactly one path; `Forest.attach` keeps the forest and
  `Forest.nodes_attach` says which node is new.
-/
import Mathlib.Data.Set.Insert
import Mathlib.Data.Set.Lattice
import Mathlib.Data.List.Basic
import Mathlib.Logic.Function.Basic

namespace Radix

variable {φ ι ε : Type*}

/-- The node reached from `t` by following the indices of a path. -/
def resolve (child : ε → Option φ) (m : φ → ι → ε) : φ → List ι → Option φ
  | t, [] => some t
  | t, i :: π => (child (m t i)).bind fun s => resolve child m s π

/-- The nodes reached from the roots `R` along paths of length at most `n`. -/
def nodes (child : ε → Option φ) (m : φ → ι → ε) (R : Set φ) (n : ℕ) : Set φ :=
  {s | ∃ r ∈ R, ∃ π : List ι, π.length ≤ n ∧ resolve child m r π = some s}

/-- Down to depth `n`, every node below the roots `R` has one root and one path. -/
def Forest (child : ε → Option φ) (m : φ → ι → ε) (R : Set φ) (n : ℕ) : Prop :=
  ∀ ⦃r r' : φ⦄ ⦃π π' : List ι⦄ ⦃s : φ⦄, r ∈ R → r' ∈ R → π.length ≤ n → π'.length ≤ n →
    resolve child m r π = some s → resolve child m r' π' = some s → r = r' ∧ π = π'

/-- Store the entry `e` at index `i` of node `s`. -/
def set [DecidableEq φ] [DecidableEq ι] (m : φ → ι → ε) (s : φ) (i : ι) (e : ε) : φ → ι → ε :=
  Function.update m s (Function.update (m s) i e)

variable {child : ε → Option φ} {m m' : φ → ι → ε} {R : Set φ} {n : ℕ}

@[simp] theorem resolve_nil (t : φ) : resolve child m t [] = some t := rfl

@[simp] theorem resolve_cons (t : φ) (i : ι) (π : List ι) :
    resolve child m t (i :: π) = (child (m t i)).bind fun s => resolve child m s π := rfl

theorem resolve_append (t : φ) (π ρ : List ι) :
    resolve child m t (π ++ ρ) = (resolve child m t π).bind fun s => resolve child m s ρ := by
  induction π generalizing t with
  | nil => rfl
  | cons i π ih =>
    rw [List.cons_append, resolve_cons, resolve_cons]
    rcases child (m t i) with _ | s
    · rfl
    · exact ih s

/-- A walk depends only on the pointers it follows. -/
theorem resolve_congr {t : φ} {π : List ι}
    (h : ∀ ρ i, ρ ++ [i] <+: π → ∀ s, resolve child m t ρ = some s →
      child (m' s i) = child (m s i)) :
    resolve child m' t π = resolve child m t π := by
  induction π generalizing t with
  | nil => rfl
  | cons i π ih =>
    have h0 : child (m' t i) = child (m t i) := h [] i (by simp) t rfl
    rw [resolve_cons, resolve_cons, h0]
    rcases hc : child (m t i) with _ | s
    · rfl
    · refine ih fun ρ j hp u hu => h (i :: ρ) j (by simpa using hp) u ?_
      rw [resolve_cons, hc]
      exact hu

section Set

variable [DecidableEq φ] [DecidableEq ι]

theorem set_apply (m : φ → ι → ε) (s : φ) (i : ι) (e : ε) (t : φ) (j : ι) :
    set m s i e t j = if t = s ∧ j = i then e else m t j := by
  rw [set]
  by_cases ht : t = s
  · subst ht
    rw [Function.update_self, Function.update_apply]
    simp
  · rw [Function.update_of_ne ht, if_neg fun h => ht h.1]

@[simp] theorem set_self (m : φ → ι → ε) (s : φ) (i : ι) (e : ε) : set m s i e s i = e := by
  rw [set_apply, if_pos ⟨rfl, rfl⟩]

theorem set_of_ne {s t : φ} (h : t ≠ s) (m : φ → ι → ε) (i : ι) (e : ε) :
    set m s i e t = m t := by
  funext j
  rw [set_apply, if_neg fun hc => h hc.1]

theorem set_set (m : φ → ι → ε) (s : φ) (i : ι) (e e' : ε) :
    set (set m s i e) s i e' = set m s i e' := by
  rw [set, set, Function.update_self, Function.update_idem, Function.update_idem]
  rfl

end Set

theorem mem_nodes_root {r : φ} (hr : r ∈ R) : r ∈ nodes child m R n :=
  ⟨r, hr, [], Nat.zero_le _, rfl⟩

/-- Changing nodes that are not reached changes no walk. -/
theorem resolve_of_agree {r : φ} (hr : r ∈ R) (h : ∀ t ∈ nodes child m R n, m' t = m t)
    {π : List ι} (hπ : π.length ≤ n + 1) : resolve child m' r π = resolve child m r π := by
  refine resolve_congr fun ρ i hp s hs => ?_
  have hlen := hp.length_le
  rw [List.length_append, List.length_singleton] at hlen
  rw [h s ⟨r, hr, ρ, by omega, hs⟩]

theorem nodes_of_agree (h : ∀ t ∈ nodes child m R n, m' t = m t) :
    nodes child m' R n = nodes child m R n := by
  ext s
  constructor
  · rintro ⟨r, hr, π, hπ, hs⟩
    exact ⟨r, hr, π, hπ, by rwa [resolve_of_agree hr h (by omega)] at hs⟩
  · rintro ⟨r, hr, π, hπ, hs⟩
    exact ⟨r, hr, π, hπ, by rwa [resolve_of_agree hr h (by omega)]⟩

theorem Forest.of_resolve_eq (F : Forest child m R n)
    (h : ∀ r ∈ R, ∀ π : List ι, π.length ≤ n → resolve child m' r π = resolve child m r π) :
    Forest child m' R n := by
  intro r r' π π' s hr hr' hπ hπ' hs hs'
  rw [h r hr π hπ] at hs
  rw [h r' hr' π' hπ'] at hs'
  exact F hr hr' hπ hπ' hs hs'

theorem nodes_of_resolve_eq
    (h : ∀ r ∈ R, ∀ π : List ι, π.length ≤ n → resolve child m' r π = resolve child m r π) :
    nodes child m' R n = nodes child m R n := by
  ext s
  constructor
  · rintro ⟨r, hr, π, hπ, hs⟩
    exact ⟨r, hr, π, hπ, by rwa [h r hr π hπ] at hs⟩
  · rintro ⟨r, hr, π, hπ, hs⟩
    exact ⟨r, hr, π, hπ, by rwa [h r hr π hπ]⟩

theorem Forest.of_agree (F : Forest child m R n) (h : ∀ t ∈ nodes child m R n, m' t = m t) :
    Forest child m' R n :=
  F.of_resolve_eq fun _ hr _ hπ => resolve_of_agree hr h (by omega)

theorem Forest.subset {R' : Set φ} {n' : ℕ} (F : Forest child m R n) (hR : R' ⊆ R)
    (hn : n' ≤ n) : Forest child m R' n' :=
  fun _ _ _ _ _ hr hr' hπ hπ' hs hs' =>
    F (hR hr) (hR hr') (hπ.trans hn) (hπ'.trans hn) hs hs'

theorem nodes_mono {R' : Set φ} {n' : ℕ} (hR : R' ⊆ R) (hn : n' ≤ n) :
    nodes child m R' n' ⊆ nodes child m R n :=
  fun _ ⟨r, hr, π, hπ, hs⟩ => ⟨r, hR hr, π, hπ.trans hn, hs⟩

/-- What is left of a forest without some of its roots. -/
theorem Forest.nodes_sdiff {S : Set φ} (F : Forest child m R n) (hS : S ⊆ R) :
    nodes child m (R \ S) n = nodes child m R n \ nodes child m S n := by
  ext s
  constructor
  · rintro ⟨r, ⟨hr, hrS⟩, π, hπ, hs⟩
    refine ⟨⟨r, hr, π, hπ, hs⟩, ?_⟩
    rintro ⟨r', hr', π', hπ', hs'⟩
    obtain ⟨rfl, -⟩ := F hr (hS hr') hπ hπ' hs hs'
    exact hrS hr'
  · rintro ⟨⟨r, hr, hs⟩, hnot⟩
    exact ⟨r, ⟨hr, fun hrS => hnot ⟨r, hrS, hs⟩⟩, hs⟩

/-- A set of roots whose entries hold no pointers is a forest of bare roots. -/
theorem nodes_of_no_child (h : ∀ r ∈ R, ∀ i, child (m r i) = none) :
    nodes child m R n = R := by
  ext s
  refine ⟨?_, mem_nodes_root⟩
  rintro ⟨r, hr, π, -, hs⟩
  rcases π with _ | ⟨i, π⟩
  · rw [resolve_nil, Option.some_inj] at hs
    exact hs ▸ hr
  · rw [resolve_cons, h r hr i] at hs
    exact absurd hs (by simp)

theorem Forest.of_no_child (h : ∀ r ∈ R, ∀ i, child (m r i) = none) :
    Forest child m R n := by
  have nil_of : ∀ {r π s}, r ∈ R → resolve child m r π = some s → π = [] ∧ r = s := by
    intro r π s hr hs
    rcases π with _ | ⟨i, π⟩
    · exact ⟨rfl, Option.some_inj.mp hs⟩
    · rw [resolve_cons, h r hr i] at hs
      exact absurd hs (by simp)
  intro r r' π π' s hr hr' _ _ hs hs'
  obtain ⟨rfl, rfl⟩ := nil_of hr hs
  obtain ⟨rfl, rfl⟩ := nil_of hr' hs'
  exact ⟨rfl, rfl⟩

/-- A new root whose entries hold no pointers. -/
theorem nodes_add_root {p : φ} (hp : ∀ i, child (m p i) = none) :
    nodes child m (insert p R) n = insert p (nodes child m R n) := by
  have hself : nodes child m {p} n = {p} :=
    nodes_of_no_child (by rintro r rfl; exact hp)
  ext s
  constructor
  · rintro ⟨r, rfl | hr, hs⟩
    · have hmem : s ∈ nodes child m {r} n := ⟨r, rfl, hs⟩
      rw [hself] at hmem
      exact Or.inl hmem
    · exact Or.inr ⟨r, hr, hs⟩
  · rintro (rfl | ⟨r, hr, hs⟩)
    · exact mem_nodes_root (Set.mem_insert _ _)
    · exact ⟨r, Or.inr hr, hs⟩

theorem Forest.add_root {p : φ} (F : Forest child m R n) (hp : ∀ i, child (m p i) = none)
    (hfresh : p ∉ nodes child m R n) : Forest child m (insert p R) n := by
  have hself : ∀ {π : List ι} {s}, resolve child m p π = some s → π = [] ∧ s = p := by
    intro π s hs
    cases π with
    | nil => exact ⟨rfl, (Option.some_inj.mp hs).symm⟩
    | cons i π =>
      rw [resolve_cons, hp i] at hs
      exact absurd hs (by simp)
  intro r r' π π' s hr hr' hπ hπ' hs hs'
  obtain rfl | hr := hr
  · obtain ⟨rfl, rfl⟩ := hself hs
    obtain rfl | hr' := hr'
    · exact ⟨rfl, (hself hs').1.symm⟩
    · exact absurd ⟨r', hr', π', hπ', hs'⟩ hfresh
  · obtain rfl | hr' := hr'
    · obtain ⟨rfl, rfl⟩ := hself hs'
      exact absurd ⟨r, hr, π, hπ, hs⟩ hfresh
    · exact F hr hr' hπ hπ' hs hs'

/-! ### Overwriting an entry that is no pointer -/

section Write

variable [DecidableEq φ] [DecidableEq ι] {r₀ : φ} {π₀ : List ι} {s : φ} {i : ι} {e : ε}

/-- An entry at the last level, or one whose pointer stays the same, can be
overwritten without changing any walk. -/
theorem Forest.resolve_set (F : Forest child m R n) (hr₀ : r₀ ∈ R) (hπ₀ : π₀.length ≤ n)
    (hs : resolve child m r₀ π₀ = some s)
    (hc : π₀.length = n ∨ child e = child (m s i)) :
    ∀ r ∈ R, ∀ π : List ι, π.length ≤ n →
      resolve child (set m s i e) r π = resolve child m r π := by
  intro r hr π hπ
  refine resolve_congr fun ρ j hp u hu => ?_
  have hlen := hp.length_le
  rw [List.length_append, List.length_singleton] at hlen
  rw [set_apply]
  split
  · next h =>
    obtain ⟨rfl, rfl⟩ := h
    obtain ⟨-, rfl⟩ := F hr hr₀ (by omega) hπ₀ hu hs
    rcases hc with hc | hc
    · omega
    · exact hc
  · rfl

/-! ### Hanging a fresh node under an entry -/

/-- The heap in which the entry `e` stored at `(s, i)` points to a node holding
only `z`. -/
def attach (m : φ → ι → ε) (s : φ) (i : ι) (e : ε) (p : φ) (z : ε) : φ → ι → ε :=
  set (Function.update m p fun _ => z) s i e

variable {p : φ} {z : ε}

theorem attach_apply (hps : p ≠ s) (t : φ) (j : ι) :
    attach m s i e p z t j = if t = s ∧ j = i then e else if t = p then z else m t j := by
  rw [attach, set_apply]
  split
  · rfl
  · by_cases htp : t = p
    · subst htp
      rw [Function.update_self, if_pos rfl]
    · rw [Function.update_of_ne htp, if_neg htp]

theorem Forest.resolve_attach (F : Forest child m R n) (hr₀ : r₀ ∈ R) (hπ₀ : π₀.length < n)
    (hs : resolve child m r₀ π₀ = some s) (hnone : child (m s i) = none)
    (hp : p ∉ nodes child m R n) (he : child e = some p) (hz : child z = none) {r : φ}
    (hr : r ∈ R) {π : List ι} (hπ : π.length ≤ n) {u : φ} :
    resolve child (attach m s i e p z) r π = some u ↔
      resolve child m r π = some u ∨ (r = r₀ ∧ π = π₀ ++ [i] ∧ u = p) := by
  have hps : p ≠ s := fun h => hp (h ▸ ⟨r₀, hr₀, π₀, by omega, hs⟩)
  -- away from the slot `(s, i)` the two heaps hold the same pointers
  have hsame : ∀ {r' : φ} {π' : List ι}, r' ∈ R → π'.length ≤ n →
      ¬ (r' = r₀ ∧ π₀ ++ [i] <+: π') →
      resolve child (attach m s i e p z) r' π' = resolve child m r' π' := by
    intro r' π' hr' hπ' hno
    refine resolve_congr fun ρ j hpre v hv => ?_
    have hlen := hpre.length_le
    rw [List.length_append, List.length_singleton] at hlen
    have hvp : v ≠ p := fun h => hp (h ▸ ⟨r', hr', ρ, by omega, hv⟩)
    rw [attach_apply hps, if_neg hvp]
    split
    · next h =>
      obtain ⟨rfl, rfl⟩ := h
      obtain ⟨rfl, rfl⟩ := F hr' hr₀ (by omega) (by omega) hv hs
      exact absurd ⟨rfl, hpre⟩ hno
    · rfl
  by_cases hpre : r = r₀ ∧ π₀ ++ [i] <+: π
  · obtain ⟨rfl, ρ, rfl⟩ := hpre
    have hold : resolve child m r (π₀ ++ [i] ++ ρ) = none := by
      rw [List.append_assoc, resolve_append, hs, Option.bind_some, List.singleton_append,
        resolve_cons, hnone, Option.bind_none]
    have hreach : resolve child (attach m s i e p z) r π₀ = some s := by
      rw [hsame hr hπ₀.le fun h => ?_, hs]
      have := h.2.length_le
      rw [List.length_append, List.length_singleton] at this
      omega
    have hnew : resolve child (attach m s i e p z) r (π₀ ++ [i] ++ ρ)
        = resolve child (attach m s i e p z) p ρ := by
      rw [List.append_assoc, resolve_append, hreach, Option.bind_some, List.singleton_append,
        resolve_cons, attach_apply hps, if_pos ⟨rfl, rfl⟩, he, Option.bind_some]
    rw [hold, hnew]
    rcases ρ with _ | ⟨j, ρ⟩
    · simp [eq_comm]
    · have hz' : child (attach m s i e p z p j) = none := by
        rw [attach_apply hps, if_neg (fun h => hps h.1), if_pos rfl, hz]
      simp [hz']
  · rw [hsame hr hπ hpre]
    constructor
    · exact Or.inl
    · rintro (h | ⟨rfl, rfl, -⟩)
      · exact h
      · exact absurd ⟨rfl, List.prefix_rfl⟩ hpre

theorem Forest.nodes_attach (F : Forest child m R n) (hr₀ : r₀ ∈ R) (hπ₀ : π₀.length < n)
    (hs : resolve child m r₀ π₀ = some s) (hnone : child (m s i) = none)
    (hp : p ∉ nodes child m R n) (he : child e = some p) (hz : child z = none) :
    nodes child (attach m s i e p z) R n = insert p (nodes child m R n) := by
  ext u
  constructor
  · rintro ⟨r, hr, π, hπ, hu⟩
    rcases (F.resolve_attach hr₀ hπ₀ hs hnone hp he hz hr hπ).mp hu with h | ⟨-, -, rfl⟩
    · exact Or.inr ⟨r, hr, π, hπ, h⟩
    · exact Or.inl rfl
  · rintro (rfl | ⟨r, hr, π, hπ, hu⟩)
    · have hlen : (π₀ ++ [i]).length ≤ n := by
        rw [List.length_append, List.length_singleton]
        exact hπ₀
      exact ⟨r₀, hr₀, π₀ ++ [i], hlen,
        (F.resolve_attach hr₀ hπ₀ hs hnone hp he hz hr₀ hlen).mpr (Or.inr ⟨rfl, rfl, rfl⟩)⟩
    · exact ⟨r, hr, π, hπ,
        (F.resolve_attach hr₀ hπ₀ hs hnone hp he hz hr hπ).mpr (Or.inl hu)⟩

theorem Forest.attach (F : Forest child m R n) (hr₀ : r₀ ∈ R) (hπ₀ : π₀.length < n)
    (hs : resolve child m r₀ π₀ = some s) (hnone : child (m s i) = none)
    (hp : p ∉ nodes child m R n) (he : child e = some p) (hz : child z = none) :
    Forest child (attach m s i e p z) R n := by
  intro r r' π π' u hr hr' hπ hπ' hu hu'
  rcases (F.resolve_attach hr₀ hπ₀ hs hnone hp he hz hr hπ).mp hu with h | ⟨rfl, rfl, rfl⟩ <;>
    rcases (F.resolve_attach hr₀ hπ₀ hs hnone hp he hz hr' hπ').mp hu' with
      h' | ⟨rfl, rfl, hup⟩
  · exact F hr hr' hπ hπ' h h'
  · exact absurd ⟨r, hr, π, hπ, hup ▸ h⟩ hp
  · exact absurd ⟨r', hr', π', hπ', h'⟩ hp
  · exact ⟨rfl, rfl⟩

end Write

/-! ### Entries on a path -/

/-- The entry at the end of a path, if there are nodes all the way. -/
def entryAt (child : ε → Option φ) (m : φ → ι → ε) : φ → List ι → Option ε
  | _, [] => none
  | t, [i] => some (m t i)
  | t, i :: j :: π => (child (m t i)).bind fun s => entryAt child m s (j :: π)

theorem entryAt_append (t : φ) (π : List ι) (i : ι) :
    entryAt child m t (π ++ [i]) = (resolve child m t π).map fun s => m s i := by
  induction π generalizing t with
  | nil => rfl
  | cons j π ih =>
    have hcons : ∃ k τ, π ++ [i] = k :: τ := by
      cases π with
      | nil => exact ⟨i, [], rfl⟩
      | cons k π => exact ⟨k, π ++ [i], rfl⟩
    obtain ⟨k, τ, hk⟩ := hcons
    rw [List.cons_append, hk, entryAt, resolve_cons]
    rcases child (m t j) with _ | s
    · rfl
    · rw [Option.bind_some, Option.bind_some, ← hk, ih]

/-- Below an entry that is no pointer there are no entries. -/
theorem entryAt_of_no_child {t : φ} {ρ : List ι} {e : ε} (h : entryAt child m t ρ = some e)
    (hc : child e = none) {τ : List ι} (hτ : τ ≠ []) : entryAt child m t (ρ ++ τ) = none := by
  induction ρ generalizing t with
  | nil => exact absurd h (by simp [entryAt])
  | cons i ρ ih =>
    cases ρ with
    | nil =>
      obtain rfl : m t i = e := Option.some_inj.mp h
      cases τ with
      | nil => exact absurd rfl hτ
      | cons j τ => rw [List.singleton_append, entryAt, hc, Option.bind_none]
    | cons j ρ =>
      rw [entryAt, Option.bind_eq_some_iff] at h
      obtain ⟨s, hs, h⟩ := h
      rw [List.cons_append, List.cons_append, entryAt, hs, Option.bind_some]
      exact ih h

/-- Above an entry there are pointers. -/
theorem child_of_entryAt {t : φ} {ρ τ : List ι} (hρ : ρ ≠ []) (hτ : τ ≠ [])
    (h : entryAt child m t (ρ ++ τ) ≠ none) :
    ∃ e s, entryAt child m t ρ = some e ∧ child e = some s := by
  induction ρ generalizing t with
  | nil => exact absurd rfl hρ
  | cons i ρ ih =>
    have hcons : ∃ k π, ρ ++ τ = k :: π := by
      cases ρ with
      | nil => exact List.exists_cons_of_ne_nil hτ
      | cons k ρ => exact ⟨k, ρ ++ τ, rfl⟩
    obtain ⟨k, π, hk⟩ := hcons
    rw [List.cons_append, hk, entryAt] at h
    cases hc : child (m t i) with
    | none => exact absurd (by rw [hc, Option.bind_none]) h
    | some s =>
      rw [hc, Option.bind_some, ← hk] at h
      cases ρ with
      | nil => exact ⟨m t i, s, rfl, hc⟩
      | cons j ρ =>
        obtain ⟨e, s', he, hs'⟩ := ih (by simp) h
        exact ⟨e, s', by rw [entryAt, hc, Option.bind_some, he], hs'⟩

section Entries

variable [DecidableEq φ] [DecidableEq ι] {r₀ : φ} {π₀ : List ι} {s : φ} {i : ι} {e : ε}

/-- Overwriting an entry as in `Forest.resolve_set` changes that entry and no other. -/
theorem Forest.entryAt_set (F : Forest child m R n) (hr₀ : r₀ ∈ R) (hπ₀ : π₀.length ≤ n)
    (hs : resolve child m r₀ π₀ = some s) (hc : π₀.length = n ∨ child e = child (m s i)) {r : φ}
    (hr : r ∈ R) {ρ : List ι} (hρ : ρ.length ≤ n + 1) :
    entryAt child (set m s i e) r ρ =
      if r = r₀ ∧ ρ = π₀ ++ [i] then some e else entryAt child m r ρ := by
  obtain rfl | ⟨π, j, rfl⟩ := ρ.eq_nil_or_concat
  · rw [if_neg fun h => by simp at h]
    rfl
  rw [List.concat_eq_append, List.length_append, List.length_singleton] at hρ
  rw [List.concat_eq_append, entryAt_append, entryAt_append,
    F.resolve_set hr₀ hπ₀ hs hc r hr π (by omega)]
  -- the node before the last index is the same before and after
  cases ht : resolve child m r π with
  | none =>
    rw [if_neg]
    · rfl
    · rintro ⟨rfl, h⟩
      obtain ⟨rfl, -⟩ := List.append_inj' h rfl
      exact absurd (ht.symm.trans hs) (by simp)
  | some t =>
    rw [Option.map_some, Option.map_some, set_apply]
    by_cases h : t = s ∧ j = i
    · obtain ⟨rfl, rfl⟩ := h
      -- in a forest the path to the changed node is the only one
      obtain ⟨rfl, rfl⟩ := F hr hr₀ (by omega) hπ₀ ht hs
      rw [if_pos ⟨rfl, rfl⟩, if_pos ⟨rfl, rfl⟩]
    · rw [if_neg h, if_neg]
      rintro ⟨rfl, h'⟩
      obtain ⟨rfl, hji⟩ := List.append_inj' h' rfl
      rw [hs, Option.some_inj] at ht
      exact h ⟨ht.symm, by simpa using hji⟩

/-- Hanging a fresh node under an entry changes that entry and adds those of the node. -/
theorem Forest.entryAt_attach (F : Forest child m R n) (hr₀ : r₀ ∈ R) (hπ₀ : π₀.length < n)
    (hs : resolve child m r₀ π₀ = some s) (hnone : child (m s i) = none) {p : φ} {z : ε}
    (hp : p ∉ nodes child m R n) (he : child e = some p) (hz : child z = none) {r : φ}
    (hr : r ∈ R) {ρ : List ι} (hρ : ρ.length ≤ n + 1) :
    entryAt child (Radix.attach m s i e p z) r ρ = if r = r₀ ∧ ρ = π₀ ++ [i] then some e
      else if r = r₀ ∧ ρ.dropLast = π₀ ++ [i] then some z else entryAt child m r ρ := by
  have hps : p ≠ s := fun h => hp (h ▸ ⟨r₀, hr₀, π₀, by omega, hs⟩)
  obtain rfl | ⟨π, j, rfl⟩ := ρ.eq_nil_or_concat
  · rw [if_neg fun h => by simp at h, if_neg fun h => by simp at h]
    rfl
  rw [List.concat_eq_append] at hρ ⊢
  rw [List.length_append, List.length_singleton] at hρ
  rw [List.dropLast_concat]
  have hiff := fun u => F.resolve_attach (u := u) hr₀ hπ₀ hs hnone hp he hz hr
    (show π.length ≤ n by omega)
  rw [entryAt_append, entryAt_append]
  by_cases hnew : r = r₀ ∧ π = π₀ ++ [i]
  · -- the entries of the new node
    obtain ⟨rfl, rfl⟩ := hnew
    rw [(hiff p).mpr (Or.inr ⟨rfl, rfl, rfl⟩), Option.map_some, attach_apply hps,
      if_neg fun h => hps h.1, if_pos rfl, if_neg, if_pos ⟨rfl, rfl⟩]
    rintro ⟨-, h⟩
    simp at h
  · -- an entry of an old node, which is reached as before
    have hsame : resolve child (Radix.attach m s i e p z) r π = resolve child m r π := by
      ext u
      rw [hiff u]
      exact or_iff_left fun h => hnew ⟨h.1, h.2.1⟩
    rw [hsame, if_neg hnew]
    cases ht : resolve child m r π with
    | none =>
      rw [if_neg]
      · rfl
      · rintro ⟨rfl, h⟩
        obtain ⟨rfl, -⟩ := List.append_inj' h rfl
        exact absurd (ht.symm.trans hs) (by simp)
    | some t =>
      have htp : t ≠ p := fun h => hp (h ▸ ⟨r, hr, π, by omega, ht⟩)
      rw [Option.map_some, Option.map_some, attach_apply hps, if_neg htp]
      by_cases h : t = s ∧ j = i
      · obtain ⟨rfl, rfl⟩ := h
        obtain ⟨rfl, rfl⟩ := F hr hr₀ (by omega) (by omega) ht hs
        rw [if_pos ⟨rfl, rfl⟩, if_pos ⟨rfl, rfl⟩]
      · rw [if_neg h, if_neg]
        rintro ⟨rfl, h'⟩
        obtain ⟨rfl, hji⟩ := List.append_inj' h' rfl
        rw [hs, Option.some_inj] at ht
        exact h ⟨ht.symm, by simpa using hji⟩

end Entries

/-! ### The subtrees below a node -/

theorem nodes_succ (t : φ) :
    nodes child m {t} (n + 1)
      = {t} ∪ {s | ∃ i u, child (m t i) = some u ∧ s ∈ nodes child m {u} n} := by
  ext s
  constructor
  · rintro ⟨r, rfl, π, hπ, hs⟩
    rcases π with _ | ⟨i, π⟩
    · exact Or.inl (Option.some_inj.mp hs).symm
    · rw [resolve_cons, Option.bind_eq_some_iff] at hs
      obtain ⟨u, hu, hs⟩ := hs
      exact Or.inr ⟨i, u, hu, u, rfl, π, by simpa using hπ, hs⟩
  · rintro (rfl | ⟨i, u, hu, r, rfl, π, hπ, hs⟩)
    · exact mem_nodes_root rfl
    · exact ⟨t, rfl, i :: π, by simpa using hπ, by rw [resolve_cons, hu]; exact hs⟩

theorem Forest.child_forest {t : φ} (F : Forest child m {t} (n + 1)) {i : ι} {u : φ}
    (hu : child (m t i) = some u) : Forest child m {u} n := by
  intro r r' π π' s hr hr' hπ hπ' hs hs'
  obtain rfl : r = u := hr
  obtain rfl : r' = r := hr'
  have step : ∀ {ρ : List ι}, resolve child m r' ρ = some s →
      resolve child m t (i :: ρ) = some s := by
    intro ρ hρ
    rw [resolve_cons, hu]
    exact hρ
  have := F rfl rfl (by simpa using hπ) (by simpa using hπ') (step hs) (step hs')
  exact ⟨rfl, by simpa using this.2⟩

/-- The root is not among the nodes of its subtrees. -/
theorem Forest.root_not_mem {t : φ} (F : Forest child m {t} (n + 1)) {i : ι} {u : φ}
    (hu : child (m t i) = some u) : t ∉ nodes child m {u} n := by
  rintro ⟨r, rfl, π, hπ, hs⟩
  have := F rfl rfl (Nat.zero_le _) (by simpa using hπ) (resolve_nil t)
    (show resolve child m t (i :: π) = some t by rw [resolve_cons, hu]; exact hs)
  simp at this

/-- Subtrees under different indices share no node. -/
theorem Forest.child_disjoint {t : φ} (F : Forest child m {t} (n + 1)) {i j : ι} {u v s : φ}
    (hu : child (m t i) = some u) (hv : child (m t j) = some v)
    (hsu : s ∈ nodes child m {u} n) (hsv : s ∈ nodes child m {v} n) : i = j := by
  obtain ⟨_, rfl, π, hπ, hs⟩ := hsu
  obtain ⟨_, rfl, π', hπ', hs'⟩ := hsv
  have := F rfl rfl (by simpa using hπ) (by simpa using hπ')
    (show resolve child m t (i :: π) = some s by rw [resolve_cons, hu]; exact hs)
    (show resolve child m t (j :: π') = some s by rw [resolve_cons, hv]; exact hs')
  have := this.2
  simp only [List.cons.injEq] at this
  exact this.1

end Radix
