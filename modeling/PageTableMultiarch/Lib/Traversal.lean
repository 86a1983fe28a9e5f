/-
Depth-first traversals of pointer-linked radix trees.

`traverse` goes through the entries of a node in the order of a list of indices.  It
enters the visible ones, goes through the node that such an entry points to, if it does,
and leaves the entry.  Entering and leaving are recorded with the path of the entry.

* `enter_mem_traverse` — the entries entered are those reached through visible entries;
* `traverse_split` — between entering and leaving an entry comes what is below it, and
  nothing of it comes before or after;
* `pairwise_enters` — entries are entered in the lexicographic order of their paths.
-/
import PageTableMultiarch.Lib.Radix
import Mathlib.Data.List.Lex
import Mathlib.Data.List.Pairwise

namespace Radix

variable {φ ι ε : Type*}

/-- A step of a traversal: the entry at the end of a path is entered or left. -/
inductive Event (ι : Type*) where
  | enter (path : List ι)
  | leave (path : List ι)

namespace Event

/-- The path of the entry. -/
def path : Event ι → List ι
  | enter ρ | leave ρ => ρ

/-- The same step, seen from one node further up. -/
def below (i : ι) : Event ι → Event ι
  | enter ρ => enter (i :: ρ)
  | leave ρ => leave (i :: ρ)

/-- The path of an entry that is entered. -/
def enterPath : Event ι → Option (List ι)
  | enter ρ => some ρ
  | leave _ => none

@[simp] theorem path_enter (ρ : List ι) : (enter ρ).path = ρ := rfl

@[simp] theorem path_leave (ρ : List ι) : (leave ρ).path = ρ := rfl

@[simp] theorem path_below (i : ι) (e : Event ι) : (e.below i).path = i :: e.path := by
  cases e <;> rfl

end Event

open Event

/-- What a traversal does at one index of a node, given what it does below. -/
def traverseEntry (visible : ε → Bool) (rest : ε → List (Event ι)) (e : ε) (i : ι) :
    List (Event ι) :=
  if visible e then enter [i] :: ((rest e).map (below i) ++ [leave [i]]) else []

/-- The steps of a traversal of a node and of `n` levels of nodes under it. -/
def traverse (child : ε → Option φ) (visible : ε → Bool) (idx : List ι) (m : φ → ι → ε) :
    ℕ → φ → List (Event ι)
  | 0, t => idx.flatMap fun i => traverseEntry visible (fun _ => []) (m t i) i
  | n + 1, t => idx.flatMap fun i => traverseEntry visible
      (fun e => match child e with
        | some s => traverse child visible idx m n s
        | none => []) (m t i) i

/-- The entry at the end of a path is reached through visible entries, and visible. -/
def Seen (child : ε → Option φ) (visible : ε → Bool) (m : φ → ι → ε) : φ → List ι → Prop
  | _, [] => False
  | t, [i] => visible (m t i) = true
  | t, i :: j :: ρ => visible (m t i) = true ∧
      ∃ s, child (m t i) = some s ∧ Seen child visible m s (j :: ρ)

/-- Going through a list is going through the part of it where something happens. -/
theorem flatMap_eq_of_sublist {α β : Type*} {s l : List α} (h : s.Sublist l) (hl : l.Nodup)
    {f g : α → List β} (hin : ∀ a ∈ s, f a = g a) (hout : ∀ a ∈ l, a ∉ s → f a = []) :
    l.flatMap f = s.flatMap g := by
  induction h with
  | slnil => rfl
  | cons a h ih =>
    obtain ⟨ha, hl⟩ := List.nodup_cons.mp hl
    have hnil := hout a List.mem_cons_self fun has => ha (h.subset has)
    rw [List.flatMap_cons, hnil, List.nil_append]
    exact ih hl hin fun b hb => hout b (List.mem_cons_of_mem a hb)
  | cons_cons a h ih =>
    obtain ⟨ha, hl⟩ := List.nodup_cons.mp hl
    rw [List.flatMap_cons, List.flatMap_cons, hin a List.mem_cons_self]
    refine congrArg (g a ++ ·) (ih hl (fun b hb => hin b (List.mem_cons_of_mem a hb)) ?_)
    intro b hb hbs
    refine hout b (List.mem_cons_of_mem a hb) fun hba => ?_
    rcases List.mem_cons.mp hba with rfl | hba
    · exact ha hb
    · exact hbs hba

variable {child : ε → Option φ} {visible : ε → Bool} {idx : List ι} {m : φ → ι → ε} {n : ℕ}
  {t : φ} {ρ : List ι}

/-- An entry that is seen is at the end of its path. -/
theorem Seen.exists_entryAt (h : Seen child visible m t ρ) :
    ∃ e, entryAt child m t ρ = some e ∧ visible e = true := by
  induction ρ generalizing t with
  | nil => exact h.elim
  | cons i ρ ih =>
    cases ρ with
    | nil => exact ⟨_, rfl, h⟩
    | cons j ρ =>
      obtain ⟨-, s, hs, h⟩ := h
      rw [entryAt, hs]
      exact ih h

/-- A visible entry is seen when the pointers that lead to it are visible. -/
theorem seen_of_entryAt {e : ε} (h : entryAt child m t ρ = some e) (he : visible e = true)
    (hvis : ∀ τ e', τ.length < ρ.length → entryAt child m t τ = some e' → child e' ≠ none →
      visible e' = true) : Seen child visible m t ρ := by
  induction ρ generalizing t with
  | nil => exact absurd h (by simp [entryAt])
  | cons i ρ ih =>
    cases ρ with
    | nil =>
      obtain rfl : m t i = e := Option.some_inj.mp h
      exact he
    | cons j ρ =>
      rw [entryAt, Option.bind_eq_some_iff] at h
      obtain ⟨s, hs, h⟩ := h
      refine ⟨hvis [i] (m t i) (by simp) rfl (by simp [hs]), s, hs, ih h fun τ e' hτ he' => ?_⟩
      refine hvis (i :: τ) e' (by simpa using hτ) ?_
      cases τ with
      | nil => exact absurd he' (by simp [entryAt])
      | cons k τ =>
        rw [entryAt, hs]
        exact he'

/-- What comes below an entry in a traversal with `n` levels under its node. -/
def restBelow (child : ε → Option φ) (visible : ε → Bool) (idx : List ι) (m : φ → ι → ε) :
    ℕ → ε → List (Event ι)
  | 0, _ => []
  | n + 1, e => match child e with
    | some s => traverse child visible idx m n s
    | none => []

/-- One equation for all depths. -/
theorem traverse_eq (n : ℕ) (t : φ) : traverse child visible idx m n t =
    idx.flatMap fun i => traverseEntry visible (restBelow child visible idx m n) (m t i) i := by
  cases n <;> rfl

theorem mem_traverse {x : Event ι} : x ∈ traverse child visible idx m n t ↔
    ∃ i ∈ idx, visible (m t i) = true ∧ (x = enter [i] ∨ x = leave [i] ∨
      ∃ y ∈ restBelow child visible idx m n (m t i), y.below i = x) := by
  rw [traverse_eq, List.mem_flatMap]
  refine exists_congr fun i => and_congr_right fun _ => ?_
  rw [traverseEntry]
  by_cases hv : visible (m t i) = true
  · rw [if_pos hv, List.mem_cons, List.mem_append, List.mem_map, List.mem_singleton]
    simp only [hv, true_and]
    rw [or_comm (a := ∃ y ∈ _, _)]
  · simp [hv]

/-- No step has the empty path. -/
theorem path_ne_nil {x : Event ι} (h : x ∈ traverse child visible idx m n t) : x.path ≠ [] := by
  obtain ⟨i, -, -, rfl | rfl | ⟨y, -, rfl⟩⟩ := mem_traverse.mp h <;> simp

/-- What comes below an entry lies under the node that it points to. -/
theorem mem_restBelow {x : Event ι} {e : ε} : x ∈ restBelow child visible idx m n e ↔
    ∃ k s, n = k + 1 ∧ child e = some s ∧ x ∈ traverse child visible idx m k s := by
  cases n with
  | zero => simp [restBelow]
  | succ n =>
    rw [restBelow]
    cases child e with
    | none => simp
    | some s => simp

theorem below_eq_enter {y : Event ι} {i : ι} :
    y.below i = enter ρ ↔ ∃ τ, y = enter τ ∧ i :: τ = ρ := by
  cases y <;> simp [Event.below]

theorem below_eq_leave {y : Event ι} {i : ι} :
    y.below i = leave ρ ↔ ∃ τ, y = leave τ ∧ i :: τ = ρ := by
  cases y <;> simp [Event.below]

/-- The entries entered are those that are seen down to the depth. -/
theorem enter_mem_traverse (hidx : ∀ i, i ∈ idx) : enter ρ ∈ traverse child visible idx m n t ↔
    ρ.length ≤ n + 1 ∧ Seen child visible m t ρ := by
  induction ρ generalizing n t with
  | nil =>
    constructor
    · intro h
      exact absurd rfl (path_ne_nil h)
    · rintro ⟨-, h⟩
      exact h.elim
  | cons i ρ ih =>
    -- the entry is that of this node, or it comes below
    have hmem : enter (i :: ρ) ∈ traverse child visible idx m n t ↔ visible (m t i) = true ∧
        (ρ = [] ∨ enter ρ ∈ restBelow child visible idx m n (m t i)) := by
      rw [mem_traverse]
      constructor
      · rintro ⟨j, -, hv, h | h | ⟨y, hy, h⟩⟩
        · obtain ⟨rfl, rfl⟩ : i = j ∧ ρ = [] := by simpa using h
          exact ⟨hv, Or.inl rfl⟩
        · exact absurd h (by simp)
        · obtain ⟨τ, rfl, hτ⟩ := below_eq_enter.mp h
          obtain ⟨rfl, rfl⟩ : j = i ∧ τ = ρ := by simpa using hτ
          exact ⟨hv, Or.inr hy⟩
      · rintro ⟨hv, rfl | h⟩
        · exact ⟨i, hidx i, hv, Or.inl rfl⟩
        · exact ⟨i, hidx i, hv, Or.inr (Or.inr ⟨_, h, rfl⟩)⟩
    rw [hmem, mem_restBelow]
    cases ρ with
    | nil => simp [Seen]
    | cons j ρ =>
      rw [Seen]
      constructor
      · rintro ⟨hv, h | ⟨k, s, rfl, hs, h⟩⟩
        · exact absurd h (by simp)
        · obtain ⟨hlen, hseen⟩ := ih.mp h
          exact ⟨by simpa using hlen, hv, s, hs, hseen⟩
      · rintro ⟨hlen, hv, s, hs, hseen⟩
        rw [List.length_cons, List.length_cons] at hlen
        refine ⟨hv, Or.inr ⟨n - 1, s, by omega, hs, ih.mpr ⟨?_, hseen⟩⟩⟩
        rw [List.length_cons]
        omega

/-- An entry that is entered is left. -/
theorem leave_mem_traverse : leave ρ ∈ traverse child visible idx m n t ↔
    enter ρ ∈ traverse child visible idx m n t := by
  induction ρ generalizing n t with
  | nil =>
    constructor
    · intro h
      exact absurd rfl (path_ne_nil h)
    · intro h
      exact absurd rfl (path_ne_nil h)
  | cons i ρ ih =>
    rw [mem_traverse, mem_traverse]
    -- the steps of one entry: both are there, or both come below
    refine exists_congr fun j => and_congr_right fun _ => and_congr_right fun _ => ?_
    constructor
    · rintro (h | h | ⟨y, hy, h⟩)
      · exact absurd h (by simp)
      · exact Or.inl (by simpa using h)
      · obtain ⟨τ, rfl, hτ⟩ := below_eq_leave.mp h
        obtain ⟨rfl, rfl⟩ : j = i ∧ τ = ρ := by simpa using hτ
        obtain ⟨k, s, rfl, hs, hy⟩ := mem_restBelow.mp hy
        exact Or.inr (Or.inr ⟨_, mem_restBelow.mpr ⟨k, s, rfl, hs, ih.mp hy⟩, rfl⟩)
    · rintro (h | h | ⟨y, hy, h⟩)
      · exact Or.inr (Or.inl (by simpa using h))
      · exact absurd h (by simp)
      · obtain ⟨τ, rfl, hτ⟩ := below_eq_enter.mp h
        obtain ⟨rfl, rfl⟩ : j = i ∧ τ = ρ := by simpa using hτ
        obtain ⟨k, s, rfl, hs, hy⟩ := mem_restBelow.mp hy
        exact Or.inr (Or.inr ⟨_, mem_restBelow.mpr ⟨k, s, rfl, hs, ih.mpr hy⟩, rfl⟩)

/-- The steps at an index have paths that start with it. -/
theorem path_of_mem_traverseEntry {rest : ε → List (Event ι)} {e : ε} {i : ι} {x : Event ι}
    (h : x ∈ traverseEntry visible rest e i) : ∃ τ, x.path = i :: τ := by
  rw [traverseEntry] at h
  split at h
  · rw [List.mem_cons, List.mem_append, List.mem_map, List.mem_singleton] at h
    obtain rfl | ⟨y, -, rfl⟩ | rfl := h
    · exact ⟨[], rfl⟩
    · exact ⟨y.path, path_below i y⟩
    · exact ⟨[], rfl⟩
  · exact absurd h List.not_mem_nil

/-- The list enters and leaves an entry once, all that is below it comes between, and nothing of
it before or after. -/
def SplitsAt (l : List (Event ι)) (ρ : List ι) : Prop :=
  ∃ A B C, l = A ++ enter ρ :: (B ++ leave ρ :: C) ∧
    (∀ x ∈ B, ρ <+: x.path ∧ x.path ≠ ρ) ∧ ∀ x ∈ A ++ C, ¬ ρ <+: x.path

/-- What is around a list and has other paths does not matter. -/
theorem SplitsAt.append {l X Y : List (Event ι)} (h : SplitsAt l ρ)
    (hX : ∀ x ∈ X, ¬ ρ <+: x.path) (hY : ∀ x ∈ Y, ¬ ρ <+: x.path) : SplitsAt (X ++ l ++ Y) ρ := by
  obtain ⟨A, B, C, rfl, hB, hAC⟩ := h
  refine ⟨X ++ A, B, C ++ Y, by simp, hB, fun x hx => ?_⟩
  simp only [List.mem_append] at hx hAC
  obtain (hx | hx) | hx | hx := hx
  · exact hX x hx
  · exact hAC x (Or.inl hx)
  · exact hAC x (Or.inr hx)
  · exact hY x hx

/-- The list seen from one node further up. -/
theorem SplitsAt.below {l : List (Event ι)} (h : SplitsAt l ρ) (i : ι) :
    SplitsAt (l.map (below i)) (i :: ρ) := by
  obtain ⟨A, B, C, rfl, hB, hAC⟩ := h
  refine ⟨A.map (Event.below i), B.map (Event.below i), C.map (Event.below i),
    by simp [Event.below], fun x hx => ?_, fun x hx hpre => ?_⟩
  · obtain ⟨y, hy, rfl⟩ := List.mem_map.mp hx
    obtain ⟨hpre, hself⟩ := hB y hy
    rw [path_below]
    exact ⟨List.cons_prefix_cons.mpr ⟨rfl, hpre⟩, fun hc => hself (List.cons.inj hc).2⟩
  · rw [← List.map_append] at hx
    obtain ⟨y, hy, rfl⟩ := List.mem_map.mp hx
    rw [path_below, List.cons_prefix_cons] at hpre
    exact hAC y hy hpre.2

/-- The steps at one index split at the entry itself, and where the steps below it split. -/
theorem traverseEntry_split {rest : ε → List (Event ι)} {e : ε} (i : ι)
    (hne : ∀ x ∈ rest e, x.path ≠ []) (hv : visible e = true)
    (h : ρ = [] ∨ ρ ≠ [] ∧ SplitsAt (rest e) ρ) :
    SplitsAt (traverseEntry visible rest e i) (i :: ρ) := by
  rw [traverseEntry, if_pos hv]
  obtain rfl | ⟨hρ, h⟩ := h
  · refine ⟨[], _, [], rfl, fun x hx => ?_, fun x hx => absurd hx List.not_mem_nil⟩
    obtain ⟨y, hy, rfl⟩ := List.mem_map.mp hx
    rw [path_below]
    exact ⟨⟨y.path, rfl⟩, fun hc => hne y hy (List.cons.inj hc).2⟩
  · have hself : ∀ x : Event ι, x.path = [i] → ¬ i :: ρ <+: x.path := by
      intro x hx hpre
      rw [hx, List.cons_prefix_cons] at hpre
      exact hρ (List.prefix_nil.mp hpre.2)
    refine (h.below i).append (X := [enter [i]]) (Y := [leave [i]]) ?_ ?_
    · intro x hx
      exact hself x (by rw [List.mem_singleton.mp hx]; rfl)
    · intro x hx
      exact hself x (by rw [List.mem_singleton.mp hx]; rfl)

/-- A traversal splits at every entry that it enters. -/
theorem traverse_split (hidx : idx.Nodup) (h : enter ρ ∈ traverse child visible idx m n t) :
    SplitsAt (traverse child visible idx m n t) ρ := by
  induction ρ generalizing n t with
  | nil => exact absurd rfl (path_ne_nil h)
  | cons i ρ ih =>
    obtain ⟨j, hj, hv, hcases⟩ := mem_traverse.mp h
    have hρ : i = j ∧ (ρ = [] ∨ enter ρ ∈ restBelow child visible idx m n (m t j)) := by
      obtain h | h | ⟨y, hy, h⟩ := hcases
      · obtain ⟨rfl, rfl⟩ : i = j ∧ ρ = [] := by simpa using h
        exact ⟨rfl, Or.inl rfl⟩
      · exact absurd h (by simp)
      · obtain ⟨τ, rfl, hτ⟩ := below_eq_enter.mp h
        obtain ⟨rfl, rfl⟩ : j = i ∧ τ = ρ := by simpa using hτ
        exact ⟨rfl, Or.inr hy⟩
    obtain ⟨rfl, hρ⟩ := hρ
    have hne : ∀ x ∈ restBelow child visible idx m n (m t i), x.path ≠ [] := by
      intro x hx
      obtain ⟨k, s, -, -, hx⟩ := mem_restBelow.mp hx
      exact path_ne_nil hx
    have hentry : SplitsAt (traverseEntry visible (restBelow child visible idx m n) (m t i) i)
        (i :: ρ) := by
      refine traverseEntry_split i hne hv (hρ.imp_right fun h => ?_)
      obtain ⟨k, s, rfl, hs, hmem⟩ := mem_restBelow.mp h
      rw [restBelow, hs]
      exact ⟨path_ne_nil hmem, ih hmem⟩
    -- the steps at the other indices have other paths
    have hother : ∀ I : List ι, i ∉ I → ∀ x ∈ I.flatMap fun j =>
        traverseEntry visible (restBelow child visible idx m n) (m t j) j, ¬ i :: ρ <+: x.path := by
      intro I hI x hx hpre
      obtain ⟨j, hj, hx⟩ := List.mem_flatMap.mp hx
      obtain ⟨σ, hσ⟩ := path_of_mem_traverseEntry hx
      rw [hσ, List.cons_prefix_cons] at hpre
      exact hI (hpre.1 ▸ hj)
    obtain ⟨I₁, I₂, hsplit⟩ := List.append_of_mem hj
    rw [hsplit, List.nodup_append, List.nodup_cons] at hidx
    rw [traverse_eq, hsplit, List.flatMap_append, List.flatMap_cons, ← List.append_assoc]
    rw [← hsplit]
    exact hentry.append (hother I₁ fun hi => hidx.2.2 i hi i List.mem_cons_self rfl)
      (hother I₂ hidx.2.1.1)

/-! ### The order -/

/-- The paths of the entries entered, in their order. -/
def enters (l : List (Event ι)) : List (List ι) := l.filterMap Event.enterPath

@[simp] theorem enters_nil : enters ([] : List (Event ι)) = [] := rfl

@[simp] theorem enters_cons_enter (l : List (Event ι)) :
    enters (enter ρ :: l) = ρ :: enters l := rfl

@[simp] theorem enters_cons_leave (l : List (Event ι)) : enters (leave ρ :: l) = enters l := rfl

@[simp] theorem enters_append (l l' : List (Event ι)) : enters (l ++ l') = enters l ++ enters l' :=
  List.filterMap_append

theorem mem_enters {l : List (Event ι)} : ρ ∈ enters l ↔ enter ρ ∈ l := by
  rw [enters, List.mem_filterMap]
  constructor
  · rintro ⟨x, hx, h⟩
    cases x with
    | enter τ =>
      obtain rfl : τ = ρ := by simpa [Event.enterPath] using h
      exact hx
    | leave τ => exact absurd h (by simp [Event.enterPath])
  · intro h
    exact ⟨_, h, rfl⟩

theorem enters_traverseEntry (rest : ε → List (Event ι)) (e : ε) (i : ι) :
    enters (traverseEntry visible rest e i) =
      if visible e then [i] :: (enters (rest e)).map (i :: ·) else [] := by
  have hbelow : ∀ l : List (Event ι), enters (l.map (below i)) = (enters l).map (i :: ·) := by
    intro l
    induction l with
    | nil => rfl
    | cons x l ih => cases x <;> simp [Event.below, ih]
  rw [traverseEntry]
  split
  · simp [hbelow]
  · rfl

/-- Entries are entered in the lexicographic order of their paths. -/
theorem pairwise_enters [LinearOrder ι] (hidx : idx.Pairwise (· < ·)) :
    (enters (traverse child visible idx m n t)).Pairwise (· < ·) := by
  -- one level, given the order below its entries
  have level : ∀ (n : ℕ) (t : φ),
      (∀ e : ε, (enters (restBelow child visible idx m n e)).Pairwise (· < ·)) →
      (enters (traverse child visible idx m n t)).Pairwise (· < ·) := by
    intro n t hrest
    rw [traverse_eq, enters, List.filterMap_flatMap, List.pairwise_flatMap]
    refine ⟨fun i _ => ?_, hidx.imp fun {i j} hij x hx y hy => ?_⟩
    · rw [← enters, enters_traverseEntry]
      split
      · refine List.pairwise_cons.mpr ⟨fun x hx => ?_, ?_⟩
        · obtain ⟨τ, hτ, rfl⟩ := List.mem_map.mp hx
          obtain ⟨k, s, -, -, hmem⟩ := mem_restBelow.mp (mem_enters.mp hτ)
          obtain ⟨j, σ, rfl⟩ := List.exists_cons_of_ne_nil (path_ne_nil hmem)
          exact List.Lex.cons List.Lex.nil
        · exact (hrest (m t i)).map _ fun _ _ h => List.Lex.cons h
      · exact List.Pairwise.nil
    · -- the paths start with different indices
      obtain ⟨σ, hσ⟩ := path_of_mem_traverseEntry (mem_enters.mp hx)
      obtain ⟨τ, hτ⟩ := path_of_mem_traverseEntry (mem_enters.mp hy)
      rw [path_enter] at hσ hτ
      rw [hσ, hτ]
      exact List.Lex.rel hij
  induction n generalizing t with
  | zero => exact level 0 t fun _ => List.Pairwise.nil
  | succ n ih =>
    refine level (n + 1) t fun e => ?_
    rw [restBelow]
    cases child e with
    | none => exact List.Pairwise.nil
    | some s => exact ih

end Radix
