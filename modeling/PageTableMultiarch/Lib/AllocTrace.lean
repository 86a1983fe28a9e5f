/-
Traces of allocations, frees and accesses.

A trace lists what a program did to the blocks it gets from an allocator, the
newest event first.  `live` is the set of blocks allocated and not freed since;
a trace is `Safe` when every allocation returns a block that is not live and
every access and every free is to a live one.  From safety follow the counting
facts one wants of a memory manager: `Safe.count_alloc` (a block is freed as often
as it was allocated, but for the live ones) and `Safe.mem_live_of_access`.
-/
import Mathlib.Data.Set.Insert
import Mathlib.Data.List.Basic

/-- What happens to a block of memory. -/
inductive MemEvent (φ : Type*) where
  | alloc (p : φ)
  | free (p : φ)
  | access (p : φ)
  deriving DecidableEq

namespace MemEvent

variable {φ : Type*}

/-- The blocks allocated and not freed since. -/
def live : List (MemEvent φ) → Set φ
  | [] => ∅
  | alloc p :: l => insert p (live l)
  | free p :: l => live l \ {p}
  | access _ :: l => live l

/-- Fresh allocations; frees and accesses of live blocks only. -/
def Safe : List (MemEvent φ) → Prop
  | [] => True
  | alloc p :: l => p ∉ live l ∧ Safe l
  | free p :: l => p ∈ live l ∧ Safe l
  | access p :: l => p ∈ live l ∧ Safe l

@[simp] theorem live_nil : live ([] : List (MemEvent φ)) = ∅ := rfl

@[simp] theorem live_alloc (p : φ) (l : List (MemEvent φ)) :
    live (alloc p :: l) = insert p (live l) := rfl

@[simp] theorem live_free (p : φ) (l : List (MemEvent φ)) :
    live (free p :: l) = live l \ {p} := rfl

@[simp] theorem live_access (p : φ) (l : List (MemEvent φ)) :
    live (access p :: l) = live l := rfl

@[simp] theorem safe_alloc {p : φ} {l : List (MemEvent φ)} :
    Safe (alloc p :: l) ↔ p ∉ live l ∧ Safe l := Iff.rfl

@[simp] theorem safe_free {p : φ} {l : List (MemEvent φ)} :
    Safe (free p :: l) ↔ p ∈ live l ∧ Safe l := Iff.rfl

@[simp] theorem safe_access {p : φ} {l : List (MemEvent φ)} :
    Safe (access p :: l) ↔ p ∈ live l ∧ Safe l := Iff.rfl

theorem Safe.tail {e : MemEvent φ} {l : List (MemEvent φ)} (h : Safe (e :: l)) : Safe l := by
  cases e with
  | alloc p => exact h.2
  | free p => exact h.2
  | access p => exact h.2

theorem Safe.of_suffix {l l' : List (MemEvent φ)} (h : Safe l') (hl : l <:+ l') : Safe l := by
  obtain ⟨t, rfl⟩ := hl
  induction t with
  | nil => exact h
  | cons e t ih => exact ih h.tail

/-- A safe trace accesses live blocks only. -/
theorem Safe.mem_live_of_access {l before : List (MemEvent φ)} {p : φ} (h : Safe l)
    (hl : access p :: before <:+ l) : p ∈ live before :=
  (safe_access.mp (h.of_suffix hl)).1

/-- A safe trace frees live blocks only. -/
theorem Safe.mem_live_of_free {l before : List (MemEvent φ)} {p : φ} (h : Safe l)
    (hl : free p :: before <:+ l) : p ∈ live before :=
  (safe_free.mp (h.of_suffix hl)).1

/-- Up to the live blocks, every block is freed as often as it is allocated. -/
theorem Safe.count_alloc [DecidableEq φ] {l : List (MemEvent φ)} (h : Safe l) (p : φ) :
    (p ∈ live l → l.count (alloc p) = l.count (free p) + 1) ∧
      (p ∉ live l → l.count (alloc p) = l.count (free p)) := by
  induction l with
  | nil => simp
  | cons e l ih =>
    have ih := ih h.tail
    cases e with
    | access q => simpa using ih
    | alloc q =>
      have hq : q ∉ live l := (safe_alloc.mp h).1
      by_cases hpq : q = p
      · subst hpq
        simp [ih.2 hq]
      · have hpq' : p ≠ q := fun h => hpq h.symm
        simpa [List.count_cons, hpq, hpq'] using ih
    | free q =>
      have hq : q ∈ live l := (safe_free.mp h).1
      by_cases hpq : q = p
      · subst hpq
        simp [ih.1 hq]
      · have hpq' : p ≠ q := fun h => hpq h.symm
        simpa [List.count_cons, hpq, hpq'] using ih

/-- Only allocated blocks are live. -/
theorem alloc_mem_of_live {l : List (MemEvent φ)} {p : φ} (h : p ∈ live l) : alloc p ∈ l := by
  induction l with
  | nil => exact h.elim
  | cons e l ih =>
    cases e with
    | access q => exact List.mem_cons_of_mem _ (ih h)
    | free q => exact List.mem_cons_of_mem _ (ih h.1)
    | alloc q =>
      obtain rfl | h := h
      · exact List.mem_cons_self
      · exact List.mem_cons_of_mem _ (ih h)

/-- A live block was live before or has been allocated since. -/
theorem live_append {l l' : List (MemEvent φ)} {p : φ} (h : p ∈ live (l' ++ l)) :
    p ∈ live l ∨ alloc p ∈ l' := by
  induction l' with
  | nil => exact Or.inl h
  | cons e l' ih =>
    have step : p ∈ live (l' ++ l) → p ∈ live l ∨ alloc p ∈ e :: l' := fun h =>
      (ih h).imp_right (List.mem_cons_of_mem _)
    cases e with
    | access q => exact step h
    | free q => exact step h.1
    | alloc q =>
      obtain rfl | h := h
      · exact Or.inr List.mem_cons_self
      · exact step h

/-- In a safe trace no block is freed more often than it is allocated. -/
theorem Safe.count_free_le [DecidableEq φ] {l : List (MemEvent φ)} (h : Safe l) (p : φ) :
    l.count (free p) ≤ l.count (alloc p) := by
  have hcount := h.count_alloc p
  by_cases hp : p ∈ live l
  · have := hcount.1 hp
    omega
  · have := hcount.2 hp
    omega

/-- A block that is allocated at most once is dead after a free. -/
theorem Safe.not_free_before [DecidableEq φ] {l before : List (MemEvent φ)} {p : φ}
    {e : MemEvent φ} (h : Safe l) (hl : e :: before <:+ l) (hp : p ∈ live before)
    (hone : l.count (alloc p) ≤ 1) : free p ∉ before := by
  intro hmem
  have hsub : before <:+ l := (List.suffix_cons e before).trans hl
  have hle : before.count (alloc p) ≤ l.count (alloc p) := hsub.sublist.count_le _
  have hc := ((h.of_suffix hsub).count_alloc p).1 hp
  have := List.count_pos_iff.mpr hmem
  omega

/-- Without frees no block of a safe trace is allocated twice. -/
theorem Safe.count_alloc_le [DecidableEq φ] {l : List (MemEvent φ)} (h : Safe l)
    (hno : ∀ p, free p ∉ l) (p : φ) : l.count (alloc p) ≤ 1 := by
  have hfree : l.count (free p) = 0 := List.count_eq_zero.mpr (hno p)
  have hcount := h.count_alloc p
  by_cases hp : p ∈ live l
  · have := hcount.1 hp
    omega
  · have := hcount.2 hp
    omega

/-- A safe trace that leaves no block live and allocates none twice frees each block it allocates
once, and accesses a block only between the two. -/
theorem Safe.returned [DecidableEq φ] {l : List (MemEvent φ)} (h : Safe l) (hlive : live l = ∅)
    (hone : ∀ p, l.count (alloc p) ≤ 1) :
    (∀ p, l.count (free p) = if alloc p ∈ l then 1 else 0) ∧
      ∀ p before, access p :: before <:+ l → alloc p ∈ before ∧ free p ∉ before := by
  refine ⟨fun p => ?_, fun p before hsuf => ?_⟩
  · have hdead : p ∉ live l := by
      rw [hlive]
      exact Set.notMem_empty p
    have hle := hone p
    rw [← (h.count_alloc p).2 hdead]
    split
    · next hmem =>
      have := List.count_pos_iff.mpr hmem
      omega
    · next hmem => exact List.count_eq_zero.mpr hmem
  · have hp := h.mem_live_of_access hsuf
    exact ⟨alloc_mem_of_live hp, h.not_free_before hsuf hp (hone p)⟩

end MemEvent
