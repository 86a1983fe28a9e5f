/-
Page table walks of a processor.

At each table of the walk the processor decodes one entry: it faults, goes on with the next
table, or has found the page.  What a table entry permits limits what is found below it.

* `translate` — the walk along a path of indices, with the rights that are left;
* `lookup` — the walk in a tree of tables and pages, and `expected` what an entry of the tree
  should mean to the processor;
* `translate_eq_lookup` — if every entry on a path means that, the walks agree.
-/
import Mathlib.Order.BoundedOrder.Lattice
import Mathlib.Data.Nat.Notation

namespace PageWalk

variable {φ ι ε ρ : Type*}

/-- What an entry means to the processor. -/
inductive Decoded (φ ρ : Type*) where
  | fault
  | table (next : φ) (limit : ρ)
  | page (base : φ) (rights : ρ)

/-- The walk from a table along a path of indices: the page that is found, the rights to it
and its height above the last level.  The meaning of an entry depends on its height. -/
def translate [Min ρ] (decode : ℕ → ε → Decoded φ ρ) (m : φ → ι → ε) :
    ρ → φ → List ι → Option (φ × ρ × ℕ)
  | _, _, [] => none
  | r, t, i :: π =>
    match decode π.length (m t i) with
    | .fault => none
    | .table next limit => translate decode m (r ⊓ limit) next π
    | .page base rights => some (base, r ⊓ rights, π.length)

/-- The walk in a tree in which an entry points to a table, or is a page, depending on its
height. -/
def lookup (child : ℕ → ε → Option φ) (page : ℕ → ε → Option (φ × ρ)) (m : φ → ι → ε) :
    φ → List ι → Option (φ × ρ × ℕ)
  | _, [] => none
  | t, i :: π =>
    match child π.length (m t i) with
    | some next => lookup child page m next π
    | none => (page π.length (m t i)).map fun found => (found.1, found.2, π.length)

/-- What an entry of the tree should mean to the processor: tables limit nothing, and what
is no table and no page faults. -/
def expected [Top ρ] (child : ℕ → ε → Option φ) (page : ℕ → ε → Option (φ × ρ)) (k : ℕ)
    (e : ε) : Decoded φ ρ :=
  match child k e with
  | some next => .table next ⊤
  | none => match page k e with
    | some (base, rights) => .page base rights
    | none => .fault

/-- The entries that are met along a path mean to the processor what they should. -/
def ReadsAlong [Top ρ] (decode : ℕ → ε → Decoded φ ρ) (child : ℕ → ε → Option φ)
    (page : ℕ → ε → Option (φ × ρ)) (m : φ → ι → ε) : φ → List ι → Prop
  | _, [] => True
  | t, i :: π => decode π.length (m t i) = expected child page π.length (m t i) ∧
    ∀ next, child π.length (m t i) = some next → ReadsAlong decode child page m next π

variable {decode : ℕ → ε → Decoded φ ρ} {child : ℕ → ε → Option φ}
  {page : ℕ → ε → Option (φ × ρ)} {m : φ → ι → ε} {t next : φ} {e : ε} {k : ℕ} {π : List ι}

theorem expected_of_child [Top ρ] (h : child k e = some next) :
    expected child page k e = .table next ⊤ := by
  rw [expected, h]

theorem expected_of_page [Top ρ] {base : φ} {rights : ρ} (h : child k e = none)
    (hp : page k e = some (base, rights)) : expected child page k e = .page base rights := by
  rw [expected, h]
  simp only [hp]

theorem expected_of_none [Top ρ] (h : child k e = none) (hp : page k e = none) :
    expected child page k e = .fault := by
  rw [expected, h]
  simp only [hp]

/-- The walk of the processor is the walk in the tree, and the rights are those of the page,
as far as they are left. -/
theorem translate_eq_lookup [SemilatticeInf ρ] [OrderTop ρ] (r : ρ)
    (h : ReadsAlong decode child page m t π) :
    translate decode m r t π =
      (lookup child page m t π).map fun found => (found.1, r ⊓ found.2.1, found.2.2) := by
  induction π generalizing t with
  | nil => rfl
  | cons i π ih =>
    obtain ⟨hread, hbelow⟩ := h
    rw [translate, lookup, hread]
    cases hc : child π.length (m t i) with
    | some next =>
      rw [expected_of_child hc]
      simp only [inf_top_eq]
      exact ih (hbelow next hc)
    | none =>
      cases hp : page π.length (m t i) with
      | none =>
        rw [expected_of_none hc hp]
        rfl
      | some found =>
        rw [expected_of_page hc hp]
        rfl

end PageWalk
