/-
Partial maps from disjoint pages to values.

A page is a size and a number; it covers the addresses whose quotient by the size is
the number.  A `PageMap` gives values to pages no two of which share an address, so
`lookup` finds at most one page at an address.

* `lookup_eq_some`, `lookup_eq_none` — what `lookup` finds;
* `lookup_insert`, `lookup_replace`, `lookup_assign`, `lookup_erase` — the updates change the
  addresses of one page and no others.
-/
import Mathlib.Logic.Function.Basic
import Mathlib.Data.Option.Basic
import Mathlib.Data.Nat.Notation

/-- The page with a number among those of a size. -/
@[ext] structure Page (ι : Type*) where
  size : ι
  number : ℕ
  deriving DecidableEq

namespace Page

variable {ι : Type*} (bytes : ι → ℕ)

/-- The page covers the address. -/
def Covers (p : Page ι) (a : ℕ) : Prop := a / bytes p.size = p.number

instance (p : Page ι) (a : ℕ) : Decidable (p.Covers bytes a) :=
  inferInstanceAs (Decidable (_ = _))

/-- The page of a size that covers an address. -/
def containing (s : ι) (a : ℕ) : Page ι := ⟨s, a / bytes s⟩

theorem eq_containing_of_covers {p : Page ι} {a : ℕ} (h : p.Covers bytes a) :
    p = Page.containing bytes p.size a := by
  ext
  · rfl
  · exact h.symm

end Page

/-- A partial map from pages to values; no two of its pages share an address. -/
structure PageMap {ι : Type*} (bytes : ι → ℕ) (α : Type*) where
  get : Page ι → Option α
  disjoint {p q : Page ι} {a : ℕ} : get p ≠ none → get q ≠ none → p.Covers bytes a →
    q.Covers bytes a → p = q

namespace PageMap

variable {ι α : Type*} {bytes : ι → ℕ}

/-- The map without pages. -/
def empty : PageMap bytes α := ⟨fun _ => none, fun h => absurd rfl h⟩

open Classical in
/-- The page that covers an address, with its value. -/
noncomputable def lookup (S : PageMap bytes α) (a : ℕ) : Option (Page ι × α) :=
  if h : ∃ px : Page ι × α, S.get px.1 = some px.2 ∧ px.1.Covers bytes a then some h.choose
  else none

theorem lookup_eq_some {S : PageMap bytes α} {a : ℕ} {p : Page ι} {x : α} :
    S.lookup a = some (p, x) ↔ S.get p = some x ∧ p.Covers bytes a := by
  rw [lookup]
  constructor
  · intro h
    split at h
    · next hex =>
      have hspec := hex.choose_spec
      rwa [Option.some_inj.mp h] at hspec
    · exact absurd h (by simp)
  · intro h
    have hex : ∃ px : Page ι × α, S.get px.1 = some px.2 ∧ px.1.Covers bytes a := ⟨(p, x), h⟩
    rw [dif_pos hex, Option.some_inj]
    have hspec := hex.choose_spec
    have hp : hex.choose.1 = p :=
      S.disjoint (by rw [hspec.1]; simp) (by rw [h.1]; simp) hspec.2 h.2
    refine Prod.ext hp (Option.some_inj.mp ?_)
    rw [← hspec.1, hp, h.1]

theorem lookup_eq_none {S : PageMap bytes α} {a : ℕ} :
    S.lookup a = none ↔ ∀ p : Page ι, p.Covers bytes a → S.get p = none := by
  constructor
  · intro h p hp
    rcases hx : S.get p with _ | x
    · rfl
    · rw [lookup_eq_some.mpr ⟨hx, hp⟩] at h
      exact absurd h (by simp)
  · intro h
    rcases hl : S.lookup a with _ | ⟨p, x⟩
    · rfl
    · obtain ⟨hx, hp⟩ := lookup_eq_some.mp hl
      rw [h p hp] at hx
      exact absurd hx (by simp)

@[simp] theorem lookup_empty (a : ℕ) : (empty : PageMap bytes α).lookup a = none :=
  lookup_eq_none.mpr fun _ _ => rfl

/-- Two maps that agree on the pages covering an address agree there. -/
theorem lookup_congr {S T : PageMap bytes α} {a : ℕ}
    (h : ∀ p : Page ι, p.Covers bytes a → T.get p = S.get p) : T.lookup a = S.lookup a := by
  rcases hS : S.lookup a with _ | ⟨p, x⟩
  · rw [lookup_eq_none] at hS ⊢
    exact fun p hp => (h p hp).trans (hS p hp)
  · rw [lookup_eq_some] at hS ⊢
    exact ⟨(h p hS.2).trans hS.1, hS.2⟩

/-- No address of the page is mapped. -/
def Free (S : PageMap bytes α) (p : Page ι) : Prop :=
  ∀ a, p.Covers bytes a → S.lookup a = none

variable [DecidableEq ι]

/-- Add a page whose addresses are not mapped. -/
def insert (S : PageMap bytes α) (p : Page ι) (x : α) (h : S.Free p) : PageMap bytes α where
  get := Function.update S.get p (some x)
  disjoint := by
    intro q r a hq hr hqa hra
    by_cases hqp : q = p
    · by_cases hrp : r = p
      · rw [hqp, hrp]
      · rw [Function.update_of_ne hrp] at hr
        exact absurd (lookup_eq_none.mp (h a (hqp ▸ hqa)) r hra) hr
    · rw [Function.update_of_ne hqp] at hq
      by_cases hrp : r = p
      · exact absurd (lookup_eq_none.mp (h a (hrp ▸ hra)) q hqa) hq
      · rw [Function.update_of_ne hrp] at hr
        exact S.disjoint hq hr hqa hra

/-- Give a page of the map another value. -/
def replace (S : PageMap bytes α) (p : Page ι) (x : α) (h : S.get p ≠ none) :
    PageMap bytes α where
  get := Function.update S.get p (some x)
  disjoint := by
    have keep : ∀ {q : Page ι}, Function.update S.get p (some x) q ≠ none → S.get q ≠ none := by
      intro q hq
      by_cases hqp : q = p
      · rwa [hqp]
      · rwa [Function.update_of_ne hqp] at hq
    exact fun _ _ _ hq hr hqa hra => S.disjoint (keep hq) (keep hr) hqa hra

open Classical in
/-- Give a value to a page of the map, or to one whose addresses are not mapped. -/
noncomputable def assign (S : PageMap bytes α) (p : Page ι) (x : α) : PageMap bytes α :=
  if h : S.get p ≠ none then S.replace p x h
  else if h : S.Free p then S.insert p x h
  else S

/-- Remove a page. -/
def erase (S : PageMap bytes α) (p : Page ι) : PageMap bytes α where
  get := Function.update S.get p none
  disjoint := by
    have keep : ∀ {q : Page ι}, Function.update S.get p none q ≠ none → S.get q ≠ none := by
      intro q hq
      by_cases hqp : q = p
      · rw [hqp, Function.update_self] at hq
        exact absurd rfl hq
      · rwa [Function.update_of_ne hqp] at hq
    exact fun _ _ _ hq hr hqa hra => S.disjoint (keep hq) (keep hr) hqa hra

theorem lookup_insert (S : PageMap bytes α) (p : Page ι) (x : α) (h : S.Free p) (a : ℕ) :
    (S.insert p x h).lookup a = if p.Covers bytes a then some (p, x) else S.lookup a := by
  split
  · next hp => exact lookup_eq_some.mpr ⟨Function.update_self .., hp⟩
  · next hp =>
    refine lookup_congr fun q hq => Function.update_of_ne ?_ ..
    rintro rfl
    exact hp hq

theorem lookup_replace (S : PageMap bytes α) (p : Page ι) (x : α) (h : S.get p ≠ none) (a : ℕ) :
    (S.replace p x h).lookup a = if p.Covers bytes a then some (p, x) else S.lookup a := by
  split
  · next hp => exact lookup_eq_some.mpr ⟨Function.update_self .., hp⟩
  · next hp =>
    refine lookup_congr fun q hq => Function.update_of_ne ?_ ..
    rintro rfl
    exact hp hq

theorem lookup_assign {S : PageMap bytes α} {p : Page ι} (h : S.get p ≠ none ∨ S.Free p) (x : α)
    (a : ℕ) :
    (S.assign p x).lookup a = if p.Covers bytes a then some (p, x) else S.lookup a := by
  rw [assign]
  split
  · next hget => exact lookup_replace S p x hget a
  · next hget =>
    rw [dif_pos (h.resolve_left hget)]
    exact lookup_insert S p x _ a

theorem get_assign {S : PageMap bytes α} {p q : Page ι} {x y : α}
    (h : (S.assign p x).get q = some y) : q = p ∧ y = x ∨ S.get q = some y := by
  have hupdate : ∀ {z : α}, Function.update S.get p (some x) q = some z →
      q = p ∧ z = x ∨ S.get q = some z := by
    intro z hz
    by_cases hqp : q = p
    · rw [hqp, Function.update_self, Option.some_inj] at hz
      exact Or.inl ⟨hqp, hz.symm⟩
    · rw [Function.update_of_ne hqp] at hz
      exact Or.inr hz
  rw [assign] at h
  split at h
  · exact hupdate h
  · split at h
    · exact hupdate h
    · exact Or.inr h

theorem assign_get {S : PageMap bytes α} {p : Page ι} (h : S.get p ≠ none ∨ S.Free p) (x : α) :
    (S.assign p x).get = Function.update S.get p (some x) := by
  rw [assign]
  split
  · rfl
  · next hget =>
    rw [dif_pos (h.resolve_left hget)]
    rfl

/-- No page is lost. -/
theorem assign_get_ne_none {S : PageMap bytes α} {p q : Page ι} (h : S.get q ≠ none) (x : α) :
    (S.assign p x).get q ≠ none := by
  have hupdate : Function.update S.get p (some x) q ≠ none := by
    by_cases hqp : q = p
    · rw [hqp, Function.update_self]
      simp
    · rwa [Function.update_of_ne hqp]
  rw [assign]
  split
  · exact hupdate
  · split
    · exact hupdate
    · exact h

theorem get_erase {S : PageMap bytes α} {p q : Page ι} {y : α} (h : (S.erase p).get q = some y) :
    S.get q = some y := by
  have hupdate : Function.update S.get p none q = some y := h
  by_cases hqp : q = p
  · rw [hqp, Function.update_self] at hupdate
    nomatch hupdate
  · rwa [Function.update_of_ne hqp] at hupdate

theorem lookup_erase {S : PageMap bytes α} {p : Page ι} (h : S.get p ≠ none) (a : ℕ) :
    (S.erase p).lookup a = if p.Covers bytes a then none else S.lookup a := by
  split
  · next hp =>
    refine lookup_eq_none.mpr fun q hq => ?_
    by_cases hqp : q = p
    · rw [hqp]
      exact Function.update_self ..
    · by_contra hc
      have hq' : S.get q ≠ none := fun h0 => hc ((Function.update_of_ne hqp ..).trans h0)
      exact hqp (S.disjoint hq' h hq hp)
  · next hp =>
    refine lookup_congr fun q hq => Function.update_of_ne ?_ ..
    rintro rfl
    exact hp hq

end PageMap
