/-
Caches that are invalidated late.

A cache holds facts `(k, a)`: the key `k` has the answer `a`.  What the facts are about
changes, and the one who changes it does not remove a fact at once: it notes down what to
flush, and flushes later.  Several owners may have flushes outstanding at a time.

* `Coherent` — each cached fact holds, or an owner has noted down a flush that removes it;
* the rules: filling, evicting, changing under the eyes of an owner, flushing;
* `Coherent.exact` — when nothing is outstanding each cached fact holds.
-/
import Mathlib.Data.Set.Insert
import Mathlib.Logic.Function.Basic

namespace LazyCache

variable {κ ν ι φ : Type*}

/-- An owner has noted down a flush that removes the fact. -/
def Awaited (covers : φ → κ → ν → Prop) (pend : ι → Option φ) (k : κ) (a : ν) : Prop :=
  ∃ i p, pend i = some p ∧ covers p k a

/-- Each cached fact holds, or a flush that removes it is outstanding. -/
def Coherent (holds : κ → ν → Prop) (covers : φ → κ → ν → Prop) (cache : Set (κ × ν))
    (pend : ι → Option φ) : Prop :=
  ∀ k a, (k, a) ∈ cache → holds k a ∨ Awaited covers pend k a

variable {holds holds' : κ → ν → Prop} {covers : φ → κ → ν → Prop} {cache cache' : Set (κ × ν)}
  {pend : ι → Option φ} {i : ι} {p p' : φ} {k : κ} {a : ν}

theorem Coherent.empty (holds : κ → ν → Prop) (covers : φ → κ → ν → Prop)
    (pend : ι → Option φ) : Coherent holds covers ∅ pend :=
  fun _ _ hc => hc.elim

/-- Facts may be forgotten at any time. -/
theorem Coherent.evict (h : Coherent holds covers cache pend) (hsub : cache' ⊆ cache) :
    Coherent holds covers cache' pend :=
  fun k a hka => h k a (hsub hka)

/-- A fact that holds may be cached at any time. -/
theorem Coherent.fill (h : Coherent holds covers cache pend) (hka : holds k a) :
    Coherent holds covers (insert (k, a) cache) pend := by
  rintro k' a' (heq | hmem)
  · rw [Prod.mk.injEq] at heq
    rw [heq.1, heq.2]
    exact Or.inl hka
  · exact h k' a' hmem

/-- A change that cached facts do not see. -/
theorem Coherent.unseen (h : Coherent holds covers cache pend)
    (hsame : ∀ k a, (k, a) ∈ cache → holds k a → holds' k a) :
    Coherent holds' covers cache pend :=
  fun k a hka => (h k a hka).imp_left (hsame k a hka)

variable [DecidableEq ι]

/-- What is outstanding for one owner concerns no other. -/
theorem Awaited.update {o : Option φ} (h : Awaited covers pend k a)
    (hi : ∀ p, pend i = some p → covers p k a → ∃ p', o = some p' ∧ covers p' k a) :
    Awaited covers (Function.update pend i o) k a := by
  obtain ⟨j, q, hq, hcov⟩ := h
  by_cases hj : j = i
  · subst hj
    obtain ⟨p', rfl, hcov'⟩ := hi q hq hcov
    exact ⟨j, p', Function.update_self j _ pend, hcov'⟩
  · exact ⟨j, q, (Function.update_of_ne hj _ pend).trans hq, hcov⟩

/-- A new owner. -/
theorem Coherent.enter (h : Coherent holds covers cache pend) (hi : pend i = none) (p : φ) :
    Coherent holds covers cache (Function.update pend i (some p)) := by
  refine fun k a hka => (h k a hka).imp_right fun hw => hw.update fun q hq => ?_
  rw [hi] at hq
  exact absurd hq (by simp)

/-- An owner makes a change: what it had noted down it keeps, and the facts that no longer
hold it notes down. -/
theorem Coherent.change (h : Coherent holds covers cache pend) (hi : pend i = some p)
    (hkeep : ∀ k a, (k, a) ∈ cache → covers p k a → covers p' k a)
    (hnote : ∀ k a, (k, a) ∈ cache → holds k a → holds' k a ∨ covers p' k a) :
    Coherent holds' covers cache (Function.update pend i (some p')) := by
  intro k a hka
  obtain hholds | hw := h k a hka
  · refine (hnote k a hka hholds).imp_right fun hcov => ?_
    exact ⟨i, p', Function.update_self i _ pend, hcov⟩
  · refine Or.inr (hw.update fun q hq hcov => ⟨p', rfl, hkeep k a hka ?_⟩)
    rw [hi, Option.some_inj] at hq
    rwa [hq]

/-- An owner flushes: the facts that it has noted down are gone, and it may leave. -/
theorem Coherent.flush (h : Coherent holds covers cache pend) (hi : pend i = some p)
    (hsub : cache' ⊆ cache) (hgone : ∀ k a, (k, a) ∈ cache' → ¬covers p k a) (o : Option φ) :
    Coherent holds covers cache' (Function.update pend i o) := by
  intro k a hka
  refine (h k a (hsub hka)).imp_right fun hw => hw.update fun q hq hcov => ?_
  rw [hi, Option.some_inj] at hq
  rw [← hq] at hcov
  exact absurd hcov (hgone k a hka)

omit [DecidableEq ι] in
/-- Without outstanding flushes the cache is right. -/
theorem Coherent.exact (h : Coherent holds covers cache pend)
    (hnone : ∀ i p, pend i = some p → ∀ k a, ¬covers p k a) (hka : (k, a) ∈ cache) :
    holds k a := by
  obtain hholds | ⟨i, p, hi, hcov⟩ := h k a hka
  · exact hholds
  · exact absurd hcov (hnone i p hi k a)

end LazyCache
