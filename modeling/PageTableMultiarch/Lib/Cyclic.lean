/-
Intervals of numbers modulo `N`.

`Within N a n c` says that `c` lies, modulo `N`, in the interval of length `n` that
starts at `a`.

* `within_add` — an interval splits in two;
* `not_within_of_within` — the two parts are apart when together they are no longer
  than `N`;
* `within_block_iff` — an interval that is a block of a divisor `b` of `N` holds the
  numbers with the same quotient by `b`.
-/
import Mathlib.Data.Nat.ModEq
import Mathlib.Tactic.Ring

namespace Cyclic

/-- Modulo `N` the number `c` lies in the interval of length `n` from `a`. -/
def Within (N a n c : ℕ) : Prop := ∃ x < n, c % N = (a + x) % N

variable {N a b n k c : ℕ}

theorem not_within_zero : ¬ Within N a 0 c := fun ⟨_, hx, _⟩ => absurd hx (by omega)

theorem within_self (h : 0 < n) : Within N a n a := ⟨0, h, by rw [Nat.add_zero]⟩

theorem within_add : Within N a (n + k) c ↔ Within N a n c ∨ Within N (a + n) k c := by
  constructor
  · rintro ⟨x, hx, hc⟩
    rcases Nat.lt_or_ge x n with hlt | hge
    · exact Or.inl ⟨x, hlt, hc⟩
    · exact Or.inr ⟨x - n, by omega, by rw [hc]; congr 1; omega⟩
  · rintro (⟨x, hx, hc⟩ | ⟨x, hx, hc⟩)
    · exact ⟨x, by omega, hc⟩
    · exact ⟨n + x, by omega, by rw [hc, Nat.add_assoc]⟩

theorem Within.mono (h : Within N a n c) (hn : n ≤ k) : Within N a k c := by
  obtain ⟨x, hx, hc⟩ := h
  exact ⟨x, by omega, hc⟩

/-- The start of an interval counts modulo `N` too. -/
theorem within_congr {a' : ℕ} (h : a % N = a' % N) : Within N a n c ↔ Within N a' n c := by
  have hmod : ∀ x, (a + x) % N = (a' + x) % N := fun x => Nat.ModEq.add_right x h
  exact ⟨fun ⟨x, hx, hc⟩ => ⟨x, hx, hc.trans (hmod x)⟩,
    fun ⟨x, hx, hc⟩ => ⟨x, hx, hc.trans (hmod x).symm⟩⟩

/-- Two consecutive intervals that together are no longer than `N` are apart. -/
theorem not_within_of_within (hN : n + k ≤ N) (h : Within N a n c) : ¬ Within N (a + n) k c := by
  obtain ⟨x, hx, hc⟩ := h
  rintro ⟨y, hy, hc'⟩
  have hmod : a + x ≡ a + n + y [MOD N] := hc.symm.trans hc'
  have hdvd := (Nat.modEq_iff_dvd' (by omega)).mp hmod
  have := Nat.le_of_dvd (by omega) hdvd
  omega

/-- A block of a divisor of `N` holds the numbers with the same quotient. -/
theorem within_block_iff (hb : 0 < b) (hbN : b ∣ N) (hba : b ∣ a) :
    Within N a b c ↔ a % N / b = c % N / b := by
  obtain ⟨q, rfl⟩ := hbN
  obtain ⟨p, rfl⟩ := hba
  have hdiv : ∀ x < b, (b * p + x) % (b * q) / b = p % q := by
    intro x hx
    rw [Nat.mod_mul_right_div_self, Nat.mul_add_div hb, Nat.div_eq_of_lt hx, Nat.add_zero]
  constructor
  · rintro ⟨x, hx, hc⟩
    rw [hc, hdiv x hx]
    simpa using hdiv 0 hb
  · intro h
    have hp := hdiv 0 hb
    rw [Nat.add_zero] at hp
    refine ⟨c % (b * q) % b, Nat.mod_lt _ hb, ?_⟩
    -- the remainder modulo `b * q` is fixed by the quotient and the remainder by `b`
    have hc := Nat.div_add_mod (c % (b * q)) b
    rw [← h, hp] at hc
    have hsame : b * p ≡ b * (p % q) [MOD b * q] := ((Nat.mod_modEq p q).mul_left' b).symm
    have := (hsame.add_right (c % (b * q) % b)).symm
    rw [hc] at this
    exact (Nat.mod_mod c (b * q)).symm.trans this

end Cyclic
