/-
Two computations that correspond.

`Agree R Q` relates the outcomes of two computations on different states: both return a
value, both fail with the same error, or both panic; the states are related by `R`, and
returned values by `Q`, which may speak of the states too.

* `Agree.bind` — computations that correspond part by part correspond;
* `Agree.loop` — and so do loops over regions;
* `Agree.res_eq` — what corresponds returns the same.
-/
import PageTableMultiarch.Loop

namespace PageTableMultiarch

variable {A C α β α' β' : Type} {R : A → C → Prop} {Q : α → A → β → C → Prop}
  {Q' : α' → A → β' → C → Prop}

/-- The outcomes correspond. -/
inductive Agree (R : A → C → Prop) (Q : α → A → β → C → Prop) : Res α × A → Res β × C → Prop
  | ok {u : α} {a : A} {v : β} {c : C} (hR : R a c) (hQ : Q u a v c) :
    Agree R Q (.ok u, a) (.ok v, c)
  | err {a : A} {c : C} (e : PagingError) (hR : R a c) : Agree R Q (.err e, a) (.err e, c)
  | panic {a : A} {c : C} (hR : R a c) : Agree R Q (.panic, a) (.panic, c)

namespace Agree

/-- What corresponds part by part corresponds. -/
theorem bind {x : Op A α} {y : Op C β} {f : α → Op A α'} {g : β → Op C β'} {a : A} {c : C}
    (h : Agree R Q (x a) (y c))
    (hf : ∀ u a' v c', R a' c' → Q u a' v c' → Agree R Q' (f u a') (g v c')) :
    Agree R Q' ((x >>= f) a) ((y >>= g) c) := by
  rw [Op.bind_apply, Op.bind_apply]
  generalize x a = r, y c = s at h ⊢
  cases h with
  | ok hR hQ => exact hf _ _ _ _ hR hQ
  | err e hR => exact .err e hR
  | panic hR => exact .panic hR

/-- Related values may be related more loosely. -/
theorem mono {Q₁ : α → A → β → C → Prop} {x : Res α × A} {y : Res β × C} (h : Agree R Q x y)
    (hQ : ∀ u a v c, R a c → Q u a v c → Q₁ u a v c) : Agree R Q₁ x y := by
  cases h with
  | ok hR h => exact .ok hR (hQ _ _ _ _ hR h)
  | err e hR => exact .err e hR
  | panic hR => exact .panic hR

/-- Outcomes that correspond with equal values are the same. -/
theorem res_eq {x : Res α × A} {y : Res α × C} (h : Agree R (fun u _ v _ => u = v) x y) :
    x.1 = y.1 := by
  cases h with
  | ok _ hQ => exact congrArg Res.ok hQ
  | err => rfl
  | panic => rfl

theorem state {x : Res α × A} {y : Res β × C} (h : Agree R Q x y) : R x.2 y.2 := by
  cases h with
  | ok hR => exact hR
  | err _ hR => exact hR
  | panic hR => exact hR

/-! ### Loops -/

theorem add {n : ℕ} (B : Build) (x y : BitVec n) {a : A} {c : C} (hR : R a c) :
    Agree R (fun u _ v _ => u = v) (checkedAdd B x y a) (checkedAdd B x y c) := by
  rw [checkedAdd, checkedAdd]
  split
  · exact .panic hR
  · exact .ok hR rfl

theorem sub {n : ℕ} (B : Build) (x y : BitVec n) {a : A} {c : C} (hR : R a c) :
    Agree R (fun u _ v _ => u = v) (checkedSub B x y a) (checkedSub B x y c) := by
  rw [checkedSub, checkedSub]
  split
  · exact .panic hR
  · exact .ok hR rfl

/-- The assertions at the end of a round look at no state. -/
theorem assertions {n : ℕ} (ps : PageSize) (v size : BitVec n) {a : A} {c : C} (hR : R a c) :
    Agree R (fun u _ v _ => u = v) (assertStep ps v size a) (assertStep ps v size c) := by
  rw [assertStep, assertStep]
  cases ps.isAligned v with
  | false => exact .panic hR
  | true =>
    cases decide (ps.toUsize n ≤ size) with
    | false => exact .panic hR
    | true => exact .ok hR rfl

/-- Loops whose rounds correspond correspond. -/
theorem loop {n : ℕ} (B : Build) {x : BitVec n → BitVec n → Op A PageSize}
    {y : BitVec n → BitVec n → Op C PageSize}
    (hbody : ∀ v size a c, R a c → Agree R (fun u _ v _ => u = v) (x v size a) (y v size c))
    (fuel : ℕ) (v size : BitVec n) {a : A} {c : C} (hR : R a c) :
    Agree R (fun u _ v _ => u = v) (regionLoop B x fuel v size a)
      (regionLoop B y fuel v size c) := by
  induction fuel generalizing v size a c with
  | zero =>
    rw [regionLoop, regionLoop]
    split
    · exact .ok hR rfl
    · exact .panic hR
  | succ fuel ih =>
    rw [regionLoop, regionLoop]
    split
    · exact .ok hR rfl
    · refine (hbody v size a c hR).bind fun ps a₁ ps' c₁ hR₁ hps => ?_
      subst hps
      refine (add B v _ hR₁).bind fun v₁ a₂ v₁' c₂ hR₂ hv => ?_
      subst hv
      refine (sub B size _ hR₂).bind fun size₁ a₃ size₁' c₃ hR₃ hsize => ?_
      subst hsize
      exact ih v₁ size₁ hR₃

end Agree

end PageTableMultiarch
