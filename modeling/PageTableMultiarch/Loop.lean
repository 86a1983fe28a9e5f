/-
Loops of the methods, and the rules to prove things about them.

* `forLimited` — a loop that ends after a number of rounds that count;
* `regionLoop` — the `while size > 0` loop of the region methods;
* `regionLoop_rounds` — what each round keeps, the loop keeps;
* `rounds_fit_iff` — when the addresses and sizes of its rounds do not overflow;
* `regionLoop_wrap_rule`, `regionLoop_rule` — an invariant over the bytes done so far.
-/
import PageTableMultiarch.Basic

namespace PageTableMultiarch

variable {S α : Type} {w : ℕ}

/-- `for x in xs { body(x) }`. -/
def forEach : List α → (α → Op S Unit) → Op S Unit
  | [], _ => pure ()
  | x :: xs, body => do
    body x
    forEach xs body

/-- The result of a call, to be matched on. -/
def attempt (x : Op S α) : Op S (Except PagingError α) := fun s =>
  match x s with
  | (.ok a, s') => (.ok (.ok a), s')
  | (.err e, s') => (.ok (.error e), s')
  | (.panic, s') => (.panic, s')

/-- `a + b` on `usize`. -/
def checkedAdd (B : Build) (a b : BitVec w) : Op S (BitVec w) :=
  if B.overflowChecks && decide (2 ^ w ≤ a.toNat + b.toNat) then Op.panic else pure (a + b)

/-- `a - b` on `usize`. -/
def checkedSub (B : Build) (a b : BitVec w) : Op S (BitVec w) :=
  if B.overflowChecks && decide (a.toNat < b.toNat) then Op.panic else pure (a - b)

/-- `for x in xs { if body(x) { n += 1; if n >= limit { break; } } }`. -/
def forLimited (limit : ℕ) (body : α → Op S Bool) : List α → ℕ → Op S Unit
  | [], _ => pure ()
  | x :: xs, n => do
    let counts ← body x
    if counts then
      if limit ≤ n + 1 then pure () else forLimited limit body xs (n + 1)
    else forLimited limit body xs n

/-- The limit is compared after a round, so limit zero is limit one. -/
theorem forLimited_zero (body : α → Op S Bool) (l : List α) (n : ℕ) :
    forLimited 0 body l n = forLimited 1 body l n := by
  induction l generalizing n with
  | nil => rfl
  | cons x l ih =>
    funext s
    rw [forLimited, forLimited, ih n, ih (n + 1)]
    have h1 : 1 ≤ n + 1 := Nat.le_add_left 1 n
    simp only [Nat.zero_le, h1, if_true]

/-- A loop with a limit handles the first elements that count, as many as the limit allows, and
passes over those that do not count.  Each round keeps `J`, and does `h` to what `acc` reads off
the state if the element counts. -/
theorem forLimited_take {β : Type} {limit : ℕ} {body : α → Op S Bool} {J : S → Prop} {acc : S → β}
    {h : β → α → β} {counts : α → Bool} {l : List α}
    {n : ℕ} (hbody : ∀ x ∈ l, (counts x = true → x ∈ (l.filter counts).take (limit - n)) →
      ∀ s, J s → ∃ s', body x s = (.ok (counts x), s') ∧ J s' ∧
        acc s' = if counts x then h (acc s) x else acc s)
    (hn : n < limit) {s : S} (hs : J s) :
    ∃ s', forLimited limit body l n s = (.ok (), s') ∧ J s' ∧
      acc s' = ((l.filter counts).take (limit - n)).foldl h (acc s) := by
  induction l generalizing n s with
  | nil =>
    refine ⟨s, rfl, hs, ?_⟩
    rw [List.filter_nil, List.take_nil, List.foldl_nil]
  | cons x l ih =>
    rw [List.filter_cons] at hbody ⊢
    cases hc : counts x with
    | false =>
      -- an element that does not count
      rw [hc, if_neg Bool.false_ne_true] at hbody
      obtain ⟨s₁, hx, hs₁, hacc⟩ := hbody x List.mem_cons_self (fun h => absurd (hc.symm.trans h)
        Bool.false_ne_true) s hs
      obtain ⟨s', hs', hJ, hfold⟩ := ih (fun y hy => hbody y (List.mem_cons_of_mem x hy)) hn hs₁
      rw [hc] at hx hacc
      rw [forLimited, Op.bind_ok hx]
      exact ⟨s', hs', hJ, by rw [hfold, hacc]; rfl⟩
    | true =>
      rw [hc, if_pos rfl, show limit - n = limit - (n + 1) + 1 by omega,
        List.take_succ_cons] at hbody
      obtain ⟨s₁, hx, hs₁, hacc⟩ := hbody x List.mem_cons_self (fun _ => List.mem_cons_self) s hs
      rw [hc] at hx hacc
      rw [forLimited, Op.bind_ok hx, if_pos rfl, if_pos rfl,
        show limit - n = limit - (n + 1) + 1 by omega, List.take_succ_cons, List.foldl_cons]
      by_cases hlast : limit ≤ n + 1
      · -- the limit is reached with this element
        rw [if_pos hlast, Nat.sub_eq_zero_of_le hlast, List.take_zero]
        exact ⟨s₁, rfl, hs₁, hacc⟩
      · rw [if_neg hlast]
        obtain ⟨s', hs', hJ, hfold⟩ := ih (fun y hy hcount => hbody y (List.mem_cons_of_mem x hy)
          (fun h => List.mem_cons_of_mem x (hcount h))) (Nat.lt_of_not_le hlast) hs₁
        exact ⟨s', hs', hJ, by rw [hfold, hacc]; rfl⟩

/-- A loop that its limit does not cut short and that returns has run through each round. -/
theorem forLimited_ok {limit : ℕ} {body : α → Op S Bool} {J : S → Prop} {l : List α} {n : ℕ}
    (hbody : ∀ x ∈ l, ∀ s, J s → J (body x s).2) (hlimit : n + l.length ≤ limit) {s : S}
    (hs : J s) (hok : (forLimited limit body l n s).1 = .ok ()) :
    ∀ x ∈ l, ∃ s' b, J s' ∧ (body x s').1 = .ok b := by
  induction l generalizing n s with
  | nil =>
    intro x hx
    exact absurd hx List.not_mem_nil
  | cons y l ih =>
    rw [List.length_cons] at hlimit
    have hy := hbody y List.mem_cons_self s hs
    have hrest := fun x hx => hbody x (List.mem_cons_of_mem y hx)
    rw [forLimited] at hok
    rcases hround : body y s with ⟨b | e | _, s₁⟩
    · rw [hround] at hy
      rw [Op.bind_ok hround] at hok
      intro x hx
      obtain rfl | hx := List.mem_cons.mp hx
      · exact ⟨s, b, hs, by rw [hround]⟩
      · -- a later round: the limit is not reached by this one
        have hpos : 0 < l.length := List.length_pos_of_mem hx
        cases b with
        | true =>
          rw [if_pos rfl, if_neg (by omega)] at hok
          exact ih hrest (by omega) hy hok x hx
        | false =>
          rw [if_neg Bool.false_ne_true] at hok
          exact ih hrest (by omega) hy hok x hx
    · rw [Op.bind_err hround] at hok
      exact absurd hok (by simp)
    · rw [Op.bind_panic hround] at hok
      exact absurd hok (by simp)

/-! ### The loop of the region methods -/

/-- The loop of the region methods: while `size > 0`, the body handles the page at
`vaddr` and says how far to advance.  The fuel counts 4K pages. -/
def regionLoop (B : Build) (body : BitVec w → BitVec w → Op S PageSize) :
    ℕ → BitVec w → BitVec w → Op S Unit
  | 0, _, size => if size = 0 then pure () else Op.panic
  | fuel + 1, vaddr, size =>
    if size = 0 then pure ()
    else do
      let pageSize ← body vaddr size
      let vaddr ← checkedAdd B vaddr (pageSize.toUsize w)
      let size ← checkedSub B size (pageSize.toUsize w)
      regionLoop B body fuel vaddr size

/-- Enough fuel for a region: every step takes at least 4K. -/
def regionFuel (size : BitVec w) : ℕ := size.toNat / 0x1000 + 1

/-- The assertions at the end of a round of `unmap_region` and `protect_region`. -/
def assertStep (pageSize : PageSize) (vaddr size : BitVec w) : Op S PageSize := do
  Op.assert (pageSize.isAligned vaddr)
  Op.assert (decide (pageSize.toUsize w ≤ size))
  return pageSize

variable {B : Build} {body : BitVec w → BitVec w → Op S PageSize}

/-- A condition holds at the start of each round of a loop. -/
def Rounds (B : Build) (body : BitVec w → BitVec w → Op S PageSize)
    (ok : BitVec w → BitVec w → S → Prop) : ℕ → BitVec w → BitVec w → S → Prop
  | 0, _, _, _ => True
  | fuel + 1, v, size, s => size ≠ 0 → ok v size s ∧ ∀ ps s' v' size',
    body v size s = (.ok ps, s') → checkedAdd B v (ps.toUsize w) s' = (.ok v', s') →
      checkedSub B size (ps.toUsize w) s' = (.ok size', s') → Rounds B body ok fuel v' size' s'

theorem Rounds.of_forall {ok : BitVec w → BitVec w → S → Prop} (h : ∀ v size s, ok v size s)
    (fuel : ℕ) (v size : BitVec w) (s : S) : Rounds B body ok fuel v size s := by
  induction fuel generalizing v size s with
  | zero => trivial
  | succ fuel ih => exact fun _ => ⟨h v size s, fun _ _ _ _ _ _ _ => ih _ _ _⟩

theorem Rounds.mono {ok ok' : BitVec w → BitVec w → S → Prop}
    (h : ∀ v size s, ok v size s → ok' v size s) {fuel : ℕ} {v size : BitVec w} {s : S}
    (hr : Rounds B body ok fuel v size s) : Rounds B body ok' fuel v size s := by
  induction fuel generalizing v size s with
  | zero => trivial
  | succ fuel ih =>
    intro h0
    obtain ⟨hnow, hlater⟩ := hr h0
    exact ⟨h _ _ _ hnow, fun ps s' v' size' hb hv hs => ih (hlater ps s' v' size' hb hv hs)⟩

/-- A reflexive and transitive relation that each round keeps is kept by the loop. -/
theorem regionLoop_rounds {J : S → Prop} {r : S → S → Prop} {ok : BitVec w → BitVec w → S → Prop}
    (hrefl : ∀ s, r s s) (htrans : ∀ {a b c}, r a b → r b c → r a c)
    (hbody : ∀ v size s, J s → ok v size s → r s (body v size s).2 ∧ J (body v size s).2)
    (fuel : ℕ) (v size : BitVec w) {s : S} (hJ : J s)
    (hok : Rounds B body ok fuel v size s) :
    r s (regionLoop B body fuel v size s).2 := by
  induction fuel generalizing v size s with
  | zero =>
    rw [regionLoop]
    split <;> exact hrefl s
  | succ fuel ih =>
    rw [regionLoop]
    split
    · exact hrefl s
    · next h0 =>
      obtain ⟨hnow, hlater⟩ := hok h0
      obtain ⟨hr, hJ'⟩ := hbody v size s hJ hnow
      -- the arithmetic between the rounds leaves the state alone
      have hadd : ∀ (a b : BitVec w) (s' : S), (checkedAdd B a b s').2 = s' := by
        intro a b s'
        rw [checkedAdd]
        split <;> rfl
      have hsub : ∀ (a b : BitVec w) (s' : S), (checkedSub B a b s').2 = s' := by
        intro a b s'
        rw [checkedSub]
        split <;> rfl
      refine Op.bind_rel (r := r) htrans hr fun ps s₁ h₁ => ?_
      rw [h₁] at hJ'
      refine Op.bind_rel (r := r) htrans (by rw [hadd]; exact hrefl s₁) fun v' s₂ h₂ => ?_
      obtain rfl : s₂ = s₁ := by rw [← hadd v (ps.toUsize w) s₁, h₂]
      refine Op.bind_rel (r := r) htrans (by rw [hsub]; exact hrefl s₂) fun size' s₃ h₃ => ?_
      obtain rfl : s₃ = s₂ := by rw [← hsub size (ps.toUsize w) s₂, h₃]
      exact ih v' size' hJ' (hlater ps s₃ v' size' h₁ h₂ h₃)

/-- A relation that the body keeps at any address is kept by the loop. -/
theorem regionLoop_rel {J : S → Prop} {r : S → S → Prop} (hrefl : ∀ s, r s s)
    (htrans : ∀ {a b c}, r a b → r b c → r a c)
    (hbody : ∀ v size s, J s → r s (body v size s).2 ∧ J (body v size s).2) (fuel : ℕ)
    (v size : BitVec w) {s : S} (hJ : J s) :
    r s (regionLoop B body fuel v size s).2 :=
  regionLoop_rounds hrefl htrans (fun v size s h _ => hbody v size s h) fuel v size hJ
    (.of_forall (fun _ _ _ => trivial) fuel v size s)

theorem checkedAdd_cases (a b : BitVec w) (s : S) :
    checkedAdd B a b s = (.ok (a + b), s) ∨ checkedAdd B a b s = (.panic, s) := by
  rw [checkedAdd]
  split
  · exact Or.inr rfl
  · exact Or.inl rfl

/-- A loop that returns has run through its first round, and the same page may be next in any other
loop. -/
theorem regionLoop_ok {fuel : ℕ} {v size : BitVec w} {s s₁ : S} (hne : size ≠ 0)
    (h : regionLoop B body fuel v size s = (.ok (), s₁)) : ∃ rest ps s', fuel = rest + 1 ∧
      body v size s = (.ok ps, s') ∧
      regionLoop B body rest (v + ps.toUsize w) (size - ps.toUsize w) s' = (.ok (), s₁) ∧
      ∀ {T : Type} {other : BitVec w → BitVec w → Op T PageSize} {t t' : T},
        other v size t = (.ok ps, t') → regionLoop B other (rest + 1) v size t =
          regionLoop B other rest (v + ps.toUsize w) (size - ps.toUsize w) t' := by
  rcases fuel with _ | rest
  · rw [regionLoop, if_neg hne] at h
    nomatch h
  · rw [regionLoop, if_neg hne] at h
    rcases hbody : body v size s with ⟨ps | e | _, s'⟩
    · rw [Op.bind_ok hbody] at h
      -- the sums are the same in every loop
      cases hadd : B.overflowChecks && decide (2 ^ w ≤ v.toNat + (ps.toUsize w).toNat) with
      | true =>
        have hpanic : checkedAdd B v (ps.toUsize w) s' = (.panic, s') := by
          rw [checkedAdd, hadd]
          rfl
        rw [Op.bind_panic hpanic] at h
        nomatch h
      | false =>
        have hok : ∀ {T : Type} (t : T), checkedAdd B v (ps.toUsize w) t =
            (.ok (v + ps.toUsize w), t) := fun t => by
          rw [checkedAdd, hadd]
          rfl
        rw [Op.bind_ok (hok s')] at h
        cases hsub : B.overflowChecks && decide (size.toNat < (ps.toUsize w).toNat) with
        | true =>
          have hpanic : checkedSub B size (ps.toUsize w) s' = (.panic, s') := by
            rw [checkedSub, hsub]
            rfl
          rw [Op.bind_panic hpanic] at h
          nomatch h
        | false =>
          have hok' : ∀ {T : Type} (t : T), checkedSub B size (ps.toUsize w) t =
              (.ok (size - ps.toUsize w), t) := fun t => by
            rw [checkedSub, hsub]
            rfl
          rw [Op.bind_ok (hok' s')] at h
          refine ⟨rest, ps, s', rfl, rfl, h, fun {T other t t'} hother => ?_⟩
          rw [regionLoop, if_neg hne, Op.bind_ok hother, Op.bind_ok (hok t'), Op.bind_ok (hok' t')]
    · rw [Op.bind_err hbody] at h
      nomatch h
    · rw [Op.bind_panic hbody] at h
      nomatch h

/-- Each round of a loop succeeds. -/
def Finishes (body : BitVec w → BitVec w → Op S PageSize) : ℕ → BitVec w → BitVec w → S → Prop
  | 0, _, size, _ => size = 0
  | fuel + 1, v, size, s => size = 0 ∨ ∃ ps s', body v size s = (.ok ps, s') ∧
    Finishes body fuel (v + ps.toUsize w) (size - ps.toUsize w) s'

/-- The sum on `usize` does not overflow. -/
def AddFits (a b : BitVec w) : Prop := a.toNat + b.toNat < 2 ^ w

/-- The difference on `usize` does not underflow. -/
def SubFits (a b : BitVec w) : Prop := b.toNat ≤ a.toNat

/-- The address behind the page of a round and the rest of the size do not overflow. -/
def RoundFits (body : BitVec w → BitVec w → Op S PageSize) (v size : BitVec w) (s : S) : Prop :=
  ∀ ps s', body v size s = (.ok ps, s') → AddFits v (ps.toUsize w) ∧ SubFits size (ps.toUsize w)

theorem checkedAdd_of_fits {a b : BitVec w} (h : AddFits a b) (s : S) :
    checkedAdd B a b s = (.ok (a + b), s) := by
  rw [checkedAdd, decide_eq_false (Nat.not_le.mpr h), Bool.and_false, if_neg Bool.false_ne_true]
  rfl

theorem checkedSub_of_fits {a b : BitVec w} (h : SubFits a b) (s : S) :
    checkedSub B a b s = (.ok (a - b), s) := by
  rw [checkedSub, decide_eq_false (Nat.not_lt.mpr h), Bool.and_false, if_neg Bool.false_ne_true]
  rfl

theorem finishes_of_ok {fuel : ℕ} {v size : BitVec w} {s s' : S} {ps : PageSize} (h0 : size ≠ 0)
    (h : body v size s = (.ok ps, s')) : Finishes body (fuel + 1) v size s ↔
      Finishes body fuel (v + ps.toUsize w) (size - ps.toUsize w) s' := by
  rw [Finishes, h, or_iff_right h0]
  constructor
  · rintro ⟨ps', s₁, heq, hfinish⟩
    obtain ⟨hok, rfl⟩ := Prod.mk.inj heq
    obtain rfl := Res.ok.inj hok
    exact hfinish
  · exact fun hfinish => ⟨ps, s', rfl, hfinish⟩

theorem rounds_of_ok {fuel : ℕ} {v size : BitVec w} {s s' : S} {ps : PageSize} (h0 : size ≠ 0)
    (h : body v size s = (.ok ps, s')) (hadd : AddFits v (ps.toUsize w))
    (hsub : SubFits size (ps.toUsize w)) :
    Rounds B body (RoundFits body) (fuel + 1) v size s ↔
      Rounds B body (RoundFits body) fuel (v + ps.toUsize w) (size - ps.toUsize w) s' := by
  rw [Rounds, h]
  constructor
  · intro hrounds
    exact (hrounds h0).2 ps s' _ _ rfl (checkedAdd_of_fits hadd s') (checkedSub_of_fits hsub s')
  · intro hrounds _
    refine ⟨fun ps' s₁ heq => ?_, fun ps' s₁ v' size' heq hv hsize => ?_⟩
    · obtain ⟨hok, rfl⟩ := Prod.mk.inj (h.symm.trans heq)
      obtain rfl := Res.ok.inj hok
      exact ⟨hadd, hsub⟩
    · obtain ⟨hok, rfl⟩ := Prod.mk.inj heq
      obtain rfl := Res.ok.inj hok
      rw [checkedAdd_of_fits hadd] at hv
      rw [checkedSub_of_fits hsub] at hsize
      obtain rfl := Res.ok.inj (Prod.mk.inj hv).1
      obtain rfl := Res.ok.inj (Prod.mk.inj hsize).1
      exact hrounds

/-- A loop that ends in a round that does not succeed. -/
theorem rounds_of_not_ok {fuel : ℕ} {v size : BitVec w} {s : S} (h0 : size ≠ 0)
    (h : ∀ ps s', body v size s ≠ (.ok ps, s')) :
    Rounds B body (RoundFits body) (fuel + 1) v size s ∧ ¬ Finishes body (fuel + 1) v size s := by
  refine ⟨fun _ => ⟨fun ps s' hok => absurd hok (h ps s'),
    fun ps s' _ _ hok => absurd hok (h ps s')⟩,
    fun hfinish => ?_⟩
  obtain h0' | ⟨ps, s', hok, -⟩ := hfinish
  · exact h0 h0'
  · exact h ps s' hok

/-- In a loop over pages that lie in the rest of a region no round overflows, unless each round
succeeds and the region ends at the top of the address space. -/
theorem rounds_fit_iff (hw : 32 ≤ w) (hbody : ∀ v size s ps s', size ≠ 0 →
      size.toNat % 0x1000 = 0 → body v size s = (.ok ps, s') → ps.bytes ≤ size.toNat)
    (fuel : ℕ) {v size : BitVec w} (hfuel : size.toNat < 0x1000 * fuel)
    (haligned : size.toNat % 0x1000 = 0) (hle : v.toNat + size.toNat ≤ 2 ^ w) (s : S) :
    Rounds B body (RoundFits body) fuel v size s ↔
      v.toNat + size.toNat < 2 ^ w ∨ ¬ Finishes body fuel v size s := by
  induction fuel generalizing v size s with
  | zero => omega
  | succ fuel ih =>
    by_cases h0 : size = 0
    · subst h0
      refine iff_of_true (fun hne => absurd rfl hne) (Or.inl ?_)
      simpa using v.isLt
    -- a round that fails ends the loop before any arithmetic
    rcases hr : body v size s with ⟨ps | err | _, s'⟩
    · have hps : (ps.toUsize w).toNat = ps.bytes := PageSize.toNat_toUsize hw ps
      have hfit := hbody v size s ps s' h0 haligned hr
      have hpos := ps.four_k_le_bytes
      have hdvd : ps.bytes % 0x1000 = 0 := Nat.mod_eq_zero_of_dvd ps.four_k_dvd_bytes
      have hsub : SubFits size (ps.toUsize w) := by
        rw [SubFits, hps]
        exact hfit
      have hrest : (size - ps.toUsize w).toNat = size.toNat - ps.bytes := by
        rw [BitVec.toNat_sub_of_le (by rwa [BitVec.le_def]), hps]
      have hfinish : Finishes body (fuel + 1) v size s ↔
          Finishes body fuel (v + ps.toUsize w) (size - ps.toUsize w) s' := finishes_of_ok h0 hr
      by_cases hadd : AddFits v (ps.toUsize w)
      · -- the loop goes on
        have hnext : (v + ps.toUsize w).toNat = v.toNat + ps.bytes := by
          rw [AddFits, hps] at hadd
          rw [BitVec.toNat_add, hps, Nat.mod_eq_of_lt hadd]
        rw [rounds_of_ok h0 hr hadd hsub, hfinish, ih (by omega) (by omega) (by omega), hnext,
          hrest, show v.toNat + ps.bytes + (size.toNat - ps.bytes) = v.toNat + size.toNat by omega]
      · -- the page ends at the top of the address space, and so does the region
        have htop : size.toNat = ps.bytes := by
          rw [AddFits, hps] at hadd
          omega
        refine iff_of_false (fun h => hadd ((h h0).1 ps s' hr).1) ?_
        rw [hfinish, not_or, not_not, Nat.not_lt]
        have hzero : size - ps.toUsize w = 0 :=
          BitVec.eq_of_toNat_eq (by rw [hrest, htop]; simp)
        rw [hzero]
        refine ⟨by rw [AddFits, hps] at hadd; omega, ?_⟩
        cases fuel with
        | zero => rfl
        | succ fuel => exact Or.inl rfl
    · obtain ⟨hrounds, hfinish⟩ := rounds_of_not_ok h0 fun ps s'' hok => nomatch hr.symm.trans hok
      exact iff_of_true hrounds (Or.inr hfinish)
    · obtain ⟨hrounds, hfinish⟩ := rounds_of_not_ok h0 fun ps s'' hok => nomatch hr.symm.trans hok
      exact iff_of_true hrounds (Or.inr hfinish)

theorem toNat_regionFuel (size : BitVec w) : size.toNat < 0x1000 * regionFuel size := by
  rw [regionFuel]
  omega

/-- The rule for the loops of the region methods.  `I x s` is the invariant after the
first `x` bytes; the body either handles a page that lies in the rest of the region, or
leaves the loop in a way that `Q` allows.  The address may wrap around, unless the build
checks for overflow; then no round starts at an address that has wrapped. -/
theorem regionLoop_wrap_rule (hw : 32 ≤ w) {I : ℕ → S → Prop} {Q : Res Unit → S → Prop}
    {v size : BitVec w}
    (hbody : ∀ x s, x < size.toNat → (B.overflowChecks = true → v.toNat + x < 2 ^ w) → I x s →
      (∃ ps s', body (v + BitVec.ofNat w x) (size - BitVec.ofNat w x) s = (.ok ps, s') ∧
        x + ps.bytes ≤ size.toNat ∧ I (x + ps.bytes) s') ∨
      (∃ e s', body (v + BitVec.ofNat w x) (size - BitVec.ofNat w x) s = (.err e, s') ∧
        Q (.err e) s') ∨
      ∃ s', body (v + BitVec.ofNat w x) (size - BitVec.ofNat w x) s = (.panic, s') ∧
        Q .panic s')
    (hover : ∀ x s, x ≤ size.toNat → I x s → B.overflowChecks = true →
      2 ^ w ≤ v.toNat + x → Q .panic s)
    (hend : ∀ s, I size.toNat s → (B.overflowChecks = true → v.toNat + size.toNat < 2 ^ w) →
      Q (.ok ()) s) {s : S} (h0 : I 0 s) :
    Q (regionLoop B body (regionFuel size) v size s).1
      (regionLoop B body (regionFuel size) v size s).2 := by
  -- generalise to the rest of the region after `x` bytes
  have main : ∀ (fuel x : ℕ) (s : S), x ≤ size.toNat → size.toNat - x < 0x1000 * fuel →
      (B.overflowChecks = true → v.toNat + x < 2 ^ w) → I x s →
      Q (regionLoop B body fuel (v + BitVec.ofNat w x)
          (size - BitVec.ofNat w x) s).1
        (regionLoop B body fuel (v + BitVec.ofNat w x)
          (size - BitVec.ofNat w x) s).2 := by
    intro fuel
    induction fuel with
    | zero =>
      intro x s _ hfuel
      omega
    | succ fuel ih =>
      intro x s hx hfuel hno hI
      have hsizelt := size.isLt
      have hxnat : (BitVec.ofNat w x).toNat = x := by
        rw [BitVec.toNat_ofNat, Nat.mod_eq_of_lt (by omega)]
      have hrest : (size - BitVec.ofNat w x).toNat = size.toNat - x := by
        rw [BitVec.toNat_sub_of_le (by rw [BitVec.le_def, hxnat]; exact hx), hxnat]
      rw [regionLoop]
      by_cases hz : size - BitVec.ofNat w x = 0
      · rw [if_pos hz]
        have : size.toNat - x = 0 := by
          rw [← hrest, hz]
          rfl
        obtain rfl : x = size.toNat := by omega
        exact hend s hI hno
      · rw [if_neg hz]
        have hlt : x < size.toNat := by
          by_contra hc
          refine hz (BitVec.eq_of_toNat_eq ?_)
          rw [hrest]
          simp
          omega
        rcases hbody x s hlt hno hI with ⟨ps, s', hr, hle, hI'⟩ | ⟨e, s', hr, hQ⟩ | ⟨s', hr, hQ⟩
        · rw [Op.bind_ok hr]
          have hps : (ps.toUsize w).toNat = ps.bytes := PageSize.toNat_toUsize hw ps
          by_cases hover' : B.overflowChecks = true ∧
              2 ^ w ≤ (v + BitVec.ofNat w x).toNat + ps.bytes
          · -- the check of the addition fails
            have hvx : (v + BitVec.ofNat w x).toNat = v.toNat + x := by
              rw [BitVec.toNat_add, hxnat, Nat.mod_eq_of_lt (hno hover'.1)]
            have hadd : checkedAdd B (v + BitVec.ofNat w x) (ps.toUsize w) s' = (.panic, s') := by
              rw [checkedAdd, hps, hover'.1, decide_eq_true hover'.2]
              rfl
            rw [Op.bind_panic hadd]
            exact hover _ s' hle hI' hover'.1 (by omega)
          · have hadd : checkedAdd B (v + BitVec.ofNat w x) (ps.toUsize w) s' =
                (.ok (v + BitVec.ofNat w (x + ps.bytes)), s') := by
              rw [checkedAdd, hps, if_neg (by
                rw [Bool.and_eq_true, decide_eq_true_eq]
                exact hover'), BitVec.add_assoc, PageSize.toUsize, ← BitVec.ofNat_add]
              rfl
            have hsub : checkedSub B (size - BitVec.ofNat w x) (ps.toUsize w) s' =
                (.ok (size - BitVec.ofNat w (x + ps.bytes)), s') := by
              rw [checkedSub, hrest, hps, decide_eq_false (by omega), Bool.and_false,
                if_neg (by simp), BitVec.sub_sub, PageSize.toUsize, ← BitVec.ofNat_add]
              rfl
            rw [Op.bind_ok hadd, Op.bind_ok hsub]
            have := ps.four_k_le_bytes
            refine ih (x + ps.bytes) s' hle (by omega) (fun hB => ?_) hI'
            have hvx : (v + BitVec.ofNat w x).toNat = v.toNat + x := by
              rw [BitVec.toNat_add, hxnat, Nat.mod_eq_of_lt (hno hB)]
            by_contra hc
            exact hover' ⟨hB, by omega⟩
        · rw [Op.bind_err hr]
          exact hQ
        · rw [Op.bind_panic hr]
          exact hQ
  have := main (regionFuel size) 0 s (Nat.zero_le _)
    (by rw [Nat.sub_zero]; exact toNat_regionFuel size) (fun _ => v.isLt) h0
  simpa using this

/-- The rule for a region that does not wrap around. -/
theorem regionLoop_rule (hw : 32 ≤ w) {I : ℕ → S → Prop} {Q : Res Unit → S → Prop}
    {v size : BitVec w} (hno : v.toNat + size.toNat < 2 ^ w)
    (hbody : ∀ x s, x < size.toNat → I x s →
      (∃ ps s', body (v + BitVec.ofNat w x) (size - BitVec.ofNat w x) s = (.ok ps, s') ∧
        x + ps.bytes ≤ size.toNat ∧ I (x + ps.bytes) s') ∨
      (∃ e s', body (v + BitVec.ofNat w x) (size - BitVec.ofNat w x) s = (.err e, s') ∧
        Q (.err e) s') ∨
      ∃ s', body (v + BitVec.ofNat w x) (size - BitVec.ofNat w x) s = (.panic, s') ∧
        Q .panic s')
    (hend : ∀ s, I size.toNat s → Q (.ok ()) s) {s : S} (h0 : I 0 s) :
    Q (regionLoop B body (regionFuel size) v size s).1
      (regionLoop B body (regionFuel size) v size s).2 :=
  regionLoop_wrap_rule hw (fun x s hx _ hI => hbody x s hx hI)
    (fun x _ hx _ _ hc => absurd hc (by omega))
    (fun s hI _ => hend s hI) h0

theorem assertStep_apply (ps : PageSize) (v size : BitVec w) (s : S) :
    assertStep ps v size s =
      (if ps.isAligned v = true ∧ ps.toUsize w ≤ size then .ok ps else .panic, s) := by
  rw [assertStep, Op.assert]
  by_cases h : ps.isAligned v = true
  · rw [if_pos h, Op.bind_ok (Op.pure_apply _ _), Op.assert]
    by_cases h' : ps.toUsize w ≤ size
    · rw [if_pos (by simpa using h'), if_pos ⟨h, h'⟩]
      rfl
    · rw [if_neg (by simpa using h'), if_neg fun hc => h' hc.2]
      rfl
  · rw [if_neg h, if_neg fun hc => h hc.1]
    rfl

theorem assertStep_snd (ps : PageSize) (v size : BitVec w) (s : S) :
    (assertStep ps v size s).2 = s := by
  rw [assertStep_apply]

end PageTableMultiarch
