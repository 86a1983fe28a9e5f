/-
Runs of a system of page tables.

* `LedgerInv.exec`, `System.Run.ledger` — in every state of a run some ledger is right;
* `LedgerInv.exec_frees` — a call frees only frames that its page table owns;
* `LedgerInv.lender_apart` — which are none of the frames of its lenders.
-/
import PageTableMultiarch.Table64.SystemCopy
import PageTableMultiarch.Entry.Arch

namespace PageTableMultiarch

open GenericPTE Radix MemEvent

variable {B : Build} {M : PagingMetaData} {PTE σ : Type} {H : PagingHandler 64 σ}
  [GenericPTE 64 PTE] {inUse : σ → Set PhysAddr} {s s₀ : System B M PTE H} {L : Ledger}

/-- The call of a table is tidy, see `Call.Tidy`. -/
def System.Tidy (s : System B M PTE H) : SystemCall → Prop
  | .call t c => ∀ x ∈ s.tables t, c.Tidy x.table s.world
  | _ => True

/-- The ledger is right in a state of the system. -/
abbrev System.Ledgered (s : System B M PTE H) (inUse : σ → Set PhysAddr) (L : Ledger) : Prop :=
  LedgerInv inUse s.world s.tables s.next L

/-- The calls of a run in which a table outlives its borrowers: flags are accepted, a table
that has lent entries is no destination of a copy, a table is not copied onto itself, and
a table is dropped after those that borrow from it. -/
def System.Nested (s : System B M PTE H) : SystemCall → Prop
  | .new => True
  | .call _ c => c.FlagsIn (fun f => debugAssert PTE f = true)
  | .copy dst src _ _ => dst ≠ src ∧ ∀ d ∈ s.tables dst, d.lent = false
  | .drop t => ∀ z < s.next, ∀ x ∈ s.tables z, t ∉ x.lenders

instance (s : System B M PTE H) : (c : SystemCall) → Decidable (s.Nested c)
  | .new => inferInstanceAs (Decidable True)
  | .call _ c => inferInstanceAs (Decidable (c.FlagsIn _))
  | .copy dst src _ _ =>
    inferInstanceAs (Decidable (dst ≠ src ∧ ∀ d ∈ s.tables dst, d.lent = false))
  | .drop t => inferInstanceAs (Decidable (∀ z < s.next, ∀ x ∈ s.tables z, t ∉ x.lenders))

/-- All lenders of the tables still exist. -/
def System.AllHealthy (s : System B M PTE H) : Prop :=
  ∀ t, ∀ x ∈ s.tables t, Healthy s.tables x

theorem System.Nested.permitted {c : SystemCall} (h : s.Nested c) (hh : s.AllHealthy) :
    s.Permitted c := by
  cases c with
  | new => trivial
  | call t c => exact ⟨h, fun x hx => hh t x hx⟩
  | copy dst src start size => exact ⟨h.1, fun d hd => ⟨h.2 d hd, hh dst d hd⟩⟩
  | drop t => trivial

/-- The ledger without tables. -/
def Ledger.blank : Ledger := ⟨∅, fun _ => ⟨0, by decide⟩, fun _ => none⟩

theorem System.Blank.ledger (h : s.Blank) : s.Ledgered inUse Ledger.blank ∧
    LedgerExact s.world s.tables Ledger.blank := by
  obtain ⟨hnone, htrace⟩ := h
  have hno : ∀ {t x}, s.tables t = some x → False := by
    intro t x hx
    rw [hnone] at hx
    exact absurd hx (by simp)
  refine ⟨?_, fun hp => ?_, fun hu => hu.elim⟩
  · exact
      { safe := by rw [htrace]; trivial
        inUse := by rw [htrace]; exact Set.empty_subset _
        forest := fun _ _ _ _ _ hr => hr.elim
        subs_live := fun _ ⟨_, hr, _⟩ => hr.elim
        root_live := fun hx => (hno hx).elim
        root_sub := fun hx => (hno hx).elim
        root_inj := fun hx => (hno hx).elim
        owned := fun hx => (hno hx).elim
        owner := fun hu => hu.elim
        borrowed := fun hx => (hno hx).elim
        stale := fun hx => (hno hx).elim
        lent := fun hx => (hno hx).elim
        lt_next := fun hx => (hno hx).elim }
  · rw [htrace] at hp
    exact hp.elim

/-! ### The calls -/

variable [LawfulPTE M PTE] (hH : FreshFrames M H inUse)

include hH

omit hH [LawfulPTE M PTE] in
/-- A copy frees no table that those point to that have no root entries of its destination. -/
theorem LedgerInv.spares_of_not_lender (I : s.Ledgered inUse L) {dst t : ℕ}
    {d x : Member B M PTE H} (hd : s.tables dst = some d) (hx : s.tables t = some x)
    (ht : t ≠ dst) (hh : Healthy s.tables x) (hnot : dst ∉ x.lenders) (start : VirtAddr)
    (size : Usize) : Spares s.world d.table x.table start size := by
  intro i _ hb u hu hu'
  have ho := (I.owned hd hb hu).2.2
  cases hb' : x.table.borrowedEntries i with
  | false =>
    have ho' := (I.owned hx hb' hu').2.2
    exact ht (Option.some_inj.mp (ho'.symm.trans ho))
  | true =>
    obtain hnone | ⟨z, hz, ho'⟩ := (I.borrowed hx hh hb' hu').owner
    · exact absurd (hnone.symm.trans ho) (by simp)
    · obtain rfl : z = dst := Option.some_inj.mp (ho'.symm.trans ho)
      exact hnot hz

omit hH [LawfulPTE M PTE] in
/-- Nobody has entries of a table that has lent nothing. -/
theorem LedgerInv.not_lender (I : s.Ledgered inUse L) {dst : ℕ} {d : Member B M PTE H}
    (hd : s.tables dst = some d) (hlent : d.lent = false) {t : ℕ} {x : Member B M PTE H}
    (hx : s.tables t = some x) : dst ∉ x.lenders := by
  intro hc
  have := I.lent hx hc hd
  rw [hlent] at this
  exact absurd this (by simp)

omit hH [LawfulPTE M PTE] in
/-- A copy into a table that has lent nothing is careful. -/
theorem LedgerInv.careful (I : s.Ledgered inUse L) {c : SystemCall} (hc : s.Permitted c) :
    s.Careful c := by
  cases c with
  | new => trivial
  | call t c => exact hc
  | drop t => trivial
  | copy dst src start size =>
    refine ⟨hc.1, fun d hd => ⟨(hc.2 d hd).2, fun _ t _ ht x hx hh => ?_⟩⟩
    exact I.spares_of_not_lender hd hx ht hh (I.not_lender hd (hc.2 d hd).1 hx) start size

omit hH [LawfulPTE M PTE] in
/-- What a careful copy may rely on. -/
theorem LedgerInv.spares (I : s.Ledgered inUse L) {dst src : ℕ} {start : VirtAddr} {size : Usize}
    (hc : s.Careful (.copy dst src start size)) {d : Member B M PTE H}
    (hd : s.tables dst = some d) (h0 : size ≠ 0) {t : ℕ} {x : Member B M PTE H} (ht : t ≠ dst)
    (hx : s.tables t = some x) (hh : Healthy s.tables x) :
    Spares s.world d.table x.table start size :=
  (hc.2 d hd).2 h0 t (I.lt_next hx).1 ht x hx hh

/-- Each call keeps the ledger right, and exact if it is tidy. -/
theorem LedgerInv.exec (I : s.Ledgered inUse L) (c : SystemCall) (hc : s.Careful c) :
    ∃ L', (s.exec c).Ledgered inUse L' ∧ (s.Tidy c → LedgerExact s.world s.tables L →
      LedgerExact (s.exec c).world (s.exec c).tables L') := by
  cases c with
  | new =>
    obtain ⟨e, w', heq, I', E'⟩ | ⟨table, w', heq, I', E'⟩ := I.new hH
    · simp only [System.Ledgered, System.exec, heq]
      exact ⟨L, I', fun _ => E'⟩
    · simp only [System.Ledgered, System.exec, heq]
      exact ⟨L, I', fun _ => E'⟩
  | call t c =>
    rcases hx : s.tables t with _ | x
    · simp only [System.Ledgered, System.exec, hx]
      exact ⟨L, I, fun _ E => E⟩
    · obtain ⟨L', I', E'⟩ := I.call (P := fun _ => True) hH hx (hc.2 x hx) c
        (hc.1.mono fun _ => allowed_true)
      simp only [System.Ledgered, System.exec, hx]
      exact ⟨L', I', fun htidy => E' (htidy x hx)⟩
  | copy dst src start size =>
    have hskip : ∀ fl, ∃ L', LedgerInv inUse { s.world with flusher := fl } s.tables s.next L' ∧
        (s.Tidy (.copy dst src start size) → LedgerExact s.world s.tables L →
          LedgerExact { s.world with flusher := fl } s.tables L') := by
      intro fl
      obtain ⟨I', E'⟩ := I.of_walks { s.world with flusher := fl } (.of_mem_eq [] rfl rfl)
        I.safe rfl I.inUse (fun _ _ _ _ => rfl) fun _ _ => rfl
      exact ⟨L, I', fun _ => E'⟩
    rcases hd : s.tables dst with _ | d
    · simp only [System.Ledgered, System.exec, hd]
      exact ⟨L, I, fun _ E => E⟩
    rcases hr : s.tables src with _ | r
    · simp only [System.Ledgered, System.exec, hd, hr]
      exact ⟨L, I, fun _ E => E⟩
    -- the copy fails or shares nothing, or it changes the root entries of `dst`
    obtain ⟨fl, heq | ⟨hl, table, heq⟩⟩ | ⟨hl, table, w', L', heq, I', E', -⟩ :=
      I.copy hH hc.1 hd hr start size (I.spares hc hd)
    · simp only [System.Ledgered, System.exec, hd, hr, heq]
      exact hskip fl
    · simp only [System.Ledgered, System.exec, hd, hr, heq, hl, Bool.false_eq_true, if_false]
      exact hskip fl
    · simp only [System.Ledgered, System.exec, hd, hr, heq, hl, if_true]
      exact ⟨L', I', fun _ => E'⟩
  | drop t =>
    rcases hx : s.tables t with _ | x
    · simp only [System.Ledgered, System.exec, hx]
      exact ⟨L, I, fun _ E => E⟩
    · obtain ⟨w', heq, -, I', E'⟩ := I.drop hH hx
      simp only [System.Ledgered, System.exec, hx, heq]
      exact ⟨_, I', fun _ => E'⟩

omit hH [LawfulPTE M PTE] in
/-- Tables that are dropped after their borrowers leave no table without its lenders. -/
theorem LedgerInv.allHealthy (I : s.Ledgered inUse L) (hh : s.AllHealthy) (c : SystemCall)
    (hc : s.Nested c) : (s.exec c).AllHealthy := by
  cases c with
  | new =>
    rcases heq : PageTable64.tryNew B M PTE H s.world with ⟨table | e | _, w'⟩
    · simp only [System.AllHealthy, System.exec, heq]
      intro t x hx z hz
      by_cases ht : t = s.next
      · rw [ht, Function.update_self, Option.mem_def, Option.some_inj] at hx
        rw [← hx] at hz
        exact absurd hz (by simp)
      · rw [Function.update_of_ne ht] at hx
        rw [Function.update_of_ne ((I.lt_next hx).2 z hz).ne]
        exact hh t x hx z hz
    · simp only [System.AllHealthy, System.exec, heq]
      exact hh
    · simp only [System.AllHealthy, System.exec, heq]
      exact hh
  | call t c =>
    rcases hx : s.tables t with _ | x
    · simpa only [System.AllHealthy, System.exec, hx] using hh
    · simpa only [System.AllHealthy, System.exec, hx] using hh
  | copy dst src start size =>
    rcases hd : s.tables dst with _ | d
    · simpa only [System.AllHealthy, System.exec, hd] using hh
    rcases hr : s.tables src with _ | r
    · simpa only [System.AllHealthy, System.exec, hd, hr] using hh
    rcases heq : d.table.copyFrom r.table start size s.world with ⟨table | e | _, w'⟩
    · cases hl : lends M start size with
      | false =>
        simp only [System.AllHealthy, System.exec, hd, hr, heq, hl, Bool.false_eq_true, if_false]
        exact hh
      | true =>
        simp only [System.AllHealthy, System.exec, hd, hr, heq, hl, if_true]
        intro t x hx z hz
        rw [Members.copied_isSome_iff hd hr]
        by_cases ht : t = dst
        · rw [ht, Members.copied_dst, Option.mem_def, Option.some_inj] at hx
          rw [← hx, List.cons_append, List.mem_cons, List.mem_append] at hz
          -- a lender of the copy: the source, one of its lenders, or an old one
          obtain rfl | hz | hz := hz
          · rw [hr]
            rfl
          · exact hh src r hr z hz
          · exact hh dst d hd z hz
        · obtain ⟨x₀, hx₀, -, hlenders, -⟩ := Members.of_copied hd hr ht hx
          exact hh t x₀ hx₀ z (hlenders ▸ hz)
    · simpa only [System.AllHealthy, System.exec, hd, hr, heq] using hh
    · simpa only [System.AllHealthy, System.exec, hd, hr, heq] using hh
  | drop t =>
    rcases hx : s.tables t with _ | y
    · simpa only [System.AllHealthy, System.exec, hx] using hh
    · simp only [System.AllHealthy, System.exec, hx]
      intro t' x hx' z hz
      obtain ⟨-, hx₀⟩ := Members.of_gone hx'
      -- `Nested`: the table that goes lends nothing
      have hzt : z ≠ t := by
        rintro rfl
        exact hc t' (I.lt_next hx₀).1 x hx₀ hz
      rw [Function.update_of_ne hzt]
      exact hh t' x hx₀ z hz

/-- In every state of a careful run some ledger is right. -/
theorem System.Run.ledger {ok : System B M PTE H → SystemCall → Prop} (h : s₀.Run ok s)
    (hok : ∀ s c L, s.Ledgered inUse L → ok s c → s.Careful c) (h₀ : s₀.Blank) :
    ∃ L, s.Ledgered inUse L := by
  induction h with
  | start => exact ⟨_, h₀.ledger.1⟩
  | step _ c hc ih =>
    obtain ⟨L, I⟩ := ih
    obtain ⟨L', I', -⟩ := I.exec hH c (hok _ c L I hc)
    exact ⟨L', I'⟩

/-! ### What a call frees -/

/-- Of two tables at most one has entries of the other. -/
def Members.Acyclic (T : Members B M PTE H) : Prop :=
  ∀ ⦃t z x y⦄, T t = some x → T z = some y → z ∈ x.lenders → t ∉ y.lenders

/-- The table that a call may change. -/
def SystemCall.actor : SystemCall → Option ℕ
  | .new => none
  | .call t _ | .copy t _ _ _ | .drop t => some t

/-- The tables of which the acting table has root entries, those that the call itself
copies included. -/
def System.lendersAt (s : System B M PTE H) : SystemCall → List ℕ
  | .new => []
  | .call t _ | .drop t => (s.tables t).elim [] (·.lenders)
  | .copy dst src _ _ =>
    src :: (s.tables src).elim [] (·.lenders) ++ (s.tables dst).elim [] (·.lenders)

/-- A call frees only frames that the acting table owns. -/
theorem LedgerInv.exec_frees (I : s.Ledgered inUse L) (c : SystemCall) (hc : s.Careful c)
    {p : PhysAddr} (hp : (s.exec c).world.trace.count (.free p) ≠ s.world.trace.count (.free p)) :
    ∃ t x, c.actor = some t ∧ s.tables t = some x ∧ p ∈ x.table.owned s.world.mem := by
  cases c with
  | new =>
    refine absurd ?_ hp
    obtain ⟨e, w', heq, -⟩ | ⟨table, w', heq, -⟩ := I.new hH
    · rw [tryNew_apply] at heq
      simp only [System.exec, tryNew_apply]
      rcases H.allocFrame s.world.os with ⟨_ | q, os⟩ <;> simp
    · rw [tryNew_apply] at heq
      simp only [System.exec, tryNew_apply]
      rcases H.allocFrame s.world.os with ⟨_ | q, os⟩ <;> simp
  | call t c =>
    refine absurd ?_ hp
    rcases hx : s.tables t with _ | x
    · simp only [System.exec, hx]
    · simp only [System.exec, hx]
      exact (Call.steps (P := fun _ => True) hH x.table (I.tree hx (hc.2 x hx)) c
        (hc.1.mono fun _ => allowed_true)).count_free p
  | copy dst src start size =>
    rcases hd : s.tables dst with _ | d
    · simp only [System.exec, hd] at hp
      exact absurd rfl hp
    rcases hr : s.tables src with _ | r
    · simp only [System.exec, hd, hr] at hp
      exact absurd rfl hp
    -- `copy_from` frees what it replaces, which was owned by `dst`
    refine ⟨dst, d, rfl, hd, ?_⟩
    obtain ⟨fl, heq | ⟨hl, table, heq⟩⟩ | ⟨hl, table, w', L', heq, -, -, hfree⟩ :=
      I.copy hH hc.1 hd hr start size (I.spares hc hd)
    · simp only [System.exec, hd, hr, heq] at hp
      exact absurd rfl hp
    · simp only [System.exec, hd, hr, heq, hl, Bool.false_eq_true, if_false] at hp
      exact absurd rfl hp
    · simp only [System.exec, hd, hr, heq, hl, if_true] at hp
      rw [(I.owned_eq hd).2]
      by_contra hnot
      exact hp (hfree p fun hmem => hnot (Or.inr hmem))
  | drop t =>
    rcases hx : s.tables t with _ | x
    · simp only [System.exec, hx] at hp
      exact absurd rfl hp
    · refine ⟨t, x, rfl, hx, ?_⟩
      obtain ⟨w', heq, hfree, -⟩ := I.drop hH hx
      simp only [System.exec, hx, heq] at hp
      by_contra hnot
      exact hp (hfree.count_free hnot)

omit hH [GenericPTE 64 PTE] [LawfulPTE M PTE] in
/-- A copy into a table that nobody has entries of. -/
theorem Members.Acyclic.copied {T : Members B M PTE H} (ha : T.Acyclic) {dst src : ℕ}
    {d r : Member B M PTE H} (hne : dst ≠ src) (hd : T dst = some d) (hr : T src = some r)
    (hnot : ∀ {t x}, T t = some x → dst ∉ x.lenders) (table : PageTable64 B M PTE H) :
    (T.copied dst src d r table).Acyclic := by
  -- the lenders of a table, apart from the destination, are as they were
  have hother : ∀ {t x}, t ≠ dst → T.copied dst src d r table t = some x →
      ∃ x₀, T t = some x₀ ∧ x.lenders = x₀.lenders := by
    intro t x ht hx
    obtain ⟨x₀, hx₀, -, hlenders, -⟩ := Members.of_copied hd hr ht hx
    exact ⟨x₀, hx₀, hlenders⟩
  intro t z x y hx hy hz hc
  by_cases ht : t = dst
  · by_cases hzd : z = dst
    · rw [hzd, Members.copied_dst, Option.some_inj] at hy
      rw [← hy, List.cons_append, List.mem_cons, List.mem_append, ht] at hc
      obtain hc | hc | hc := hc
      · exact hne hc
      · exact hnot hr hc
      · exact hnot hd hc
    · obtain ⟨y₀, hy₀, hlenders⟩ := hother hzd hy
      exact hnot hy₀ (hlenders ▸ ht ▸ hc)
  · obtain ⟨x₀, hx₀, hlenders⟩ := hother ht hx
    rw [hlenders] at hz
    have hzd : z ≠ dst := fun hzd => hnot hx₀ (hzd ▸ hz)
    obtain ⟨y₀, hy₀, hlenders'⟩ := hother hzd hy
    exact ha hx₀ hy₀ hz (hlenders' ▸ hc)

omit hH [LawfulPTE M PTE] in
theorem LedgerInv.exec_acyclic (I : s.Ledgered inUse L) (ha : s.tables.Acyclic) (c : SystemCall)
    (hc : s.Permitted c) : (s.exec c).tables.Acyclic := by
  cases c with
  | new =>
    rcases heq : PageTable64.tryNew B M PTE H s.world with ⟨table | e | _, w'⟩
    · simp only [System.exec, heq]
      intro t z x y hx hy hz
      by_cases ht : t = s.next
      · rw [ht, Function.update_self, Option.some_inj] at hx
        rw [← hx] at hz
        exact absurd hz (by simp)
      · rw [Function.update_of_ne ht] at hx
        rw [Function.update_of_ne ((I.lt_next hx).2 z hz).ne] at hy
        exact ha hx hy hz
    · simpa only [System.exec, heq] using ha
    · simpa only [System.exec, heq] using ha
  | call t c =>
    rcases hx : s.tables t with _ | x
    · simpa only [System.exec, hx] using ha
    · simpa only [System.exec, hx] using ha
  | copy dst src start size =>
    rcases hd : s.tables dst with _ | d
    · simpa only [System.exec, hd] using ha
    rcases hr : s.tables src with _ | r
    · simpa only [System.exec, hd, hr] using ha
    rcases heq : d.table.copyFrom r.table start size s.world with ⟨table | e | _, w'⟩
    · cases hl : lends M start size with
      | false => simpa only [System.exec, hd, hr, heq, hl, Bool.false_eq_true, if_false] using ha
      | true =>
        simp only [System.exec, hd, hr, heq, hl, if_true]
        exact ha.copied hc.1 hd hr (I.not_lender hd (hc.2 d hd).1) table
    · simpa only [System.exec, hd, hr, heq] using ha
    · simpa only [System.exec, hd, hr, heq] using ha
  | drop t =>
    rcases hx : s.tables t with _ | x
    · simpa only [System.exec, hx] using ha
    · simp only [System.exec, hx]
      intro u z x' y hx' hy hz
      exact ha (Members.of_gone hx').2 (Members.of_gone hy).2 hz

/-- In a permitted run, of two tables at most one has entries of the other. -/
theorem System.Run.acyclic (h : s₀.Run System.Permitted s) (h₀ : s₀.Blank) :
    s.tables.Acyclic := by
  induction h with
  | start =>
    intro t z x y hx
    rw [h₀.1 t] at hx
    exact absurd hx (by simp)
  | step h c hc ih =>
    obtain ⟨L, I⟩ := h.ledger hH (fun _ _ _ I hc => I.careful hc) h₀
    exact I.exec_acyclic ih c hc

omit hH in
/-- A table owns no frame that can be reached from a lender, unless the lender points to
frames that may have been freed and obtained again. -/
theorem LedgerInv.lender_apart {w : World PTE σ} {T : Members B M PTE H} {n : ℕ}
    (I : LedgerInv inUse w T n L) (ha : T.Acyclic) {t z : ℕ} {x y : Member B M PTE H}
    (hx : T t = some x)
    (hy : T z = some y) (hz : z ∈ x.lenders) (hok : Healthy T y ∨ NoReissue w.trace)
    {p : PhysAddr} (hp : p ∈ nodes child w.mem {y.table.rootPaddr} (M.LEVELS - 1)) :
    p ∉ x.table.owned w.mem := by
  have hL := LawfulPTE.levels (M := M) PTE
  rw [(I.owned_eq hx).2]
  -- neither the lender nor one of its lenders is the borrower
  have hty : t ∉ y.lenders := ha hx hy hz
  have hne : t ≠ z := by
    rintro rfl
    obtain rfl : x = y := Option.some_inj.mp (hx.symm.trans hy)
    exact hty hz
  obtain ⟨_, rfl, π, hπ, hs⟩ := hp
  obtain ⟨-, rfl⟩ | ⟨i, u, π', rfl, hu, hs⟩ := resolve_root_cases hs
  · -- the root of the lender
    rintro (hc | ⟨v, ⟨hv, -⟩, hmem⟩)
    · exact hne (I.root_inj hx hy hc.symm)
    · exact I.root_sub hy ⟨v, hv, hmem⟩
  rw [List.length_cons] at hπ
  have hpu : p ∈ nodes child w.mem {u} (M.LEVELS - 2) := ⟨u, rfl, π', by omega, hs⟩
  -- a table of the ledger that has another owner
  have apart : u ∈ L.subs → L.owner u ≠ some t →
      p ∉ {x.table.rootPaddr} ∪ nodes child w.mem (L.ownedBy t) (M.LEVELS - 2) := by
    rintro husub ho (rfl | ⟨v, ⟨hv, hvo⟩, ρ, hρ, hvp⟩)
    · exact I.root_sub hx (nodes_mono (Set.singleton_subset_iff.mpr husub) le_rfl hpu)
    · obtain ⟨rfl, -⟩ := I.forest husub hv (by omega) hρ hs hvp
      exact ho hvo
  have lends : L.Lends y i u → L.owner u ≠ some t := by
    intro h ho
    obtain hnone | ⟨z', hz', hz''⟩ := h.owner
    · rw [hnone] at ho
      exact absurd ho (by simp)
    · rw [hz'', Option.some_inj] at ho
      exact hty (ho ▸ hz')
  cases hb : y.table.borrowedEntries i with
  | false =>
    obtain ⟨husub, -, ho⟩ := I.owned hy hb hu
    exact apart husub fun hc => hne (Option.some_inj.mp (hc.symm.trans ho))
  | true =>
    obtain h | h := I.stale hy hb hu
    · exact apart h.sub (lends h)
    · obtain hh | hno := hok
      · have h := I.borrowed hy hh hb hu
        exact apart h.sub (lends h)
      · -- what the entry points to is not live
        intro hc
        refine (h hno p hpu).1 ?_
        obtain rfl | hc := hc
        · exact I.root_live hx
        · exact I.subs_live (nodes_mono (fun v hv => hv.1) le_rfl hc)

/-- No frame that can be reached from a lender is freed by a call of the borrower. -/
theorem LedgerInv.exec_spares (I : s.Ledgered inUse L) (ha : s.tables.Acyclic) (c : SystemCall)
    (hc : s.Permitted c)
    {z : ℕ} {y : Member B M PTE H} (hz : z ∈ s.lendersAt c) (hy : s.tables z = some y)
    (hok : Healthy s.tables y ∨ NoReissue s.world.trace) {p : PhysAddr}
    (hp : p ∈ nodes child s.world.mem {y.table.rootPaddr} (M.LEVELS - 1)) :
    (s.exec c).world.trace.count (.free p) = s.world.trace.count (.free p) := by
  by_contra hne
  obtain ⟨t, x, hactor, hx, howned⟩ := I.exec_frees hH c (I.careful hc) hne
  cases c with
  | new => exact absurd hactor (by simp [SystemCall.actor])
  | call t' c =>
    obtain rfl : t' = t := Option.some_inj.mp hactor
    rw [System.lendersAt, hx] at hz
    exact I.lender_apart ha hx hy hz hok hp howned
  | drop t' =>
    obtain rfl : t' = t := Option.some_inj.mp hactor
    rw [System.lendersAt, hx] at hz
    exact I.lender_apart ha hx hy hz hok hp howned
  | copy dst src start size =>
    obtain rfl : dst = t := Option.some_inj.mp hactor
    obtain ⟨hds, hdst⟩ := hc
    rcases hr : s.tables src with _ | r
    · simp only [System.exec, hx, hr] at hne
      exact hne trivial
    -- the lenders of the copy are recorded first
    obtain ⟨I₀, -⟩ := I.lend hds hx hr
    have ha₀ := ha.copied hds hx hr (I.not_lender hx (hdst x hx).1) x.table
    have hx₀ := s.tables.copied_dst dst src x r x.table
    rw [System.lendersAt, hx, hr] at hz
    have hzd : z ≠ dst := by
      rintro rfl
      exact ha₀ hx₀ hx₀ hz hz
    obtain ⟨y₀, hy₀, htable, hlenders, -⟩ := Members.copied_of_some hr x.table hzd hy
    rw [← htable] at hp
    refine I₀.lender_apart ha₀ hx₀ hy₀ hz (hok.imp_left fun hh v hv => ?_) hp howned
    exact (Members.copied_isSome_iff hx hr).mpr (hh v (hlenders ▸ hv))

end PageTableMultiarch
