/-
Pointers to tables that a processor has cached.

A processor keeps not only translations but also the entries that point to lower tables, and
starts its walks there.  `copy_from` gives back the tables below the entries that it
overwrites, and it is a later flush that removes the pointers to them.

* `Steps.resolve` — the methods of a table keep all pointers on the way to its tables;
* `LedgerInv.exec_points` — so do all calls but a copy onto the table;
* `Walker` — a machine whose processor caches pointers as well;
* `Arch.pointers_coherent` — if the calls are careful, a cached pointer is that of the memory
  and leads to a table that is allocated, or an open cursor has a full flush pending.
-/
import PageTableMultiarch.Table64.Tlb

namespace PageTableMultiarch

open GenericPTE Radix MemEvent LazyCache

variable {B : Build} {M : PagingMetaData} {PTE σ : Type} {H : PagingHandler 64 σ}
  [GenericPTE 64 PTE]

/-! ### The way to a table -/

section Resolve

variable {inUse : σ → Set PhysAddr} {w w' : World PTE σ} {root : PhysAddr}
  {A : List (Fin ENTRY_COUNT) → Prop} {W : List (Fin ENTRY_COUNT) → PTE → Prop}
  {π : List (Fin ENTRY_COUNT)} {p : PhysAddr}

/-- A step keeps the way to a table. -/
theorem Step.resolve [LawfulPTE M PTE] (hH : FreshFrames M H inUse)
    (hW : ∀ ρ e, W ρ e → NoTable M ρ.length e) (T : Tree M inUse root w)
    (h : Step M H root A W w w') (hπ : π.length < M.LEVELS)
    (hp : Radix.resolve child w.mem root π = some p) :
    Radix.resolve child w'.mem root π = some p := by
  cases h with
  | access u hu => exact hp
  | flush fl => exact hp
  | allocFail os ha => exact hp
  | store ρ slot e h hρ hc hw =>
    exact (T.resolve_store h hρ hc (hW ρ e hw) root rfl π (by omega)).trans hp
  | attach ρ slot q os h hρ hold ha _ =>
    have hq : q ∉ nodes child w.mem {root} (M.LEVELS - 1) := fun hc => hH.fresh ha (T.inUse hc)
    obtain ⟨ρ', rfl, hs⟩ := h
    rw [List.length_append, List.length_singleton] at hρ
    exact (T.forest.resolve_attach rfl (by omega) hs (child_of_entry_eq_empty M hold) hq
      (child_newTable (hH.valid ha)) (child_empty M) rfl (by omega)).mpr (Or.inl hp)

theorem Steps.resolve [LawfulPTE M PTE] (hH : FreshFrames M H inUse)
    (hW : ∀ ρ e, W ρ e → NoTable M ρ.length e) (T : Tree M inUse root w)
    (h : Steps M H root A W w w') (hπ : π.length < M.LEVELS)
    (hp : Radix.resolve child w.mem root π = some p) :
    Radix.resolve child w'.mem root π = some p := by
  induction h with
  | refl => exact hp
  | tail hsteps hstep ih => exact hstep.resolve hH hW (Steps.tree hH hW T hsteps) hπ ih

/-- What a change of table `x` leaves of the ways to the tables of `x`, it leaves of those to the
tables of `y`. -/
theorem Elsewhere.resolve {x y : PageTable64 B M PTE H}
    (h : Elsewhere M x y w w')
    (hown : ∀ ρ u, ρ.length < M.LEVELS → Radix.resolve child w.mem x.rootPaddr ρ = some u →
      Radix.resolve child w'.mem x.rootPaddr ρ = some u)
    (hπ : π.length < M.LEVELS) (hp : Radix.resolve child w.mem y.rootPaddr π = some p) :
    Radix.resolve child w'.mem y.rootPaddr π = some p := by
  cases π with
  | nil => exact hp
  | cons i π =>
    rw [resolve_cons, Option.bind_eq_some_iff] at hp
    obtain ⟨u, hu, hp⟩ := hp
    rw [List.length_cons] at hπ
    rw [resolve_cons, h.root, hu, Option.bind_some]
    by_cases hshared : Shared w x y i
    · -- `x` has the same way, and it keeps it
      obtain ⟨v, hv, hvu⟩ := hshared
      obtain rfl : v = u := Option.some_inj.mp (hvu.symm.trans hu)
      have hentry : Radix.resolve child w'.mem x.rootPaddr [i] = some v := by
        refine hown [i] v ?_ ?_
        · rw [List.length_singleton]
          omega
        · rw [resolve_cons, hv]
          rfl
      have hway : Radix.resolve child w'.mem x.rootPaddr (i :: π) = some p := by
        refine hown (i :: π) p ?_ ?_
        · rwa [List.length_cons]
        · rwa [resolve_cons, hv, Option.bind_some]
      rw [resolve_cons, Option.bind_eq_some_iff] at hentry hway
      obtain ⟨v', hv', heq⟩ := hentry
      obtain ⟨v'', hv'', hway⟩ := hway
      obtain rfl : v' = v := Option.some_inj.mp heq
      obtain rfl : v'' = v' := Option.some_inj.mp (hv''.symm.trans hv')
      exact hway
    · have hsame := fun s (hs : s ∈ nodes child w.mem {u} (M.LEVELS - 2)) =>
        h.below hshared hu hs
      exact (resolve_of_agree (Set.mem_singleton u) hsame (by omega)).trans hp

end Resolve

section Calls

variable [LawfulPTE M PTE] {inUse : σ → Set PhysAddr} {w : World PTE σ}
  {T : Members B M PTE H} {n : ℕ} {L : Ledger} {t t' : ℕ} {x y : Member B M PTE H}
  {π : List (Fin ENTRY_COUNT)} {p : PhysAddr}

/-- A call of one table keeps the ways to the tables of all. -/
theorem LedgerInv.call_resolve (hH : FreshFrames M H inUse) (I : LedgerInv inUse w T n L)
    (hx : T t = some x) (hhx : Healthy T x) (hy : T t' = some y) (hhy : Healthy T y) (c : Call)
    (hc : c.FlagsIn (fun f => debugAssert PTE f = true)) (hπ : π.length < M.LEVELS)
    (hp : resolve child w.mem y.table.rootPaddr π = some p) :
    resolve child (c.next x.table w).mem y.table.rootPaddr π = some p := by
  have hsteps := Call.steps (P := fun _ => True) hH x.table (I.tree hx hhx) c
    (hc.mono fun _ => allowed_true)
  have hown : ∀ ρ u, ρ.length < M.LEVELS → resolve child w.mem x.table.rootPaddr ρ = some u →
      resolve child (c.next x.table w).mem x.table.rootPaddr ρ = some u := fun ρ u hρ hu =>
    hsteps.resolve hH (fun _ _ h => h.noTable) (I.tree hx hhx) hρ hu
  by_cases hne : t = t'
  · subst hne
    obtain rfl : x = y := Option.some_inj.mp (hx.symm.trans hy)
    exact hown π p hπ hp
  · exact (I.elsewhere hH hne hx hhx hy hhy c hc).resolve hown hπ hp

end Calls

/-! ### Pointers under the calls -/

/-- The memory leads to this table, if all lenders of the page table exist. -/
def System.Points (s : System B M PTE H) (k : ℕ × List (Fin ENTRY_COUNT)) (p : PhysAddr) :
    Prop :=
  ∀ x, s.tables k.1 = some x → Healthy s.tables x →
    resolve child s.world.mem x.table.rootPaddr k.2 = some p

section Points

variable [LawfulPTE M PTE] {inUse : σ → Set PhysAddr} {s : System B M PTE H} {L : Ledger}
  {t t' : ℕ} {π : List (Fin ENTRY_COUNT)} {p : PhysAddr} (hH : FreshFrames M H inUse)

include hH

/-- All calls keep the pointers of a table, apart from a copy onto it. -/
theorem LedgerInv.exec_points (I : s.Ledgered inUse L) {c : SystemCall} (hc : s.Careful c)
    (hno : ∀ src start size, c ≠ .copy t src start size) (ht : t < s.next)
    (hπ : π.length < M.LEVELS) (h : s.Points (t, π) p) : (s.exec c).Points (t, π) p := by
  intro x hx hhx
  obtain ⟨y, hy, hhy, hroot⟩ := I.exec_before c ht hx hhx
  rw [hroot]
  have hold := h y hy hhy
  by_cases hcall : ∃ t' c', c = .call t' c'
  · obtain ⟨t', c', rfl⟩ := hcall
    rw [System.exec]
    cases hz : s.tables t' with
    | none => exact hold
    | some z => exact I.call_resolve hH hz (hc.2 z hz) hy hhy c' hc.1 hπ hold
  · have hactor : c.actor ≠ some t := by
      cases c with
      | new => simp [SystemCall.actor]
      | call t' c' => exact absurd ⟨t', c', rfl⟩ hcall
      | copy dst src start size =>
        intro heq
        obtain rfl := Option.some_inj.mp heq
        exact hno src start size rfl
      | drop t' =>
        -- a table that has been dropped is not there
        intro heq
        obtain rfl := Option.some_inj.mp heq
        simp only [System.exec, hy] at hx
        exact absurd rfl (Members.of_gone hx).1
    have hsame := fun q hq =>
      I.exec_apart hH hy hhy hc hactor (fun t' c' heq => hcall ⟨t', c', heq⟩) (p := q) hq
    refine (resolve_of_agree (Set.mem_singleton _) hsame ?_).trans hold
    show π.length ≤ M.LEVELS - 1 + 1
    omega

/-- A call of a cursor keeps the pointers of all tables, or it asks for a full flush. -/
theorem LedgerInv.cursor_points (I : s.Ledgered inUse L) {c : CursorCall}
    (hc : s.CursorOk System.Careful t' c) (hflush : c ≠ .flush) (ht : t < s.next)
    (hπ : π.length < M.LEVELS) (h : s.Points (t, π) p) :
    (s.cursorExec t' c).Points (t, π) p ∨ (s.cursorExec t' c).world.flusher = .full := by
  cases c with
  | flush => exact absurd rfl hflush
  | call c =>
    left
    refine I.exec_points hH (c := .call t' c) hc (fun src start size heq => ?_) ht hπ h
    cases heq
  | copyFrom src start size =>
    by_cases htt : t' = t
    · subst htt
      show (s.exec (.copy t' src start size)).Points (t', π) p ∨
        (s.exec (.copy t' src start size)).world.flusher = .full
      cases hd : s.tables t' with
      | none =>
        left
        rwa [System.exec, hd]
      | some d =>
      cases hr : s.tables src with
      | none =>
        left
        rwa [System.exec, hd, hr]
      | some r =>
        have hworld := System.exec_copy_world hd hr start size
        have hcases : (s.exec (.copy t' src start size)).world = s.world ∨
            (s.exec (.copy t' src start size)).world.flusher = .full := by
          obtain heq | ⟨table, w', heq, -, hw'⟩ := I.copyFrom_flusher hc.1 hd hr start size
          · left
            rw [hworld, heq]
          · rw [hworld, heq]
            exact hw'
        refine hcases.imp_left fun hsame x hx hhx => ?_
        obtain ⟨y, hy, hhy, hroot⟩ := I.exec_before (.copy t' src start size) ht hx hhx
        rw [hroot, hsame]
        exact h y hy hhy
    · left
      refine I.exec_points hH (c := .copy t' src start size) hc (fun src' start' size' heq => ?_)
        ht hπ h
      cases heq
      exact htt rfl

end Points

/-! ### A processor that caches pointers -/

/-- A machine and the pointers to tables that its processor has cached, each with the number of
the page table and the indices that lead to it. -/
structure Walker (B : Build) (M : PagingMetaData) (PTE : Type) {σ : Type}
    (H : PagingHandler 64 σ) where
  machine : Machine B M PTE H
  pointers : List ((ℕ × List (Fin ENTRY_COUNT)) × PhysAddr)

/-- Nothing exists yet. -/
def Walker.Blank (m : Walker B M PTE H) : Prop := m.machine.Blank ∧ m.pointers = []

/-- The processor reads and forgets pointers, also while the machine takes a step.  A flush of an
address need not remove any; after a full flush, when it is no longer pending, none is left. -/
inductive Walker.Step (m : Walker B M PTE H) : Walker B M PTE H → Prop
  | fill (t : ℕ) (π : List (Fin ENTRY_COUNT)) (p : PhysAddr) {x : Member B M PTE H}
    (hx : m.machine.sys.tables t = some x) (hπ : π.length < M.LEVELS)
    (hp : resolve child m.machine.sys.world.mem x.table.rootPaddr π = some p) :
    Step m { m with pointers := ((t, π), p) :: m.pointers }
  | evict (pointers : List ((ℕ × List (Fin ENTRY_COUNT)) × PhysAddr))
    (h : pointers ⊆ m.pointers) : Step m { m with pointers := pointers }
  | machine (machine : Machine B M PTE H) (h : m.machine.Step machine)
    (pointers : List ((ℕ × List (Fin ENTRY_COUNT)) × PhysAddr)) (hsub : pointers ⊆ m.pointers)
    (hfull : ∀ t, m.machine.cursors t = some .full → machine.cursors t ≠ some .full →
      pointers = []) : Step m ⟨machine, pointers⟩

/-- The states of a run. -/
def Walker.Run : Walker B M PTE H → Walker B M PTE H → Prop := Relation.ReflTransGen Walker.Step

/-- The invariant of a run. -/
structure Walker.Inv (inUse : σ → Set PhysAddr) (m : Walker B M PTE H) : Prop where
  machine : m.machine.Inv inUse
  known {t : ℕ} {π : List (Fin ENTRY_COUNT)} {p : PhysAddr} : ((t, π), p) ∈ m.pointers →
    t < m.machine.sys.next ∧ π.length < M.LEVELS
  coherent : Coherent m.machine.sys.Points (fun flusher _ _ => flusher = .full)
    {f | f ∈ m.pointers} m.machine.cursors

theorem Walker.Blank.inv {m : Walker B M PTE H} {inUse : σ → Set PhysAddr} (h : m.Blank) :
    m.Inv inUse := by
  obtain ⟨hmachine, hpointers⟩ := h
  refine ⟨hmachine.inv, ?_, ?_⟩
  · rw [hpointers]
    intro t π p hc
    exact absurd hc List.not_mem_nil
  · rw [hpointers]
    exact (Coherent.empty _ _ _).evict fun f hf => absurd hf List.not_mem_nil

theorem Machine.Step.le_next {m m' : Machine B M PTE H} (h : m.Step m') :
    m.sys.next ≤ m'.sys.next := by
  cases h with
  | fill t v a hx ha => exact le_rfl
  | evict tlb hsub => exact le_rfl
  | new => exact m.sys.le_next_exec .new
  | drop t hclosed => exact m.sys.le_next_exec (.drop t)
  | cursor t hx hclosed => exact le_rfl
  | @call t flusher hopen c hc hflush =>
    obtain ⟨c', hexec⟩ := (m.sys.resume flusher).cursorExec_eq_exec t hflush
    rw [hexec]
    exact (m.sys.resume flusher).le_next_exec c'
  | flush t hopen hcalls tlb hsub hgone closed => exact le_rfl

section Walker

variable [LawfulPTE M PTE] {inUse : σ → Set PhysAddr} {m m' : Walker B M PTE H}

/-- A step of the machine keeps the cached pointers right. -/
theorem Machine.Step.points (hH : FreshFrames M H inUse) (I : m.Inv inUse)
    {machine : Machine B M PTE H} (h : m.machine.Step machine)
    {pointers : List ((ℕ × List (Fin ENTRY_COUNT)) × PhysAddr)} (hsub : pointers ⊆ m.pointers)
    (hfull : ∀ t, m.machine.cursors t = some .full → machine.cursors t ≠ some .full →
      pointers = []) :
    Coherent machine.sys.Points (fun flusher _ _ => flusher = .full) {f | f ∈ pointers}
      machine.cursors := by
  obtain ⟨⟨⟨L, I₀⟩, -, -, -⟩, hknown, hcoherent⟩ := I
  cases h with
  | fill t v a hx ha => exact hcoherent.evict hsub
  | evict tlb hsub' => exact hcoherent.evict hsub
  | new =>
    refine (hcoherent.unseen fun k p hf h => ?_).evict hsub
    obtain ⟨ht, hπ⟩ := hknown hf
    refine I₀.exec_points hH (c := .new) trivial (fun src start size heq => ?_) ht hπ h
    cases heq
  | drop t hclosed =>
    refine (hcoherent.unseen fun k p hf h => ?_).evict hsub
    obtain ⟨ht, hπ⟩ := hknown hf
    refine I₀.exec_points hH (c := .drop t) trivial (fun src start size heq => ?_) ht hπ h
    cases heq
  | cursor t hx hclosed => exact (hcoherent.enter hclosed _).evict hsub
  | @call t flusher hopen c hc hflush =>
    have I₁ : (m.machine.sys.resume flusher).Ledgered inUse L := I₀.setFlusher flusher
    refine (hcoherent.change hopen (fun k p _ heq => ?_) fun k p hf h => ?_).evict hsub
    · -- a full flush stays pending
      cases hx : m.machine.sys.tables t with
      | none =>
        rw [System.cursorExec_of_none (s := m.machine.sys.resume flusher) hx hflush]
        exact heq
      | some x =>
        have hone : (m.machine.sys.resume flusher).EachCursor System.Careful t [c] := ⟨hc, trivial⟩
        exact (I₁.cursor_keepsPending hH hx hone (by simpa using hflush.symm)).full heq
    · obtain ⟨ht, hπ⟩ := hknown hf
      exact I₁.cursor_points hH hc hflush ht hπ h
  | @flush t flusher hopen calls w hcalls tlb hsub' hgone closed =>
    rw [PageTable64.flush, Prod.mk.injEq, Res.ok.injEq] at hcalls
    obtain ⟨rfl, rfl⟩ := hcalls
    refine hcoherent.flush hopen hsub (fun k p hf heq => ?_) _
    -- after a full flush nothing is left
    subst heq
    have hnil := hfull t hopen (by cases closed <;> simp)
    rw [hnil] at hf
    exact List.not_mem_nil hf

/-- A step keeps the invariant. -/
theorem Walker.Step.inv (hH : FreshFrames M H inUse) (I : m.Inv inUse) (h : m.Step m') :
    m'.Inv inUse := by
  have I₀ := I
  obtain ⟨hmachine, hknown, hcoherent⟩ := I
  cases h with
  | fill t π p hx hπ hp =>
    refine ⟨hmachine, fun {t' π' p'} hf => ?_, ?_⟩
    · obtain heq | hf := List.mem_cons.mp hf
      · rw [Prod.mk.injEq, Prod.mk.injEq] at heq
        obtain ⟨L, I₁⟩ := hmachine.ledger
        rw [heq.1.1, heq.1.2]
        exact ⟨(I₁.lt_next hx).1, hπ⟩
      · exact hknown hf
    · have hfill := hcoherent.fill (k := (t, π)) (a := p) fun x' hx' _ => by
        obtain rfl := Option.some_inj.mp (hx.symm.trans hx')
        exact hp
      exact hfill.evict fun f hf => List.mem_cons.mp hf
  | evict pointers hsub =>
    exact ⟨hmachine, fun hf => hknown (hsub hf), hcoherent.evict hsub⟩
  | machine machine h pointers hsub hfull =>
    refine ⟨h.inv hH hmachine, fun hf => ?_, h.points hH I₀ hsub hfull⟩
    obtain ⟨ht, hπ⟩ := hknown (hsub hf)
    exact ⟨ht.trans_le h.le_next, hπ⟩

/-- In every state of a run. -/
theorem Walker.Run.inv (hH : FreshFrames M H inUse) (I : m.Inv inUse) (h : m.Run m') :
    m'.Inv inUse := by
  induction h with
  | refl => exact I
  | tail _ hstep ih => exact hstep.inv hH ih

end Walker

/-- In every run of careful calls, whatever cursors are open on whatever tables: a pointer that
is cached for a table whose lenders exist is that of the memory, and the table it points to is
allocated, or an open cursor has a full flush pending. -/
theorem Arch.pointers_coherent (arch : Arch) {H : PagingHandler 64 σ} {inUse : σ → Set PhysAddr}
    (hH : FreshFrames arch.metaData H inUse) {m₀ m : Walker B arch.metaData arch.PTE H}
    (h₀ : m₀.Blank) (h : m₀.Run m) {t : ℕ} {x : Member B arch.metaData arch.PTE H}
    (hx : m.machine.sys.tables t = some x) (hhx : Healthy m.machine.sys.tables x)
    {π : List (Fin ENTRY_COUNT)} {p : PhysAddr} (hp : ((t, π), p) ∈ m.pointers) :
    resolve child m.machine.sys.world.mem x.table.rootPaddr π = some p ∧
        p ∈ live m.machine.sys.world.trace ∨
      ∃ c, m.machine.cursors c = some .full := by
  have I := h.inv hH h₀.inv
  obtain ⟨L, I₀⟩ := I.machine.ledger
  obtain ⟨-, hπ⟩ := I.known hp
  obtain hpoints | ⟨c, flusher, hc, rfl⟩ := I.coherent (t, π) p hp
  · have hway := hpoints x hx hhx
    exact Or.inl ⟨hway, I₀.access hx hhx ⟨_, rfl, π, by omega, hway⟩⟩
  · exact Or.inr ⟨c, hc⟩

/-- A cursor of table 1 maps a page. -/
def ownPage : System ⟨true, true⟩ X64PagingMetaData X64PTE queueHandler :=
  (((lendingStart.exec .new).exec .new).resume .none).cursorExec 1
    (.call (.map 0 0x7000 .size4K .READ))

/-- The pointer in the root is cached. -/
def cachedPointer : Walker ⟨true, true⟩ X64PagingMetaData X64PTE queueHandler where
  machine :=
    { sys := ownPage
      cursors :=
        Function.update (Function.update (fun _ => none) 1 (some .none)) 1
          (some ownPage.world.flusher)
      tlb := [] }
  pointers := [((1, [p4Index 0]), 0x3000)]

/-- The cursor overwrites the entry that holds the pointer. -/
def overwritten : System ⟨true, true⟩ X64PagingMetaData X64PTE queueHandler :=
  (ownPage.resume ownPage.world.flusher).cursorExec 1 (.copyFrom 0 0 0x1000)

theorem Arch.pointers_coherent_run : ∃ m : Walker _ _ _ _, Walker.Run ⟨tlbStart, []⟩ m ∧
    m.machine.sys = overwritten ∧ ∃ x, overwritten.tables 1 = some x ∧
      (resolve child m.machine.sys.world.mem x.table.rootPaddr [p4Index 0] = some 0x3000 ∧
          0x3000 ∈ live m.machine.sys.world.trace ∨
        ∃ c, m.machine.cursors c = some .full) := by
  obtain ⟨h1, hmap, htable, hway, hpending, hcopy, hafter, hhealthy⟩ :
      (((lendingStart.exec .new).exec .new).tables 1).isSome = true ∧
      (((lendingStart.exec .new).exec .new).resume .none).CursorOk System.Careful 1
        (.call (.map 0 0x7000 .size4K .READ)) ∧
      (ownPage.tables 1).isSome = true ∧
      (∀ x ∈ ownPage.tables 1,
        resolve child ownPage.world.mem x.table.rootPaddr [p4Index 0] = some 0x3000) ∧
      ownPage.world.flusher = .array [0] ∧
      (ownPage.resume ownPage.world.flusher).CursorOk System.Careful 1 (.copyFrom 0 0 0x1000) ∧
      (overwritten.tables 1).isSome = true ∧
      ∀ x ∈ overwritten.tables 1, Healthy overwritten.tables x := by
    decide +kernel
  obtain ⟨x₁, hx₁⟩ := Option.isSome_iff_exists.mp htable
  obtain ⟨x, hx⟩ := Option.isSome_iff_exists.mp hafter
  have hnew : Walker.Run ⟨tlbStart, []⟩ ⟨⟨lendingStart.exec .new, fun _ => none, []⟩, []⟩ :=
    .single (.machine _ .new [] (List.Subset.refl _) fun _ _ _ => rfl)
  have hnew' := hnew.tail (.machine _ .new [] (List.Subset.refl _) fun _ _ _ => rfl)
  have hcursor := hnew'.tail
    (.machine _ (.cursor 1 h1 rfl) [] (List.Subset.refl _) fun _ _ _ => rfl)
  have hmapped := hcursor.tail
    (.machine _ (.call 1 rfl _ hmap (by simp)) [] (List.Subset.refl _) fun _ _ _ => rfl)
  have hfilled : Walker.Run ⟨tlbStart, []⟩ cachedPointer :=
    hmapped.tail (.fill 1 [p4Index 0] 0x3000 hx₁ (by decide) (hway x₁ hx₁))
  have hcopied := hfilled.tail
    (.machine _ (.call 1 rfl _ hcopy (by simp)) _ (List.Subset.refl _) fun t ht => ?_)
  · exact ⟨_, hcopied, rfl, x, hx, Arch.pointers_coherent .x64
      (freshFrames_queueHandler (by decide)) ⟨⟨lendingStart_blank, fun _ => rfl, rfl⟩, rfl⟩ hcopied
      hx (hhealthy x hx) (List.mem_singleton.mpr rfl)⟩
  · -- no full flush has been pending before
    simp only [cachedPointer, hpending] at ht
    by_cases h : t = 1
    · rw [h, Function.update_self] at ht
      cases ht
    · rw [Function.update_of_ne h, Function.update_of_ne h] at ht
      cases ht

end PageTableMultiarch
