/-
Several page tables that share memory and an allocator (feature `copy-from`).

A run makes tables, calls their methods, copies root entries from one table to another
and drops tables, in any order.  `Member.lenders` records from which tables the root
entries of a table come, through any number of copies, and `Member.lent` whether entries
of the table have been copied.

The `Ledger` is bookkeeping of the proof: the tables that root entries point to, each
with its root index and with the page table that owns it, that is, that would free it.
A table that `map` creates under a borrowed root entry has no owner.

* `LedgerInv` — the ledger is right: what a root entry points to is owned by the table
  itself or by a lender, and nothing is reached in two ways;
* `LedgerInv.tree` — as long as its lenders exist, the tables below a root form a tree.
-/
import PageTableMultiarch.Table64.CopyFrom
import PageTableMultiarch.Table64.Accounting

namespace PageTableMultiarch

open GenericPTE Radix MemEvent

variable {B : Build} {M : PagingMetaData} {PTE σ : Type} {H : PagingHandler 64 σ}

/-- A page table with the tables that it has root entries of, directly or through others,
and whether others have root entries of it. -/
structure Member (B : Build) (M : PagingMetaData) (PTE : Type) {σ : Type}
    (H : PagingHandler 64 σ) where
  table : PageTable64 B M PTE H
  lent : Bool
  lenders : List ℕ

/-- The page tables that exist, by number.  Numbers are not used twice. -/
abbrev Members (B : Build) (M : PagingMetaData) (PTE : Type) {σ : Type}
    (H : PagingHandler 64 σ) := ℕ → Option (Member B M PTE H)

structure System (B : Build) (M : PagingMetaData) (PTE : Type) {σ : Type}
    (H : PagingHandler 64 σ) where
  world : World PTE σ
  tables : Members B M PTE H
  next : ℕ

/-- A call in a system of page tables. -/
inductive SystemCall where
  | new
  | call (t : ℕ) (c : Call)
  | copy (dst src : ℕ) (start : VirtAddr) (size : Usize)
  | drop (t : ℕ)

/-- The lenders of a table still exist. -/
def Healthy (T : Members B M PTE H) (x : Member B M PTE H) : Prop :=
  ∀ z ∈ x.lenders, (T z).isSome = true

instance (T : Members B M PTE H) (x : Member B M PTE H) : Decidable (Healthy T x) :=
  inferInstanceAs (Decidable (∀ z ∈ x.lenders, _))

section System

variable [GenericPTE 64 PTE]

/-- Overwriting the root entries of a range in table `d` frees no table that a root entry
of `x` points to. -/
def Spares (w : World PTE σ) (d x : PageTable64 B M PTE H) (start : VirtAddr) (size : Usize) :
    Prop :=
  ∀ i, copyRange M start size i = true → d.borrowedEntries i = false → ∀ u,
    child (w.mem d.rootPaddr i) = some u → child (w.mem x.rootPaddr i) ≠ some u

instance (w : World PTE σ) (d x : PageTable64 B M PTE H) (start : VirtAddr) (size : Usize) :
    Decidable (Spares w d x start size) :=
  decidable_of_iff (∀ i, copyRange M start size i = true → d.borrowedEntries i = false →
      child (w.mem d.rootPaddr i) = none ∨
        child (w.mem x.rootPaddr i) ≠ child (w.mem d.rootPaddr i)) <| by
    refine forall_congr' fun i => imp_congr_right fun _ => imp_congr_right fun _ => ?_
    cases child (w.mem d.rootPaddr i) <;> simp

/-- The members after a copy that copies entries. -/
def Members.copied (T : Members B M PTE H) (dst src : ℕ) (d r : Member B M PTE H)
    (table : PageTable64 B M PTE H) : Members B M PTE H :=
  Function.update (Function.update T src (some { r with lent := true })) dst
    (some { d with table := table, lenders := src :: r.lenders ++ d.lenders })

/-- The state after a call. -/
def System.exec (s : System B M PTE H) : SystemCall → System B M PTE H
  | .new => match PageTable64.tryNew B M PTE H s.world with
    | (.ok table, w) => ⟨w, Function.update s.tables s.next (some ⟨table, false, []⟩), s.next + 1⟩
    | (_, w) => { s with world := w }
  | .call t c => match s.tables t with
    | some x => { s with world := c.next x.table s.world }
    | none => s
  | .copy dst src start size => match s.tables dst, s.tables src with
    | some d, some r => match d.table.copyFrom r.table start size s.world with
      | (.ok table, w) =>
        if lends M start size then
          { s with world := w, tables := s.tables.copied dst src d r table }
        else { s with world := w }
      | (_, w) => { s with world := w }
    | _, _ => s
  | .drop t => match s.tables t with
    | some x =>
      { s with world := (x.table.drop s.world).2, tables := Function.update s.tables t none }
    | none => s

/-- The calls that a run may make: flags are accepted, a table that has lent entries is
no destination of a copy, a table is not copied onto itself, and a table whose lender has
been dropped is only dropped itself. -/
def System.Permitted (s : System B M PTE H) : SystemCall → Prop
  | .new => True
  | .call t c => c.FlagsIn (fun f => debugAssert PTE f = true) ∧
    ∀ x ∈ s.tables t, Healthy s.tables x
  | .copy dst src _ _ => dst ≠ src ∧
    ∀ d ∈ s.tables dst, d.lent = false ∧ Healthy s.tables d
  | .drop _ => True

instance (s : System B M PTE H) : (c : SystemCall) → Decidable (s.Permitted c)
  | .new | .drop _ => inferInstanceAs (Decidable True)
  | .call t c => inferInstanceAs (Decidable (c.FlagsIn _ ∧ ∀ x ∈ s.tables t, Healthy s.tables x))
  | .copy dst src _ _ => inferInstanceAs
    (Decidable (dst ≠ src ∧ ∀ d ∈ s.tables dst, d.lent = false ∧ Healthy s.tables d))

/-- The same, but a table that has lent entries may be the destination of a copy. -/
def System.Valid (s : System B M PTE H) : SystemCall → Prop
  | .new => True
  | .call t c => c.FlagsIn (fun f => debugAssert PTE f = true) ∧
    ∀ x ∈ s.tables t, Healthy s.tables x
  | .copy dst src _ _ => dst ≠ src ∧ ∀ d ∈ s.tables dst, Healthy s.tables d
  | .drop _ => True

instance (s : System B M PTE H) : (c : SystemCall) → Decidable (s.Valid c)
  | .new | .drop _ => inferInstanceAs (Decidable True)
  | .call t c => inferInstanceAs (Decidable (c.FlagsIn _ ∧ ∀ x ∈ s.tables t, Healthy s.tables x))
  | .copy dst src _ _ => inferInstanceAs
    (Decidable (dst ≠ src ∧ ∀ d ∈ s.tables dst, Healthy s.tables d))

/-- The valid calls in which no copy frees a table that a root entry of another table
points to, one whose lenders exist. -/
def System.Careful (s : System B M PTE H) : SystemCall → Prop
  | .new => True
  | .call t c => c.FlagsIn (fun f => debugAssert PTE f = true) ∧
    ∀ x ∈ s.tables t, Healthy s.tables x
  | .copy dst src start size => dst ≠ src ∧ ∀ d ∈ s.tables dst, Healthy s.tables d ∧
    (size ≠ 0 → ∀ t < s.next, t ≠ dst → ∀ x ∈ s.tables t, Healthy s.tables x →
      Spares s.world d.table x.table start size)
  | .drop _ => True

instance (s : System B M PTE H) : (c : SystemCall) → Decidable (s.Careful c)
  | .new | .drop _ => inferInstanceAs (Decidable True)
  | .call t c => inferInstanceAs (Decidable (c.FlagsIn _ ∧ ∀ x ∈ s.tables t, Healthy s.tables x))
  | .copy dst src start size => inferInstanceAs
    (Decidable (dst ≠ src ∧ ∀ d ∈ s.tables dst, Healthy s.tables d ∧
      (size ≠ 0 → ∀ t < s.next, t ≠ dst → ∀ x ∈ s.tables t, Healthy s.tables x →
        Spares s.world d.table x.table start size)))

/-- A system without tables. -/
def System.Blank (s : System B M PTE H) : Prop :=
  (∀ t, s.tables t = none) ∧ s.world.trace = []

/-- The states of a run of calls that satisfy a condition. -/
inductive System.Run (ok : System B M PTE H → SystemCall → Prop) (s₀ : System B M PTE H) :
    System B M PTE H → Prop
  | start : Run ok s₀ s₀
  | step {s : System B M PTE H} (h : Run ok s₀ s) (c : SystemCall) (hc : ok s c) :
    Run ok s₀ (s.exec c)

/-- The state after a list of calls. -/
def System.execAll (s : System B M PTE H) (cs : List SystemCall) : System B M PTE H :=
  cs.foldl System.exec s

/-- Each call of a list satisfies a condition when it is made. -/
def System.EachCall (ok : System B M PTE H → SystemCall → Prop) (s : System B M PTE H) :
    List SystemCall → Prop
  | [] => True
  | c :: cs => ok s c ∧ EachCall ok (s.exec c) cs

instance (ok : System B M PTE H → SystemCall → Prop) [∀ s c, Decidable (ok s c)] :
    (cs : List SystemCall) → (s : System B M PTE H) → Decidable (s.EachCall ok cs)
  | [], _ => inferInstanceAs (Decidable True)
  | c :: cs, s =>
    have := instDecidableEachCall ok cs (s.exec c)
    inferInstanceAs (Decidable (ok s c ∧ (s.exec c).EachCall ok cs))

theorem System.EachCall.and {ok ok' : System B M PTE H → SystemCall → Prop}
    {s : System B M PTE H} {cs : List SystemCall} (h : s.EachCall ok cs) (h' : s.EachCall ok' cs) :
    s.EachCall (fun s c => ok s c ∧ ok' s c) cs := by
  induction cs generalizing s with
  | nil => trivial
  | cons c cs ih => exact ⟨⟨h.1, h'.1⟩, ih h.2 h'.2⟩

theorem System.Run.execAll {ok : System B M PTE H → SystemCall → Prop} {s₀ s : System B M PTE H}
    (h : s₀.Run ok s) {cs : List SystemCall} (hcs : s.EachCall ok cs) :
    s₀.Run ok (s.execAll cs) := by
  induction cs generalizing s with
  | nil => exact h
  | cons c cs ih => exact ih (.step h c hcs.1) hcs.2

end System

/-! ### The ledger -/

/-- The tables that root entries point to, with their root indices and owners. -/
structure Ledger where
  subs : Set PhysAddr
  index : PhysAddr → Fin ENTRY_COUNT
  owner : PhysAddr → Option ℕ

/-- No frame is obtained twice. -/
def NoReissue (l : List (MemEvent PhysAddr)) : Prop := ∀ p, l.count (.alloc p) ≤ 1

section LedgerInv

variable [GenericPTE 64 PTE]

/-- A table that a borrowed root entry may point to. -/
structure Ledger.Lends (L : Ledger) (x : Member B M PTE H) (i : Fin ENTRY_COUNT)
    (u : PhysAddr) : Prop where
  sub : u ∈ L.subs
  index : L.index u = i
  owner : L.owner u = none ∨ ∃ z ∈ x.lenders, L.owner u = some z

/-- If no frame is obtained twice, the tables below have all been freed. -/
def Stale (M : PagingMetaData) (w : World PTE σ) (u : PhysAddr) : Prop :=
  NoReissue w.trace → ∀ p ∈ nodes child w.mem {u} (M.LEVELS - 2),
    p ∉ live w.trace ∧ .alloc p ∈ w.trace

/-- The ledger is right. -/
structure LedgerInv (inUse : σ → Set PhysAddr) (w : World PTE σ) (T : Members B M PTE H)
    (n : ℕ) (L : Ledger) : Prop where
  safe : Safe w.trace
  inUse : live w.trace ⊆ inUse w.os
  forest : Forest child w.mem L.subs (M.LEVELS - 2)
  subs_live : nodes child w.mem L.subs (M.LEVELS - 2) ⊆ live w.trace
  root_live {t : ℕ} {x : Member B M PTE H} : T t = some x → x.table.rootPaddr ∈ live w.trace
  root_sub {t : ℕ} {x : Member B M PTE H} : T t = some x →
    x.table.rootPaddr ∉ nodes child w.mem L.subs (M.LEVELS - 2)
  root_inj {t t' : ℕ} {x x' : Member B M PTE H} : T t = some x → T t' = some x' →
    x.table.rootPaddr = x'.table.rootPaddr → t = t'
  /-- What an entry that is not borrowed points to is owned by the table. -/
  owned {t : ℕ} {x : Member B M PTE H} {i : Fin ENTRY_COUNT} {u : PhysAddr} : T t = some x →
    x.table.borrowedEntries i = false → child (w.mem x.table.rootPaddr i) = some u →
    u ∈ L.subs ∧ L.index u = i ∧ L.owner u = some t
  /-- What is owned hangs under an entry of its owner that is not borrowed. -/
  owner {u : PhysAddr} {t : ℕ} : u ∈ L.subs → L.owner u = some t → ∃ x, T t = some x ∧
    x.table.borrowedEntries (L.index u) = false ∧
    child (w.mem x.table.rootPaddr (L.index u)) = some u
  /-- What a borrowed entry points to is lent as long as the lenders exist. -/
  borrowed {t : ℕ} {x : Member B M PTE H} {i : Fin ENTRY_COUNT} {u : PhysAddr} :
    T t = some x → Healthy T x → x.table.borrowedEntries i = true →
    child (w.mem x.table.rootPaddr i) = some u → L.Lends x i u
  stale {t : ℕ} {x : Member B M PTE H} {i : Fin ENTRY_COUNT} {u : PhysAddr} :
    T t = some x → x.table.borrowedEntries i = true →
    child (w.mem x.table.rootPaddr i) = some u → L.Lends x i u ∨ Stale M w u
  lent {t z : ℕ} {x y : Member B M PTE H} : T t = some x → z ∈ x.lenders → T z = some y →
    y.lent = true
  lt_next {t : ℕ} {x : Member B M PTE H} : T t = some x → t < n ∧ ∀ z ∈ x.lenders, z < n

variable {inUse : σ → Set PhysAddr} {w w' : World PTE σ} {T : Members B M PTE H} {n : ℕ}
  {L : Ledger} {t : ℕ} {x : Member B M PTE H}

/-- What a root entry of a healthy table points to is in the ledger, with its index. -/
theorem LedgerInv.slot (I : LedgerInv inUse w T n L) (hx : T t = some x) (hh : Healthy T x)
    {i : Fin ENTRY_COUNT} {u : PhysAddr} (hu : child (w.mem x.table.rootPaddr i) = some u) :
    u ∈ L.subs ∧ L.index u = i := by
  cases hb : x.table.borrowedEntries i with
  | false =>
    obtain ⟨hsub, hindex, -⟩ := I.owned hx hb hu
    exact ⟨hsub, hindex⟩
  | true =>
    have := I.borrowed hx hh hb hu
    exact ⟨this.sub, this.index⟩

/-- A table reached from a root is the root, or it is below a root entry. -/
theorem resolve_root_cases {m : PhysAddr → Fin ENTRY_COUNT → PTE} {root s : PhysAddr}
    {π : List (Fin ENTRY_COUNT)} (h : resolve child m root π = some s) :
    π = [] ∧ s = root ∨ ∃ i u π', π = i :: π' ∧ child (m root i) = some u ∧
      resolve child m u π' = some s := by
  cases π with
  | nil => exact Or.inl ⟨rfl, (Option.some_inj.mp h).symm⟩
  | cons i π =>
    rw [resolve_cons, Option.bind_eq_some_iff] at h
    obtain ⟨u, hu, hs⟩ := h
    exact Or.inr ⟨i, u, π, rfl, hu, hs⟩

variable [LawfulPTE M PTE]

/-- The tables below the root of a healthy table are the root and tables of the ledger. -/
theorem LedgerInv.nodes_subset (I : LedgerInv inUse w T n L) (hx : T t = some x)
    (hh : Healthy T x) : nodes child w.mem {x.table.rootPaddr} (M.LEVELS - 1) ⊆
      insert x.table.rootPaddr (nodes child w.mem L.subs (M.LEVELS - 2)) := by
  have hL := LawfulPTE.levels (M := M) PTE
  rintro s ⟨r, rfl, π, hπ, hs⟩
  obtain ⟨-, rfl⟩ | ⟨i, u, π', rfl, hu, hs⟩ := resolve_root_cases hs
  · exact Set.mem_insert _ _
  · rw [List.length_cons] at hπ
    exact Or.inr ⟨u, (I.slot hx hh hu).1, π', by omega, hs⟩

/-- The tables below the root of a healthy table form a tree. -/
theorem LedgerInv.tree (I : LedgerInv inUse w T n L) (hx : T t = some x) (hh : Healthy T x) :
    Tree M inUse x.table.rootPaddr w := by
  have hL := LawfulPTE.levels (M := M) PTE
  refine ⟨fun r r' π π' s hr hr' hπ hπ' hs hs' => ?_, fun s hs => ?_⟩
  · obtain rfl : r = x.table.rootPaddr := hr
    obtain rfl : r' = x.table.rootPaddr := hr'
    refine ⟨rfl, ?_⟩
    have hroot : ∀ {i u ρ}, child (w.mem x.table.rootPaddr i) = some u →
        ρ.length + 1 ≤ M.LEVELS - 1 → resolve child w.mem u ρ = some x.table.rootPaddr → False :=
      fun hu hρ hres => I.root_sub hx ⟨_, (I.slot hx hh hu).1, _, by omega, hres⟩
    obtain ⟨rfl, rfl⟩ | ⟨i, u, ρ, rfl, hu, hsu⟩ := resolve_root_cases hs
    · obtain ⟨rfl, -⟩ | ⟨j, v, ρ', rfl, hv, hsv⟩ := resolve_root_cases hs'
      · rfl
      · exact (hroot hv hπ' hsv).elim
    · obtain ⟨rfl, rfl⟩ | ⟨j, v, ρ', rfl, hv, hsv⟩ := resolve_root_cases hs'
      · exact (hroot hu hπ hsu).elim
      · obtain ⟨husub, rfl⟩ := I.slot hx hh hu
        obtain ⟨hvsub, rfl⟩ := I.slot hx hh hv
        rw [List.length_cons] at hπ hπ'
        obtain ⟨rfl, rfl⟩ := I.forest husub hvsub (by omega) (by omega) hsu hsv
        rfl
  · obtain rfl | hs := I.nodes_subset hx hh hs
    · exact I.inUse (I.root_live hx)
    · exact I.inUse (I.subs_live hs)

end LedgerInv

end PageTableMultiarch
