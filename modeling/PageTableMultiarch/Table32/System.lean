/-
Several `PageTable32`s that share memory and an allocator (feature `copy-from`).

A run makes tables, calls their methods, copies first level entries from one table to another and
drops tables, in any order.  An entry that has been copied is borrowed, and who borrows it must not
outlive the table it comes from, nor may that table overwrite it: no table that is freed may still
be pointed to (`System.Careful`).

The `Ledger` is bookkeeping of the proof: the second level tables, each with its index in the first
level and with the page table that would free it.  A table that `map` creates under a borrowed entry
has no such owner.

* `LedgerInv` — the ledger is right, and what is allocated is what it tells;
* `LedgerInv.layout` — the tables of each page table lie in different frames.
-/
import PageTableMultiarch.Table32.Refinement
import PageTableMultiarch.Table32.Accounting

namespace PageTableMultiarch.Bits32

open GenericPTE A32PTE MemEvent

variable {B : Build} {M : PagingMetaData} {σ : Type} {H : PagingHandler 32 σ}

/-! ### Systems of page tables -/

/-- The page tables that exist, by number.  Numbers are not used twice. -/
structure System (B : Build) (M : PagingMetaData) {σ : Type} (H : PagingHandler 32 σ) where
  world : World A32PTE σ
  tables : ℕ → Option (PageTable32 B M A32PTE H)
  next : ℕ

/-- The flags of the call, if there are any, are not empty. -/
def Call.Grants : Call → Prop
  | .query _ | .unmap _ | .unmapRegion _ _ => True
  | .map _ _ _ f | .remap _ _ f | .protect _ f | .mapRegion _ _ _ f _ | .protectRegion _ _ f =>
    f.isEmpty = false

instance : DecidablePred Call.Grants
  | .query _ | .unmap _ | .unmapRegion _ _ => inferInstanceAs (Decidable True)
  | .map _ _ _ _ | .remap _ _ _ | .protect _ _ | .mapRegion _ _ _ _ _ | .protectRegion _ _ _ =>
    inferInstanceAs (Decidable (_ = _))

theorem Call.Plain.grants {c : Call} (hc : c.Plain) : c.Grants := by
  cases c with
  | map v target size f => exact hc.2
  | query v | unmap v | unmapRegion v size => trivial
  | remap v target f | protect v f => exact hc
  | mapRegion v getPaddr size f allowHuge => exact hc
  | protectRegion v size f => exact hc

/-- A call in a system of page tables. -/
inductive SystemCall where
  | new
  | call (t : ℕ) (c : Call)
  | copy (dst src : ℕ) (start : VirtAddr) (size : Usize)
  | drop (t : ℕ)

namespace System

/-- The state after a call. -/
def exec (s : System B M H) : SystemCall → System B M H
  | .new => match PageTable32.tryNew B M A32PTE H s.world with
    | (.ok table, w) => ⟨w, Function.update s.tables s.next (some table), s.next + 1⟩
    | (_, w) => { s with world := w }
  | .call t c => match s.tables t with
    | some x => { s with world := c.next x s.world }
    | none => s
  | .copy dst src start size => match s.tables dst, s.tables src with
    | some d, some r => match d.copyFrom r start size s.world with
      | (.ok table, w) =>
        { s with
          world := w
          tables := Function.update s.tables dst (some table) }
      | (_, w) => { s with world := w }
    | _, _ => s
  | .drop t => match s.tables t with
    | some x =>
      { s with
        world := (x.drop s.world).2
        tables := Function.update s.tables t none }
    | none => s

/-- The state after a list of calls. -/
def execAll (s : System B M H) (cs : List SystemCall) : System B M H := cs.foldl exec s

/-- Each call of a list satisfies a condition when it is made. -/
def EachCall (ok : System B M H → SystemCall → Prop) (s : System B M H) :
    List SystemCall → Prop
  | [] => True
  | c :: cs => ok s c ∧ EachCall ok (s.exec c) cs

instance (ok : System B M H → SystemCall → Prop) [∀ s c, Decidable (ok s c)] :
    (cs : List SystemCall) → (s : System B M H) → Decidable (s.EachCall ok cs)
  | [], _ => inferInstanceAs (Decidable True)
  | c :: cs, s =>
    have := instDecidableEachCall ok cs (s.exec c)
    inferInstanceAs (Decidable (ok s c ∧ (s.exec c).EachCall ok cs))

/-- A condition holds at the start and after each call of a list. -/
def EachState (ok : System B M H → Prop) (s : System B M H) : List SystemCall → Prop
  | [] => ok s
  | c :: cs => ok s ∧ EachState ok (s.exec c) cs

theorem EachState.head {ok : System B M H → Prop} {s : System B M H} {cs : List SystemCall}
    (h : s.EachState ok cs) : ok s := by
  cases cs with
  | nil => exact h
  | cons c cs => exact h.1

/-- A system without tables. -/
def Blank (s : System B M H) : Prop := (∀ t, s.tables t = none) ∧ s.world.trace = []

/-- The calls that are considered: flags that are given are not empty, and a table is not copied
onto itself, which the borrow checker excludes. -/
def Valid : SystemCall → Prop
  | .call _ c => c.Grants
  | .copy dst src _ _ => dst ≠ src
  | .new | .drop _ => True

instance : DecidablePred Valid
  | .call _ c => inferInstanceAs (Decidable c.Grants)
  | .copy dst src _ _ => inferInstanceAs (Decidable (dst ≠ src))
  | .new | .drop _ => inferInstanceAs (Decidable True)

end System

/-- The entry of the first level points to a table. -/
def links (e : A32PTE) : Bool := !isUnused e && !isHuge e

/-- The indices that `copy_from` handles, if its arithmetic does not overflow. -/
def copyRange (B : Build) (start : VirtAddr) (size : Usize) (i : Fin ENTRY_COUNT) : Bool :=
  decide (size ≠ 0) && !(B.overflowChecks && decide (2 ^ 32 ≤ start.toNat + size.toNat)) &&
    decide ((p1Index start).val ≤ i.val ∧ i.val < (p1Index (start + size - 1)).val + 1)

namespace System

/-- No other table points to a table that is owned by `x`, which has number `t`, and lies under one
of certain entries of its first level. -/
def Spares (s : System B M H) (t : ℕ) (x : PageTable32 B M A32PTE H)
    (among : Fin ENTRY_COUNT → Bool) : Prop :=
  ∀ i, among i = true → x.borrowedEntries i = false →
    links (s.world.entry (l1At x.rootPaddr i)) = true →
      ∀ t' < s.next, t' ≠ t → ∀ y ∈ s.tables t',
        s.world.entry (l1At y.rootPaddr i) ≠ s.world.entry (l1At x.rootPaddr i)

instance (s : System B M H) (t : ℕ) (x : PageTable32 B M A32PTE H)
    (among : Fin ENTRY_COUNT → Bool) : Decidable (s.Spares t x among) :=
  inferInstanceAs <| Decidable <| ∀ i, among i = true → _ → _ → ∀ t' < s.next, _ →
    ∀ y ∈ s.tables t', _

/-- The calls that free no table that another page table points to. -/
def Careful (s : System B M H) : SystemCall → Prop
  | .new | .call _ _ => True
  | .copy dst src start size => ∀ x ∈ s.tables dst, (s.tables src).isSome = true →
    s.Spares dst x (copyRange B start size)
  | .drop t => ∀ x ∈ s.tables t, s.Spares t x fun _ => true

instance (s : System B M H) : (c : SystemCall) → Decidable (s.Careful c)
  | .new | .call _ _ => inferInstanceAs (Decidable True)
  | .copy _ _ _ _ => inferInstanceAs (Decidable (∀ _ ∈ _, _ → _))
  | .drop _ => inferInstanceAs (Decidable (∀ _ ∈ _, _))

/-- No page table points to a table that is not allocated. -/
def NoDangling (s : System B M H) : Prop :=
  ∀ t x, s.tables t = some x → Bits32.tables x.rootPaddr s.world ⊆ live s.world.trace

/-- The calls that create no table under a borrowed entry. -/
def Tidy (s : System B M H) : SystemCall → Prop
  | .call t c => ∀ x ∈ s.tables t, ∀ i, x.borrowedEntries i = true →
    links (s.world.entry (l1At x.rootPaddr i)) = false →
      links ((s.exec (.call t c)).world.entry (l1At x.rootPaddr i)) = false
  | .new | .copy _ _ _ _ | .drop _ => True

instance (s : System B M H) : (c : SystemCall) → Decidable (s.Tidy c)
  | .call _ _ => inferInstanceAs (Decidable (∀ _ ∈ _, _))
  | .new | .copy _ _ _ _ | .drop _ => inferInstanceAs (Decidable True)

end System

/-! ### Borrowers before lenders -/

namespace SystemCall

/-- The pairs of a borrower and a lender after a call: a copy borrows from its source and from those
that the source has borrowed from. -/
def lend (R : List (ℕ × ℕ)) : SystemCall → List (ℕ × ℕ)
  | .new | .call _ _ => R
  | .copy dst src _ _ =>
    (dst, src) :: (R.filter fun b => b.1 = src).map (fun b => (dst, b.2)) ++ R
  | .drop t => R.filter fun b => b.1 ≠ t

/-- No table is dropped or overwritten by a copy while others borrow from it. -/
def Nested (R : List (ℕ × ℕ)) : SystemCall → Prop
  | .new | .call _ _ => True
  | .copy t _ _ _ | .drop t => ∀ b ∈ R, b.2 ≠ t

instance (R : List (ℕ × ℕ)) : DecidablePred (Nested R)
  | .new | .call _ _ => inferInstanceAs (Decidable True)
  | .copy _ _ _ _ | .drop _ => inferInstanceAs (Decidable (∀ b ∈ R, _))

/-- All calls of a run are such. -/
def AllNested : List (ℕ × ℕ) → List SystemCall → Prop
  | _, [] => True
  | R, c :: cs => c.Nested R ∧ AllNested (c.lend R) cs

instance : (R : List (ℕ × ℕ)) → (cs : List SystemCall) → Decidable (AllNested R cs)
  | _, [] => inferInstanceAs (Decidable True)
  | R, c :: cs =>
    have := instDecidableAllNested (c.lend R) cs
    inferInstanceAs (Decidable (c.Nested R ∧ AllNested (c.lend R) cs))

end SystemCall

/-! ### The allocator -/

/-- What several page tables rely on of the allocator: the frames of a first level have not been in
use either, and the frames that have not been given back stay in use. -/
structure FreshBlocks (H : PagingHandler 32 σ) (inUse : σ → Set ℕ) : Prop extends
    FreshFrames H inUse where
  frames_fresh {s s' : σ} {p : PhysAddr} :
    H.allocFrames s L1_SIZE_PAGES L1_ALIGN = (some p, s') → ∀ n, RootFrame p n → n ∉ inUse s
  frames_keep {s s' : σ} {r : Option PhysAddr} :
    H.allocFrames s L1_SIZE_PAGES L1_ALIGN = (r, s') → inUse s ⊆ inUse s'
  dealloc (s : σ) (p : PhysAddr) : inUse s \ {frameOf p} ⊆ inUse (H.deallocFrame s p)
  deallocs (s : σ) (p : PhysAddr) :
    inUse s \ {n | RootFrame p n} ⊆ inUse (H.deallocFrames s p L1_SIZE_PAGES)

/-! ### The ledger -/

/-- The second level tables, with their indices in the first level and their owners. -/
structure Ledger where
  subs : Set PhysAddr
  index : PhysAddr → Fin ENTRY_COUNT
  owner : PhysAddr → Option ℕ

/-- A table has no owner. -/
def Ledger.Leaks (L : Ledger) : Prop := ∃ p ∈ L.subs, L.owner p = none

/-- The first levels that exist. -/
def System.roots (s : System B M H) : Set Table := {b | ∃ t x, s.tables t = some x ∧ b = x.root}

/-- A second level table lies in a frame. -/
def pageTable (p : PhysAddr) : Table := ⟨p, 1⟩

/-- The ledger is right. -/
structure LedgerInv (inUse : σ → Set ℕ) (s : System B M H) (L : Ledger) : Prop where
  safe : Safe s.world.trace
  live : live s.world.trace = s.roots ∪ pageTable '' L.subs
  root_aligned {t : ℕ} {x : PageTable32 B M A32PTE H} : s.tables t = some x →
    x.rootPaddr.toNat % L1_ALIGN = 0
  root_ne_zero {t : ℕ} {x : PageTable32 B M A32PTE H} : s.tables t = some x → x.rootPaddr ≠ 0
  root_inUse {t : ℕ} {x : PageTable32 B M A32PTE H} : s.tables t = some x →
    ∀ n, RootFrame x.rootPaddr n → n ∈ inUse s.world.os
  root_inj {t t' : ℕ} {x x' : PageTable32 B M A32PTE H} : s.tables t = some x →
    s.tables t' = some x' → x.rootPaddr = x'.rootPaddr → t = t'
  sub_aligned {p : PhysAddr} : p ∈ L.subs → p.toNat % 0x1000 = 0
  sub_ne_zero {p : PhysAddr} : p ∈ L.subs → p ≠ 0
  sub_inUse {p : PhysAddr} : p ∈ L.subs → frameOf p ∈ inUse s.world.os
  sub_apart {t : ℕ} {x : PageTable32 B M A32PTE H} {p : PhysAddr} : s.tables t = some x →
    p ∈ L.subs → ¬RootFrame x.rootPaddr (frameOf p)
  /-- An entry that points to a table is borrowed, or the table is owned. -/
  entry {t : ℕ} {x : PageTable32 B M A32PTE H} : s.tables t = some x → ∀ i,
    PlainEntry (s.world.entry (l1At x.rootPaddr i)) ∨ ∃ p ∈ L.subs,
      s.world.entry (l1At x.rootPaddr i) = newTable p ∧ L.index p = i ∧
        (x.borrowedEntries i = false ↔ L.owner p = some t)
  /-- What is owned hangs under an entry of its owner that is not borrowed. -/
  owner {t : ℕ} {p : PhysAddr} : p ∈ L.subs → L.owner p = some t → ∃ x, s.tables t = some x ∧
    x.borrowedEntries (L.index p) = false ∧
      s.world.entry (l1At x.rootPaddr (L.index p)) = newTable p
  lt_next {t : ℕ} {x : PageTable32 B M A32PTE H} : s.tables t = some x → t < s.next

section LedgerInv

variable {inUse : σ → Set ℕ} {s : System B M H} {L : Ledger} {t t' : ℕ}
  {x y : PageTable32 B M A32PTE H}

theorem links_newTable (p : PhysAddr) : links (newTable p) = true := by
  rw [links, isUnused_newTable, isHuge_newTable]
  rfl

theorem PlainEntry.links {e : A32PTE} (h : PlainEntry e) : links e = false := by
  obtain h | h := h
  · rw [Bits32.links, h]
    rfl
  · rw [Bits32.links, h, Bool.not_true, Bool.and_false]

/-- An entry that points to a table is in the ledger. -/
theorem LedgerInv.link (I : LedgerInv inUse s L) (hx : s.tables t = some x) {i : Fin ENTRY_COUNT}
    (h : links (s.world.entry (l1At x.rootPaddr i)) = true) : ∃ p ∈ L.subs,
      s.world.entry (l1At x.rootPaddr i) = newTable p ∧ L.index p = i ∧
        (x.borrowedEntries i = false ↔ L.owner p = some t) := by
  obtain hplain | hlink := I.entry hx i
  · rw [hplain.links] at h
    exact absurd h Bool.false_ne_true
  · exact hlink

/-- Different tables of the ledger lie in different frames. -/
theorem LedgerInv.sub_inj (I : LedgerInv inUse s L) {p q : PhysAddr} (hp : p ∈ L.subs)
    (hq : q ∈ L.subs) (h : frameOf p = frameOf q) : p = q := by
  have hpa := I.sub_aligned hp
  have hqa := I.sub_aligned hq
  rw [frameOf, frameOf] at h
  exact BitVec.eq_of_toNat_eq (by omega)

/-- The pointer of an entry is the one in the ledger. -/
theorem LedgerInv.pointer (I : LedgerInv inUse s L) (hx : s.tables t = some x)
    {i : Fin ENTRY_COUNT} {p : PhysAddr}
    (he : s.world.entry (l1At x.rootPaddr i) = newTable p) (hp : p.toNat % 0x1000 = 0) :
    p ∈ L.subs ∧ L.index p = i ∧ (x.borrowedEntries i = false ↔ L.owner p = some t) := by
  obtain ⟨q, hq, heq, hrest⟩ := I.link hx (by rw [he]; exact links_newTable p)
  obtain rfl := newTable_inj hp (I.sub_aligned hq) (he.symm.trans heq)
  exact ⟨hq, hrest⟩

theorem LedgerInv.layout (I : LedgerInv inUse s L) (hx : s.tables t = some x) :
    Layout PlainEntry inUse x.rootPaddr s.world where
  root_aligned := I.root_aligned hx
  root_ne_zero := I.root_ne_zero hx
  root_inUse := I.root_inUse hx
  entries i := by
    obtain h | ⟨p, hp, he, -⟩ := I.entry hx i
    · exact Or.inl h
    · exact Or.inr ⟨p, he, I.sub_aligned hp, I.sub_ne_zero hp, I.sub_inUse hp, I.sub_apart hx hp⟩
  inj {i j p} hi hj := by
    obtain ⟨q, hq, heq, hiq, -⟩ := I.link hx (by rw [hi]; exact links_newTable p)
    obtain ⟨r, hr, her, hjr, -⟩ := I.link hx (by rw [hj]; exact links_newTable p)
    have hqr : (newTable q : A32PTE) = newTable r :=
      heq.symm.trans (hi.trans (hj.symm.trans her))
    obtain rfl := newTable_inj (I.sub_aligned hq) (I.sub_aligned hr) hqr
    exact hiq.symm.trans hjr

/-- The tables of a page table are allocated. -/
theorem LedgerInv.tables_subset (I : LedgerInv inUse s L) (hx : s.tables t = some x) :
    Bits32.tables x.rootPaddr s.world ⊆ MemEvent.live s.world.trace := by
  rw [I.live]
  rintro b (rfl | ⟨i, p, he, hp, rfl⟩)
  · exact Or.inl ⟨t, x, hx, rfl⟩
  · exact Or.inr ⟨p, (I.pointer hx he hp).1, rfl⟩

theorem LedgerInv.noDangling (I : LedgerInv inUse s L) : s.NoDangling := fun _ _ hx =>
  I.tables_subset hx

/-- Different first levels lie in different frames. -/
theorem rootFrame_unique {root root' : PhysAddr} (h : root.toNat % L1_ALIGN = 0)
    (h' : root'.toNat % L1_ALIGN = 0) {n : ℕ} (hn : RootFrame root n) (hn' : RootFrame root' n) :
    root = root' := by
  rw [L1_ALIGN] at h h'
  rw [RootFrame, frameOf, L1_SIZE_PAGES] at hn hn'
  exact BitVec.eq_of_toNat_eq (by omega)

/-- Entries of different first levels do not overlap. -/
theorem LedgerInv.l1_ne (I : LedgerInv inUse s L) (hx : s.tables t = some x)
    (hy : s.tables t' = some y) (hne : t' ≠ t) (i j : Fin ENTRY_COUNT) :
    (l1At y.rootPaddr i).addr ≠ (l1At x.rootPaddr j).addr := by
  intro heq
  have hroot := rootFrame_unique (I.root_aligned hy) (I.root_aligned hx)
    (rootFrame_l1At (I.root_aligned hy) i) (heq ▸ rootFrame_l1At (I.root_aligned hx) j)
  exact hne (I.root_inj hy hx hroot)

/-- Entries of the second level do not overlap those of any first level. -/
theorem LedgerInv.l2_ne (I : LedgerInv inUse s L) (hx : s.tables t = some x)
    (hy : s.tables t' = some y) {i : Fin ENTRY_COUNT}
    (h : links (s.world.entry (l1At x.rootPaddr i)) = true) (v : VirtAddr) (j : Fin ENTRY_COUNT) :
    (l1At y.rootPaddr j).addr ≠ (l2Slot (s.world.entry (l1At x.rootPaddr i)) v).addr := by
  obtain ⟨p, hp, he, -⟩ := I.link hx h
  have hpaddr : paddr (newTable p : A32PTE) = p := physAddr_newTable (I.sub_aligned hp)
  have hframe : frameOf (l2Slot (newTable p : A32PTE) v).addr = frameOf p := by
    rw [frameOf_l2Slot (by rw [hpaddr]; exact I.sub_aligned hp), hpaddr]
  intro heq
  refine I.sub_apart hy hp ?_
  rw [← hframe, ← he, ← heq]
  exact rootFrame_l1At (I.root_aligned hy) j

end LedgerInv

/-- The pairs tell whose tables the entries of each page table point to. -/
def System.Lent (s : System B M H) (L : Ledger) (R : List (ℕ × ℕ)) : Prop :=
  ∀ t x i p z, s.tables t = some x → p ∈ L.subs → L.owner p = some z →
    s.world.entry (l1At x.rootPaddr i) = newTable p → z ≠ t → (t, z) ∈ R

/-- The ledger of a system without tables. -/
def Ledger.blank : Ledger where
  subs := ∅
  index _ := ⟨0, by decide⟩
  owner _ := none

theorem System.Blank.ledger {s : System B M H} (h : s.Blank) (inUse : σ → Set ℕ) :
    LedgerInv inUse s Ledger.blank := by
  have hno : ∀ {t x}, s.tables t ≠ some x := fun {t x} hx => by
    rw [h.1 t] at hx
    cases hx
  refine ⟨?_, ?_, fun hx => absurd hx hno, fun hx => absurd hx hno, fun hx => absurd hx hno,
    fun hx => absurd hx hno, fun hp => hp.elim, fun hp => hp.elim, fun hp => hp.elim,
    fun hx => absurd hx hno, fun hx => absurd hx hno, fun hp => hp.elim, fun hx => absurd hx hno⟩
  · rw [h.2]
    trivial
  · rw [h.2, live_nil]
    ext b
    constructor
    · exact fun hb => hb.elim
    · rintro (⟨t, x, hx, -⟩ | ⟨p, hp, -⟩)
      · exact (hno hx).elim
      · exact hp.elim

end PageTableMultiarch.Bits32
