/-
The elementary steps of a page table and the invariant they keep.

Every method of `PageTable64` but the drop is a chain of steps (`Steps`): an access to
a reached table, a change of the pending flushes, a failed allocation, the store of an
entry that is no table, and the creation of a table under an unused entry.  The
invariant `Inv` says that the tables form a tree of frames in use and that each entry
is unused, a table or a leaf; leaves satisfy a predicate `P` of one's choice.

* `Step.tree`, `Step.inv` — each step keeps the invariant, and `Step.nodes` says which
  table is new;
* `Grow.leafAt` — steps without stores change no leaf.
-/
import PageTableMultiarch.Table64.Spec
import Mathlib.Logic.Relation

namespace PageTableMultiarch

open GenericPTE Radix

variable {B : Build} {M : PagingMetaData} {PTE σ : Type} {H : PagingHandler 64 σ}

/-- What the page tables rely on of the frame allocator: `inUse` are the frames it has
handed out and not taken back, and it hands out valid frames that are not in use. -/
structure FreshFrames (M : PagingMetaData) (H : PagingHandler 64 σ)
    (inUse : σ → Set PhysAddr) : Prop where
  valid {s s' : σ} {p : PhysAddr} : H.allocFrame s = (some p, s') → ValidFrame M p
  fresh {s s' : σ} {p : PhysAddr} : H.allocFrame s = (some p, s') → p ∉ inUse s
  alloc {s s' : σ} {p : PhysAddr} : H.allocFrame s = (some p, s') →
    insert p (inUse s) ⊆ inUse s'
  alloc_none {s s' : σ} : H.allocFrame s = (none, s') → inUse s ⊆ inUse s'
  dealloc (s : σ) (p : PhysAddr) : inUse s \ {p} ⊆ inUse (H.deallocFrame s p)

/-- An allocator that counts up from frame one and never takes a frame back. -/
def bumpHandler (limit : ℕ) : PagingHandler 64 ℕ where
  allocFrame n :=
    if n < limit then (some (BitVec.ofNat 64 (0x1000 * (n + 1))), n + 1) else (none, n)
  allocFrames n _ _ := (none, n)
  deallocFrame n _ := n
  deallocFrames n _ _ := n

/-- The first frames after frame zero. -/
def bumped (n : ℕ) : Set PhysAddr := {p | ∃ j < n, p = BitVec.ofNat 64 (0x1000 * (j + 1))}

theorem freshFrames_bumpHandler {limit : ℕ} (h : 0x1000 * limit ≤ M.PA_MAX_ADDR)
    (h64 : 0x1000 * limit < 2 ^ 64) : FreshFrames M (bumpHandler limit) bumped := by
  -- frame `n` is handed out in state `n`
  have some_iff : ∀ {n n' : ℕ} {p : PhysAddr},
      (bumpHandler limit).allocFrame n = (some p, n') →
        n < limit ∧ p = BitVec.ofNat 64 (0x1000 * (n + 1)) ∧ n' = n + 1 := by
    intro n n' p ha
    simp only [bumpHandler] at ha
    split at ha
    · next hn =>
      simp only [Prod.mk.injEq, Option.some.injEq] at ha
      exact ⟨hn, ha.1.symm, ha.2.symm⟩
    · exact absurd (congrArg Prod.fst ha) (by simp)
  have toNat_frame : ∀ n < limit,
      (BitVec.ofNat 64 (0x1000 * (n + 1))).toNat = 0x1000 * (n + 1) := by
    intro n hn
    rw [BitVec.toNat_ofNat, Nat.mod_eq_of_lt (by omega)]
  refine ⟨fun ha => ?_, fun ha => ?_, fun ha => ?_, fun ha => ?_, fun n p => ?_⟩
  · obtain ⟨hn, rfl, -⟩ := some_iff ha
    refine ⟨by rw [toNat_frame _ hn]; omega, fun h0 => ?_, by rw [toNat_frame _ hn]; omega⟩
    have := congrArg BitVec.toNat h0
    rw [toNat_frame _ hn] at this
    exact absurd this (by simp)
  · obtain ⟨hn, rfl, -⟩ := some_iff ha
    rintro ⟨j, hj, heq⟩
    have := congrArg BitVec.toNat heq
    rw [toNat_frame _ hn, toNat_frame _ (by omega)] at this
    omega
  · obtain ⟨-, rfl, rfl⟩ := some_iff ha
    rintro p (rfl | ⟨j, hj, rfl⟩)
    · exact ⟨_, Nat.lt_succ_self _, rfl⟩
    · exact ⟨j, by omega, rfl⟩
  · simp only [bumpHandler] at ha
    split at ha
    · exact absurd (congrArg Prod.fst ha) (by simp)
    · simp only [Prod.mk.injEq, true_and] at ha
      rw [ha]
  · exact Set.sdiff_subset

variable [GenericPTE 64 PTE]

/-- An entry at the end of a path of `len` indices that is unused or a leaf. -/
def LeafEntry (P : PTE → Prop) (M : PagingMetaData) (len : ℕ) (e : PTE) : Prop :=
  e = empty ∨ P e ∧ (len = M.LEVELS ∨ isHuge e = true ∧ M.LEVELS ≤ len + 2)

/-- An entry at the end of a path of `len` indices that no walk takes for a table. -/
def NoTable (M : PagingMetaData) (len : ℕ) (e : PTE) : Prop := len = M.LEVELS ∨ child e = none

/-- An entry that points to a table. -/
def TableEntry (M : PagingMetaData) (len : ℕ) (e : PTE) : Prop :=
  len < M.LEVELS ∧ ∃ p, ValidFrame M p ∧ e = newTable p

section Lawful

variable [LawfulPTE M PTE]

theorem child_newTable {p : PhysAddr} (hp : ValidFrame M p) :
    child (newTable p : PTE) = some p := by
  have hpaddr : paddr (newTable p : PTE) = p := LawfulPTE.paddr_newTable hp
  exact child_eq_some.mpr
    ⟨by rw [hpaddr]; exact hp.ne_zero, LawfulPTE.isHuge_newTable M p, hpaddr⟩

theorem LeafEntry.noTable {P : PTE → Prop} {len : ℕ} {e : PTE} (h : LeafEntry P M len e) :
    NoTable M len e := by
  obtain rfl | ⟨-, h | ⟨h, -⟩⟩ := h
  · exact Or.inr (child_empty M)
  · exact Or.inl h
  · exact Or.inr (child_of_isHuge h)

theorem LeafEntry.child_eq_none {P : PTE → Prop} {len : ℕ} {e : PTE} (h : LeafEntry P M len e)
    (hlen : len ≠ M.LEVELS) : child e = none :=
  h.noTable.resolve_left hlen

end Lawful

/-! ### The invariant -/

/-- The tables below the root form a tree of frames in use. -/
structure Tree (M : PagingMetaData) (inUse : σ → Set PhysAddr) (root : PhysAddr)
    (w : World PTE σ) : Prop where
  forest : Forest child w.mem {root} (M.LEVELS - 1)
  inUse : nodes child w.mem {root} (M.LEVELS - 1) ⊆ inUse w.os

/-- Each entry is a table or satisfies `Q`, which may depend on the length of its path. -/
def Entries (Q : ℕ → PTE → Prop) (M : PagingMetaData) (root : PhysAddr) (w : World PTE σ) : Prop :=
  ∀ {ρ : List (Fin ENTRY_COUNT)} {slot : Slot}, SlotAt w.mem root ρ slot → ρ.length ≤ M.LEVELS →
    TableEntry M ρ.length (w.entry slot) ∨ Q ρ.length (w.entry slot)

/-- Moreover each entry is unused, a table or a leaf. -/
structure Inv (P : PTE → Prop) (M : PagingMetaData) (inUse : σ → Set PhysAddr)
    (root : PhysAddr) (w : World PTE σ) : Prop extends Tree M inUse root w where
  entries : Entries (LeafEntry P M) M root w

theorem Inv.leafEntry_of_isHuge [LawfulPTE M PTE] {P : PTE → Prop} {inUse : σ → Set PhysAddr}
    {root : PhysAddr} {w : World PTE σ} (I : Inv P M inUse root w) {ρ : List (Fin ENTRY_COUNT)}
    {slot : Slot} (h : SlotAt w.mem root ρ slot) (hρ : ρ.length ≤ M.LEVELS)
    (hhuge : isHuge (w.entry slot) = true) : LeafEntry P M ρ.length (w.entry slot) := by
  obtain ⟨-, p, -, hnew⟩ | hleaf := I.entries h hρ
  · rw [hnew, LawfulPTE.isHuge_newTable M] at hhuge
    exact absurd hhuge Bool.false_ne_true
  · exact hleaf

/-! ### Steps -/

/-- The state after a fresh zeroed table has been hung under an entry. -/
def World.hang (w : World PTE σ) (slot : Slot) (p : PhysAddr) (os : σ) : World PTE σ :=
  { w with
    mem := Radix.attach w.mem slot.table slot.index (newTable p) p empty
    os := os
    trace := .access slot.table :: .access p :: .alloc p :: w.trace }

/-- One elementary step of a page table, with the paths `A` under which it may create
a table and the entries `W` it may store at the end of a path. -/
inductive Step (M : PagingMetaData) (H : PagingHandler 64 σ) (root : PhysAddr)
    (A : List (Fin ENTRY_COUNT) → Prop) (W : List (Fin ENTRY_COUNT) → PTE → Prop)
    (w : World PTE σ) : World PTE σ → Prop
  | access (t : PhysAddr) (ht : t ∈ nodes child w.mem {root} (M.LEVELS - 1)) :
    Step M H root A W w (w.touch [t])
  | flush (flusher : TlbFlusher 64) : Step M H root A W w { w with flusher := flusher }
  | allocFail (os : σ) (h : H.allocFrame w.os = (none, os)) :
    Step M H root A W w { w with os := os }
  | store (ρ : List (Fin ENTRY_COUNT)) (slot : Slot) (e : PTE) (h : SlotAt w.mem root ρ slot)
    (hρ : ρ.length ≤ M.LEVELS) (hc : ρ.length = M.LEVELS ∨ child (w.entry slot) = none)
    (hW : W ρ e) : Step M H root A W w (w.store slot e)
  | attach (ρ : List (Fin ENTRY_COUNT)) (slot : Slot) (p : PhysAddr) (os : σ)
    (h : SlotAt w.mem root ρ slot) (hρ : ρ.length < M.LEVELS) (hold : w.entry slot = empty)
    (ha : H.allocFrame w.os = (some p, os)) (hA : A ρ) :
    Step M H root A W w (w.hang slot p os)

/-- A chain of steps. -/
def Steps (M : PagingMetaData) (H : PagingHandler 64 σ) (root : PhysAddr)
    (A : List (Fin ENTRY_COUNT) → Prop) (W : List (Fin ENTRY_COUNT) → PTE → Prop) :
    World PTE σ → World PTE σ → Prop :=
  Relation.ReflTransGen (Step M H root A W)

/-- A chain of steps without stores. -/
def Grow (M : PagingMetaData) (H : PagingHandler 64 σ) (root : PhysAddr)
    (A : List (Fin ENTRY_COUNT) → Prop) : World PTE σ → World PTE σ → Prop :=
  Steps M H root A fun _ _ => False

variable {root : PhysAddr} {A A' : List (Fin ENTRY_COUNT) → Prop}
  {W W' : List (Fin ENTRY_COUNT) → PTE → Prop} {P : PTE → Prop} {inUse : σ → Set PhysAddr}
  {w w' : World PTE σ}

theorem Step.mono (h : Step M H root A W w w') (hA : ∀ ρ, A ρ → A' ρ)
    (hW : ∀ ρ e, W ρ e → W' ρ e) : Step M H root A' W' w w' := by
  cases h with
  | access t ht => exact .access t ht
  | flush fl => exact .flush fl
  | allocFail os h => exact .allocFail os h
  | store ρ slot e h hρ hc hw => exact .store ρ slot e h hρ hc (hW ρ e hw)
  | attach ρ slot p os h hρ hold ha hA' => exact .attach ρ slot p os h hρ hold ha (hA ρ hA')

theorem Steps.mono (h : Steps M H root A W w w') (hA : ∀ ρ, A ρ → A' ρ)
    (hW : ∀ ρ e, W ρ e → W' ρ e) : Steps M H root A' W' w w' :=
  Relation.ReflTransGen.mono (fun _ _ h => h.mono hA hW) _ _ h

theorem Grow.steps (h : Grow M H root A w w') : Steps M H root A W w w' :=
  h.mono (fun _ h => h) fun _ _ h => h.elim

/-- Accesses to reached tables are steps. -/
theorem Steps.touch (acc : List PhysAddr)
    (hacc : ∀ t ∈ acc, t ∈ nodes child w.mem {root} (M.LEVELS - 1)) :
    Steps M H root A W w (w.touch acc) := by
  induction acc with
  | nil => exact .refl
  | cons t acc ih =>
    have := ih fun u hu => hacc u (List.mem_cons_of_mem _ hu)
    refine .tail this ?_
    rw [show w.touch (t :: acc) = (w.touch acc).touch [t] by rw [World.touch_touch]; rfl]
    exact .access t (hacc t List.mem_cons_self)

section Preserve

variable [LawfulPTE M PTE]

/-- The table that an attach hangs in is reached, and it is not the new one. -/
theorem SlotAt.table_mem {m : PhysAddr → Fin ENTRY_COUNT → PTE} {ρ : List (Fin ENTRY_COUNT)}
    {slot : Slot} {n : ℕ} (h : SlotAt m root ρ slot) (hρ : ρ.length ≤ n + 1) :
    slot.table ∈ nodes child m {root} n := by
  obtain ⟨π, rfl, hs⟩ := h
  rw [List.length_append, List.length_singleton] at hρ
  exact ⟨root, rfl, π, by omega, hs⟩

omit [LawfulPTE M PTE] in
/-- A store of an entry that is no table over another one changes no walk to a table. -/
theorem Tree.resolve_store (T : Tree M inUse root w) {ρ : List (Fin ENTRY_COUNT)} {slot : Slot}
    (h : SlotAt w.mem root ρ slot) (hρ : ρ.length ≤ M.LEVELS)
    (hc : ρ.length = M.LEVELS ∨ child (w.entry slot) = none) {e : PTE}
    (he : NoTable M ρ.length e) : ∀ r ∈ ({root} : Set PhysAddr),
      ∀ π : List (Fin ENTRY_COUNT), π.length ≤ M.LEVELS - 1 →
        resolve child (w.store slot e).mem r π = resolve child w.mem r π := by
  obtain ⟨π, rfl, hs⟩ := h
  rw [List.length_append, List.length_singleton] at hρ hc he
  refine T.forest.resolve_set rfl (by omega) hs ?_
  rcases hc with hc | hc
  · exact Or.inl (by omega)
  · obtain he | he := he
    · exact Or.inl (by omega)
    · exact Or.inr (he.trans hc.symm)

theorem child_of_entry_eq_empty (M : PagingMetaData) [LawfulPTE M PTE] {slot : Slot}
    (h : w.entry slot = empty) : child (w.mem slot.table slot.index) = none := by
  rw [show w.mem slot.table slot.index = empty from h]
  exact child_empty M

/-- Each step keeps the tree. -/
theorem Step.tree (hH : FreshFrames M H inUse) (hW : ∀ ρ e, W ρ e → NoTable M ρ.length e)
    (T : Tree M inUse root w) (h : Step M H root A W w w') : Tree M inUse root w' := by
  cases h with
  | access t ht => exact ⟨T.forest, T.inUse⟩
  | flush fl => exact ⟨T.forest, T.inUse⟩
  | allocFail os h => exact ⟨T.forest, T.inUse.trans (hH.alloc_none h)⟩
  | store ρ slot e h hρ hc hw =>
    have hsame := T.resolve_store h hρ hc (hW ρ e hw)
    refine ⟨T.forest.of_resolve_eq hsame, ?_⟩
    rw [nodes_of_resolve_eq hsame]
    exact T.inUse
  | attach ρ slot p os h hρ hold ha _ =>
    have hp : p ∉ nodes child w.mem {root} (M.LEVELS - 1) := fun hc =>
      hH.fresh ha (T.inUse hc)
    have hnone := child_of_entry_eq_empty M hold
    have hnew : child (newTable p : PTE) = some p := child_newTable (hH.valid ha)
    obtain ⟨π, rfl, hs⟩ := h
    rw [List.length_append, List.length_singleton] at hρ
    refine ⟨T.forest.attach rfl (by omega) hs hnone hp hnew (child_empty M), ?_⟩
    exact (T.forest.nodes_attach rfl (by omega) hs hnone hp hnew (child_empty M)).le.trans
      ((Set.insert_subset_insert T.inUse).trans (hH.alloc ha))

/-- Each step keeps the kinds of entries: tables, and those that satisfy `Q`. -/
theorem Step.entries (hH : FreshFrames M H inUse) {Q : ℕ → PTE → Prop} (hQ : ∀ n, Q n empty)
    (hW : ∀ ρ e, W ρ e → NoTable M ρ.length e ∧ Q ρ.length e) (T : Tree M inUse root w)
    (hentries : Entries Q M root w) (h : Step M H root A W w w') : Entries Q M root w' := by
  cases h with
  | access t ht => exact hentries
  | flush fl => exact hentries
  | allocFail os h => exact hentries
  | store ρ slot e h hρ hc hw =>
    have hsame := T.resolve_store h hρ hc (hW ρ e hw).1
    obtain ⟨π, rfl, hs⟩ := h
    rintro ρ' slot' ⟨π', rfl, hs'⟩ hρ'
    rw [List.length_append, List.length_singleton] at hρ
    have hlen' := hρ'
    rw [List.length_append, List.length_singleton] at hlen'
    rw [hsame root rfl π' (by omega)] at hs'
    rw [World.entry, World.store_mem, set_apply]
    split
    · -- the entry that is stored, reached along its own path
      next heq =>
      obtain ⟨ht, hi⟩ := heq
      obtain rfl := (T.forest rfl rfl (by omega) (by omega) (ht ▸ hs') hs).2
      rw [hi]
      exact Or.inr (hW _ e hw).2
    · exact hentries ⟨π', rfl, hs'⟩ hρ'
  | attach ρ slot p os h hρ hold ha _ =>
    have hvalid := hH.valid ha
    have hp : p ∉ nodes child w.mem {root} (M.LEVELS - 1) := fun hc =>
      hH.fresh ha (T.inUse hc)
    obtain ⟨π, rfl, hs⟩ := h
    have hlen := hρ
    rw [List.length_append, List.length_singleton] at hlen
    -- the new node is none of the old ones
    have hps : p ≠ slot.table := fun hc => hp (hc ▸ ⟨root, rfl, π, by omega, hs⟩)
    rintro ρ' slot' ⟨π', rfl, hs'⟩ hρ'
    have hlen' := hρ'
    rw [List.length_append, List.length_singleton] at hlen'
    rw [World.entry, World.hang]
    simp only [attach_apply hps]
    rcases (T.forest.resolve_attach rfl (by omega) hs (child_of_entry_eq_empty M hold) hp
      (child_newTable hvalid) (child_empty M) rfl (by omega)).mp hs' with hs' | ⟨-, rfl, hp'⟩
    · split
      · next heq =>
        obtain ⟨ht, hi⟩ := heq
        obtain rfl := (T.forest rfl rfl (by omega) (by omega) (ht ▸ hs') hs).2
        exact Or.inl ⟨by rw [hi]; exact hρ, p, hvalid, rfl⟩
      · rw [if_neg fun hc : slot'.table = p => hp (hc ▸ ⟨root, rfl, π', by omega, hs'⟩)]
        exact hentries ⟨π', rfl, hs'⟩ hρ'
    · -- an entry of the new node
      rw [if_neg fun hc => hps (hp'.symm.trans hc.1), if_pos hp']
      exact Or.inr (hQ _)

/-- Each step keeps the invariant. -/
theorem Step.inv (hH : FreshFrames M H inUse)
    (hW : ∀ ρ e, W ρ e → LeafEntry P M ρ.length e) (I : Inv P M inUse root w)
    (h : Step M H root A W w w') : Inv P M inUse root w' :=
  ⟨h.tree hH (fun ρ e he => (hW ρ e he).noTable) I.toTree,
    h.entries (Q := LeafEntry P M) hH (fun _ => Or.inl rfl)
      (fun ρ e he => ⟨(hW ρ e he).noTable, hW ρ e he⟩) I.toTree I.entries⟩

theorem Steps.tree (hH : FreshFrames M H inUse) (hW : ∀ ρ e, W ρ e → NoTable M ρ.length e)
    (T : Tree M inUse root w) (h : Steps M H root A W w w') : Tree M inUse root w' := by
  induction h with
  | refl => exact T
  | tail _ hstep ih => exact hstep.tree hH hW ih

theorem Steps.entries (hH : FreshFrames M H inUse) {Q : ℕ → PTE → Prop} (hQ : ∀ n, Q n empty)
    (hW : ∀ ρ e, W ρ e → NoTable M ρ.length e ∧ Q ρ.length e) (T : Tree M inUse root w)
    (hentries : Entries Q M root w) (h : Steps M H root A W w w') : Entries Q M root w' := by
  induction h with
  | refl => exact hentries
  | tail hsteps hstep ih =>
    exact hstep.entries hH hQ hW (Steps.tree hH (fun ρ e he => (hW ρ e he).1) T hsteps) ih

theorem Steps.inv (hH : FreshFrames M H inUse)
    (hW : ∀ ρ e, W ρ e → LeafEntry P M ρ.length e) (I : Inv P M inUse root w)
    (h : Steps M H root A W w w') : Inv P M inUse root w' := by
  induction h with
  | refl => exact I
  | tail _ hstep ih => exact hstep.inv hH hW ih

theorem Grow.tree (hH : FreshFrames M H inUse) (T : Tree M inUse root w)
    (h : Grow M H root A w w') : Tree M inUse root w' :=
  Steps.tree hH (fun _ _ h => h.elim) T h

theorem Grow.inv (hH : FreshFrames M H inUse) (I : Inv P M inUse root w)
    (h : Grow M H root A w w') : Inv P M inUse root w' :=
  Steps.inv hH (fun _ _ h => h.elim) I h

/-- Steps without stores change no leaf. -/
theorem Grow.leafAt (hH : FreshFrames M H inUse) (T : Tree M inUse root w)
    (h : Grow M H root A w w') (v : VirtAddr) :
    leafAt M w'.mem root v = leafAt M w.mem root v := by
  induction h with
  | refl => rfl
  | tail hsteps hstep ih =>
    rw [← ih]
    have T' := Grow.tree hH T hsteps
    cases hstep with
    | access t ht => rfl
    | flush fl => rfl
    | allocFail os h => rfl
    | store ρ slot e h hρ hc hw => exact hw.elim
    | attach ρ slot p os h hρ hold ha _ =>
      exact leafAt_attach T'.forest h hρ hold (fun hc => hH.fresh ha (T'.inUse hc))
        (child_newTable (hH.valid ha)) v

end Preserve

end PageTableMultiarch
