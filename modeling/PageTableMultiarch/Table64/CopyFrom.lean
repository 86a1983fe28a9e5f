/-
`copy_from`, one root entry at a time.

The loop handles each index of a range once: it frees the tree under the entry of the
destination unless that entry is borrowed, and overwrites the entry with the one of the
source.

* `copyFrom_apply` — the call as that loop;
* `copySlot_spec`, `copySlots_spec` — what one round and all rounds free and store.
-/
import PageTableMultiarch.Table64.Drop

namespace PageTableMultiarch

open GenericPTE Radix

variable {B : Build} {M : PagingMetaData} {PTE σ : Type} {H : PagingHandler 64 σ}

/-- The indices of the root table that `copy_from` handles. -/
def copyRange (M : PagingMetaData) (start : VirtAddr) (size : Usize) (i : Fin ENTRY_COUNT) :
    Bool :=
  decide ((PageTable64.rootIndex M start).val ≤ i.val ∧
    i.val < (PageTable64.rootIndex M (start + size - 1)).val + 1)

/-- Whether `copy_from` copies any entry. -/
def lends (M : PagingMetaData) (start : VirtAddr) (size : Usize) : Bool :=
  decide (size ≠ 0) && decide ((PageTable64.rootIndex M start).val ≤
    (PageTable64.rootIndex M (start + size - 1)).val)

/-- The table with more borrowed entries. -/
def PageTable64.borrow (self : PageTable64 B M PTE H) (b : Fin ENTRY_COUNT → Bool) :
    PageTable64 B M PTE H :=
  { self with borrowedEntries := fun i => self.borrowedEntries i || b i }

@[simp] theorem borrow_rootPaddr (self : PageTable64 B M PTE H) (b : Fin ENTRY_COUNT → Bool) :
    (self.borrow b).rootPaddr = self.rootPaddr := rfl

@[simp] theorem borrow_borrowedEntries (self : PageTable64 B M PTE H)
    (b : Fin ENTRY_COUNT → Bool) (i : Fin ENTRY_COUNT) :
    (self.borrow b).borrowedEntries i = (self.borrowedEntries i || b i) := rfl

variable [GenericPTE 64 PTE]

/-- One round of `copy_from`. -/
def copySlot (self other : PageTable64 B M PTE H) (i : Fin ENTRY_COUNT) :
    Op (World PTE σ) Unit := do
  if self.borrowedEntries i then pure ()
  else do
    let entry : PTE ← readEntry ⟨self.rootPaddr, i⟩
    if (PageTable64.nextTable entry).isOk then PageTable64.deallocTree M H (paddr entry) 1
    else pure ()
  let value : PTE ← readEntry ⟨other.rootPaddr, i⟩
  writeEntry ⟨self.rootPaddr, i⟩ value

/-- A call of `copy_from` panics at once, because the range wraps around, does nothing, or
handles the indices of its range. -/
theorem copyFrom_apply (self other : PageTable64 B M PTE H) (start : VirtAddr) (size : Usize)
    (w : World PTE σ) :
    2 ^ 64 ≤ start.toNat + size.toNat ∧ self.copyFrom other start size w = (.panic, w) ∨
      size = 0 ∧ self.copyFrom other start size w = (.ok self, w) ∨
      size ≠ 0 ∧ self.copyFrom other start size w =
        (forEach (entryIndices.filter (copyRange M start size)) (copySlot self other) >>= fun _ =>
          Op.modify (fun w => { w with flusher := .full }) >>= fun _ =>
            pure (self.borrow (copyRange M start size))) w := by
  by_cases h0 : size = 0
  · refine Or.inr (Or.inl ⟨h0, ?_⟩)
    rw [PageTable64.copyFrom, if_pos h0]
    rfl
  have hsize : size.toNat ≠ 0 := fun hc => h0 (BitVec.eq_of_toNat_eq hc)
  rw [PageTable64.copyFrom, if_neg h0, checkedAdd]
  split
  · next hover =>
    simp only [Bool.and_eq_true, decide_eq_true_eq] at hover
    exact Or.inl ⟨hover.2, rfl⟩
  have hstart := (PageTable64.rootIndex M start).isLt
  have hlast := (PageTable64.rootIndex M (start + size - 1)).isLt
  rw [Op.bind_ok (Op.pure_apply _ _), checkedSub]
  split
  · next hunder =>
    simp only [Bool.and_eq_true, decide_eq_true_eq] at hunder
    refine Or.inl ⟨?_, rfl⟩
    -- the sum is zero
    by_contra hno
    have hsum := hunder.2
    rw [BitVec.toNat_add, Nat.mod_eq_of_lt (by omega), show (1 : Usize).toNat = 1 from rfl] at hsum
    omega
  rw [Op.bind_ok (Op.pure_apply _ _), Op.assert, decide_eq_true hstart, if_pos rfl,
    Op.bind_ok (Op.pure_apply _ _), Op.assert, decide_eq_true (by omega), if_pos rfl,
    Op.bind_ok (Op.pure_apply _ _)]
  exact Or.inr (Or.inr ⟨h0, rfl⟩)

/-- One round frees the tree under the entry of the destination, unless the entry is
borrowed, and then overwrites the entry. -/
theorem copySlot_spec (self other : PageTable64 B M PTE H) {i : Fin ENTRY_COUNT}
    {w : World PTE σ} (hforest : self.borrowedEntries i = false → ∀ u,
      child (w.mem self.rootPaddr i) = some u → Forest child w.mem {u} (M.LEVELS - 2)) :
    ∃ w', copySlot self other i w = (.ok (), (w'.touch [other.rootPaddr]).store
        ⟨self.rootPaddr, i⟩ (w.mem other.rootPaddr i)) ∧
      Frees H (self.ownedBelow w.mem i) ({self.rootPaddr} ∪ self.ownedBelow w.mem i) w w' := by
  obtain ⟨w', heq, h⟩ := deallocUnborrowed_spec self hforest
  have hrest : (readEntry ⟨other.rootPaddr, i⟩ >>= fun value : PTE =>
      writeEntry ⟨self.rootPaddr, i⟩ value) w' = (.ok (), (w'.touch [other.rootPaddr]).store
        ⟨self.rootPaddr, i⟩ (w.mem other.rootPaddr i)) := by
    rw [Op.bind_ok (readEntry_eq _ _), writeEntry_eq, World.entry, h.mem]
  refine ⟨w', ?_, h⟩
  rw [copySlot]
  by_cases hb : self.borrowedEntries i = true
  · rw [if_pos hb] at heq ⊢
    obtain rfl : w = w' := congrArg Prod.snd heq
    exact hrest
  · rw [if_neg hb, Op.bind_ok (readEntry_eq _ _)] at heq ⊢
    by_cases hok : (PageTable64.nextTable (w.entry ⟨self.rootPaddr, i⟩)).isOk = true
    · rw [if_pos hok] at heq ⊢
      rw [Op.bind_ok heq]
      exact hrest
    · rw [if_neg hok] at heq ⊢
      obtain rfl : w.touch [self.rootPaddr] = w' := congrArg Prod.snd heq
      exact hrest

/-- Memory after root entries of one table have been copied to another. -/
def copiedMem (self other : PageTable64 B M PTE H) (copied : Fin ENTRY_COUNT → Prop)
    [DecidablePred copied] (m : PhysAddr → Fin ENTRY_COUNT → PTE) :
    PhysAddr → Fin ENTRY_COUNT → PTE := fun s i =>
  if s = self.rootPaddr ∧ copied i then m other.rootPaddr i else m s i

section Rounds

variable {self other : PageTable64 B M PTE H} {l : List (Fin ENTRY_COUNT)} {w : World PTE σ}

/-- The trees under root entries to be overwritten: they are trees, apart from each other
and from both roots. -/
structure CopySafe (table other : PageTable64 B M PTE H) (l : List (Fin ENTRY_COUNT))
    (m : PhysAddr → Fin ENTRY_COUNT → PTE) : Prop where
  forest {i : Fin ENTRY_COUNT} {u : PhysAddr} : i ∈ l → table.borrowedEntries i = false →
    child (m table.rootPaddr i) = some u → Forest child m {u} (M.LEVELS - 2)
  disjoint : l.Pairwise fun i j => Disjoint (table.ownedBelow m i) (table.ownedBelow m j)
  self_root {i : Fin ENTRY_COUNT} : i ∈ l → table.rootPaddr ∉ table.ownedBelow m i
  other_root {i : Fin ENTRY_COUNT} : i ∈ l → other.rootPaddr ∉ table.ownedBelow m i

/-- Overwriting another root entry leaves the tree under an entry alone. -/
theorem ownedBelow_agree {m m' : PhysAddr → Fin ENTRY_COUNT → PTE} {i : Fin ENTRY_COUNT}
    (hentry : m' self.rootPaddr i = m self.rootPaddr i)
    (hmem : ∀ s, s ≠ self.rootPaddr → m' s = m s)
    (hroot : self.rootPaddr ∉ self.ownedBelow m i) :
    self.ownedBelow m' i = self.ownedBelow m i ∧ ∀ u, self.borrowedEntries i = false →
      child (m self.rootPaddr i) = some u →
      ∀ s ∈ nodes child m {u} (M.LEVELS - 2), m' s = m s := by
  have hagree : ∀ u, self.borrowedEntries i = false → child (m self.rootPaddr i) = some u →
      ∀ s ∈ nodes child m {u} (M.LEVELS - 2), m' s = m s := by
    intro u hb hu s hs
    refine hmem s ?_
    rintro rfl
    exact hroot (mem_ownedBelow.mpr ⟨hb, u, hu, hs⟩)
  refine ⟨?_, hagree⟩
  cases hb : self.borrowedEntries i with
  | true => rw [PageTable64.ownedBelow, PageTable64.ownedBelow, if_pos hb, if_pos hb]
  | false =>
    rw [PageTable64.ownedBelow, PageTable64.ownedBelow, hb]
    cases hc : child (m self.rootPaddr i) with
    | none => rw [subtree_of_no_child hc, subtree_of_no_child (hentry ▸ hc)]
    | some u =>
      rw [subtree_of_child hc, subtree_of_child (hentry ▸ hc), nodes_of_agree (hagree u hb hc)]

/-- The rounds of `copy_from`: the trees under the entries of the destination are freed, and
the entries are overwritten. -/
theorem copySlots_spec (hne : other.rootPaddr ≠ self.rootPaddr) (hl : l.Nodup)
    (S : CopySafe self other l w.mem) :
    ∃ w', forEach l (copySlot self other) w = (.ok (), w') ∧
      w'.mem = copiedMem self other (· ∈ l) w.mem ∧
      Frees H (⋃ i ∈ l, self.ownedBelow w.mem i)
        ({self.rootPaddr, other.rootPaddr} ∪ ⋃ i ∈ l, self.ownedBelow w.mem i)
        w { w' with mem := w.mem } := by
  induction l generalizing w with
  | nil =>
    refine ⟨w, rfl, ?_, ?_⟩
    · funext s i
      simp [copiedMem]
    · simpa using Frees.refl {self.rootPaddr, other.rootPaddr} w
  | cons i l ih =>
    obtain ⟨hi, hl⟩ := List.nodup_cons.mp hl
    obtain ⟨hfirst, hrest⟩ := List.pairwise_cons.mp S.disjoint
    -- the first round
    obtain ⟨w₀, heq, h₀⟩ := copySlot_spec self other (i := i) (w := w) fun hb u hu =>
      S.forest List.mem_cons_self hb hu
    set w₁ := (w₀.touch [other.rootPaddr]).store ⟨self.rootPaddr, i⟩ (w.mem other.rootPaddr i)
      with hw₁
    have happly : ∀ s j, w₁.mem s j = if s = self.rootPaddr ∧ j = i then w.mem other.rootPaddr i
        else w.mem s j := by
      intro s j
      rw [hw₁, World.store_mem, World.touch_mem, h₀.mem, set_apply]
    have hmem : ∀ s, s ≠ self.rootPaddr → w₁.mem s = w.mem s := by
      intro s hs
      funext j
      rw [happly, if_neg fun hc => hs hc.1]
    have hentry : ∀ j ∈ l, w₁.mem self.rootPaddr j = w.mem self.rootPaddr j := by
      intro j hj
      have hji : j ≠ i := fun hc => hi (hc ▸ hj)
      rw [happly, if_neg fun hc => hji hc.2]
    have hbelow : ∀ j ∈ l, self.ownedBelow w₁.mem j = self.ownedBelow w.mem j := fun j hj =>
      (ownedBelow_agree (hentry j hj) hmem (S.self_root (List.mem_cons_of_mem i hj))).1
    -- the other rounds
    have S₁ : CopySafe self other l w₁.mem := by
      refine ⟨fun {j u} hj hb hu => ?_, ?_, fun {j} hj => ?_, fun {j} hj => ?_⟩
      · have hj' := List.mem_cons_of_mem i hj
        rw [hentry j hj] at hu
        exact (S.forest hj' hb hu).of_agree
          ((ownedBelow_agree (hentry j hj) hmem (S.self_root hj')).2 u hb hu)
      · refine hrest.imp_of_mem fun {j k} hj hk hdisj => ?_
        rw [hbelow j hj, hbelow k hk]
        exact hdisj
      · rw [hbelow j hj]
        exact S.self_root (List.mem_cons_of_mem i hj)
      · rw [hbelow j hj]
        exact S.other_root (List.mem_cons_of_mem i hj)
    obtain ⟨w', heq', hmem', h'⟩ := ih hl S₁
    refine ⟨w', ?_, ?_, ?_⟩
    · rw [forEach, Op.bind_ok heq]
      exact heq'
    · rw [hmem']
      funext s j
      have hother : w₁.mem other.rootPaddr j = w.mem other.rootPaddr j := by
        rw [hmem _ hne]
      rw [copiedMem, copiedMem, hother, happly]
      by_cases hs : s = self.rootPaddr
      · by_cases hj : j = i
        · subst hj
          simp [hs, hi]
        · simp [hs, hj]
      · simp [hs]
    · have hset : (⋃ j ∈ l, self.ownedBelow w₁.mem j) = ⋃ j ∈ l, self.ownedBelow w.mem j := by
        ext s
        simp only [Set.mem_iUnion]
        exact exists_congr fun j => exists_congr fun hj => by rw [hbelow j hj]
      rw [hset] at h'
      have hsplit : (⋃ j ∈ i :: l, self.ownedBelow w.mem j) =
          self.ownedBelow w.mem i ∪ ⋃ j ∈ l, self.ownedBelow w.mem j := by simp
      have hapart : Disjoint (self.ownedBelow w.mem i) (⋃ j ∈ l, self.ownedBelow w.mem j) := by
        simp only [Set.disjoint_iUnion_right]
        exact hfirst
      have hroots : Disjoint (self.ownedBelow w.mem i) {self.rootPaddr, other.rootPaddr} := by
        rw [Set.disjoint_left]
        rintro s hs (rfl | rfl)
        · exact S.self_root List.mem_cons_self hs
        · exact S.other_root List.mem_cons_self hs
      have hstore : Frees H ∅ {self.rootPaddr, other.rootPaddr} w₀
          { w₁ with mem := w₀.mem } := by
        have h₁ : Frees H ∅ {self.rootPaddr, other.rootPaddr} w₀ (w₀.touch [other.rootPaddr]) :=
          Frees.access (Or.inr rfl) w₀
        have h₂ : Frees H ∅ {self.rootPaddr, other.rootPaddr} (w₀.touch [other.rootPaddr])
            ((w₀.touch [other.rootPaddr]).touch [self.rootPaddr]) := Frees.access (Or.inl rfl) _
        have h := h₁.trans h₂ (Set.empty_disjoint _) (Set.empty_disjoint _)
        rw [Set.empty_union, Set.union_self] at h
        exact h
      have hround := h₀.trans hstore (Set.disjoint_empty _) hroots
      rw [Set.union_empty] at hround
      have hall := hround.trans (h'.withMem w₀.mem) hapart
        (Set.disjoint_union_right.mpr ⟨hroots, hapart⟩)
      rw [hsplit]
      rw [h₀.mem] at hall
      refine hall.mono ?_
      rintro s (((hs | hs) | hs) | (hs | hs))
      · exact Or.inl (Or.inl hs)
      · exact Or.inr (Or.inl hs)
      · exact Or.inl hs
      · exact Or.inl hs
      · exact Or.inr (Or.inr hs)

end Rounds

end PageTableMultiarch
