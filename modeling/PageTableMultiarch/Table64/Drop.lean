/-
Freeing the tables of a tree.

`Frees N U` relates the states before and after a piece of code that frees exactly the
frames `N` and otherwise only accesses frames of `U`; it composes along sequences and
loops over disjoint parts.

* `deallocTreeBelow_spec` — `dealloc_tree` frees exactly the tables of the tree;
* `drop_spec` — dropping a page table frees its root and the subtrees it owns.
-/
import PageTableMultiarch.Table64.Step
import Mathlib.Data.Set.Lattice
import Mathlib.Order.CompletePartialOrder

namespace PageTableMultiarch

open GenericPTE Radix MemEvent

variable {B : Build} {M : PagingMetaData} {PTE σ : Type} {H : PagingHandler 64 σ}

/-- The state after a frame has been given back. -/
def World.release (H : PagingHandler 64 σ) (w : World PTE σ) (t : PhysAddr) : World PTE σ :=
  { w with os := H.deallocFrame w.os t, trace := .free t :: w.trace }

theorem deallocFrame_eq (t : PhysAddr) (w : World PTE σ) :
    deallocFrame H t w = (.ok (), w.release H t) := rfl

/-- From the first state to the second one the frames `N` are freed, and besides them
only frames of `U` are accessed. -/
structure Frees (H : PagingHandler 64 σ) (N U : Set PhysAddr) (w w' : World PTE σ) : Prop where
  mem : w'.mem = w.mem
  os {M : PagingMetaData} {inUse : σ → Set PhysAddr} : FreshFrames M H inUse →
    inUse w.os \ N ⊆ inUse w'.os
  events : ∃ tr, w'.trace = tr ++ w.trace ∧
    ∀ e ∈ tr, (∃ p ∈ U, e = .access p) ∨ ∃ p ∈ N, e = .free p
  safe : Safe w.trace → U ∪ N ⊆ live w.trace →
    Safe w'.trace ∧ live w'.trace = live w.trace \ N

namespace Frees

variable {N N' U U' : Set PhysAddr} {w w' w'' : World PTE σ}

theorem refl (U : Set PhysAddr) (w : World PTE σ) : Frees H ∅ U w w where
  mem := rfl
  os _ := by rw [Set.sdiff_empty]
  events := ⟨[], rfl, fun _ he => absurd he (by simp)⟩
  safe hs _ := ⟨hs, by rw [Set.sdiff_empty]⟩

/-- One access. -/
theorem access {t : PhysAddr} (ht : t ∈ U) (w : World PTE σ) : Frees H ∅ U w (w.touch [t]) where
  mem := rfl
  os _ := by rw [Set.sdiff_empty]; exact subset_rfl
  events := ⟨[.access t], rfl, fun _ he => Or.inl ⟨t, ht, List.mem_singleton.mp he⟩⟩
  safe hs hU := ⟨⟨hU (Or.inl ht), hs⟩, by rw [Set.sdiff_empty]; rfl⟩

/-- One free. -/
theorem free (t : PhysAddr) (w : World PTE σ) :
    Frees H {t} {t} w (w.release H t) where
  mem := rfl
  os hH := hH.dealloc w.os t
  events := ⟨[.free t], rfl, fun _ he => Or.inr ⟨t, rfl, List.mem_singleton.mp he⟩⟩
  safe hs hU := ⟨⟨hU (Or.inl rfl), hs⟩, rfl⟩

/-- What the first part frees, the second part leaves alone. -/
theorem trans (h : Frees H N U w w') (h' : Frees H N' U' w' w'') (hN : Disjoint N N')
    (hU : Disjoint N U') : Frees H (N ∪ N') (U ∪ U') w w'' where
  mem := h'.mem.trans h.mem
  os hH p hp := h'.os hH
    ⟨h.os hH ⟨hp.1, fun hn => hp.2 (Or.inl hn)⟩, fun hn => hp.2 (Or.inr hn)⟩
  events := by
    obtain ⟨tr, htr, hev⟩ := h.events
    obtain ⟨tr', htr', hev'⟩ := h'.events
    refine ⟨tr' ++ tr, by rw [htr', htr, List.append_assoc], fun e he => ?_⟩
    rcases List.mem_append.mp he with he | he
    · rcases hev' e he with ⟨p, hp, heq⟩ | ⟨p, hp, heq⟩
      · exact Or.inl ⟨p, Or.inr hp, heq⟩
      · exact Or.inr ⟨p, Or.inr hp, heq⟩
    · rcases hev e he with ⟨p, hp, heq⟩ | ⟨p, hp, heq⟩
      · exact Or.inl ⟨p, Or.inl hp, heq⟩
      · exact Or.inr ⟨p, Or.inl hp, heq⟩
  safe hs hlive := by
    obtain ⟨hs', hlive'⟩ := h.safe hs fun p hp => hlive (hp.imp Or.inl Or.inl)
    have hrest : U' ∪ N' ⊆ live w'.trace := by
      rw [hlive']
      rintro p (hp | hp)
      · exact ⟨hlive (Or.inl (Or.inr hp)), fun hn => Set.disjoint_left.mp hU hn hp⟩
      · exact ⟨hlive (Or.inr (Or.inr hp)), fun hn => Set.disjoint_left.mp hN hn hp⟩
    obtain ⟨hs'', hlive''⟩ := h'.safe hs' hrest
    exact ⟨hs'', by rw [hlive'', hlive', Set.sdiff_sdiff]⟩

theorem mono (h : Frees H N U w w') (hU : U ⊆ U') : Frees H N U' w w' where
  mem := h.mem
  os := h.os
  events := by
    obtain ⟨tr, htr, hev⟩ := h.events
    exact ⟨tr, htr, fun e he => (hev e he).imp_left fun ⟨p, hp, heq⟩ => ⟨p, hU hp, heq⟩⟩
  safe hs hlive := h.safe hs ((Set.union_subset_union_left N hU).trans hlive)

/-- The contents of memory play no part. -/
theorem withMem (h : Frees H N U w w') (m : PhysAddr → Fin ENTRY_COUNT → PTE) :
    Frees H N U { w with mem := m } { w' with mem := m } where
  mem := rfl
  os := h.os
  events := h.events
  safe := h.safe

/-- Only frames of `N` are freed. -/
theorem count_free (h : Frees H N U w w') {p : PhysAddr} (hp : p ∉ N) :
    w'.trace.count (.free p) = w.trace.count (.free p) := by
  obtain ⟨tr, htr, hev⟩ := h.events
  have hzero : tr.count (.free p) = 0 := by
    refine List.count_eq_zero.mpr fun hmem => ?_
    obtain ⟨q, -, hq⟩ | ⟨q, hqN, hq⟩ := hev _ hmem
    · exact absurd hq (by simp)
    · obtain rfl : p = q := by simpa using hq
      exact hp hqN
  rw [htr, List.count_append, hzero, Nat.zero_add]

/-- A loop over disjoint parts. -/
theorem forEach {ι : Type} {l : List ι} {body : ι → Op (World PTE σ) Unit}
    {part : ι → Set PhysAddr} (hU : ∀ i ∈ l, Disjoint (part i) U)
    (hdisj : l.Pairwise fun i j => Disjoint (part i) (part j))
    (hbody : ∀ i ∈ l, ∀ w₁ : World PTE σ, w₁.mem = w.mem →
      ∃ w₂, body i w₁ = (.ok (), w₂) ∧ Frees H (part i) (U ∪ part i) w₁ w₂) :
    ∃ w', PageTableMultiarch.forEach l body w = (.ok (), w') ∧
      Frees H (⋃ i ∈ l, part i) (U ∪ ⋃ i ∈ l, part i) w w' := by
  induction l generalizing w with
  | nil =>
    refine ⟨w, rfl, ?_⟩
    simpa using refl U w
  | cons i l ih =>
    obtain ⟨w₁, heq, h₁⟩ := hbody i List.mem_cons_self w rfl
    obtain ⟨hi, hl⟩ := List.pairwise_cons.mp hdisj
    obtain ⟨w₂, heq₂, h₂⟩ := ih (w := w₁) (fun j hj => hU j (List.mem_cons_of_mem _ hj)) hl
      fun j hj w₃ hw₃ => hbody j (List.mem_cons_of_mem _ hj) w₃ (hw₃.trans h₁.mem)
    -- what the first call frees is apart from the rest
    have hrest : Disjoint (part i) (⋃ j ∈ l, part j) := by
      simp only [Set.disjoint_iUnion_right]
      exact hi
    refine ⟨w₂, ?_, ?_⟩
    · rw [PageTableMultiarch.forEach, Op.bind_ok heq]
      exact heq₂
    · have h := h₁.trans h₂ hrest
        (Set.disjoint_union_right.mpr ⟨hU i List.mem_cons_self, hrest⟩)
      have hset : (⋃ j ∈ i :: l, part j) = part i ∪ ⋃ j ∈ l, part j := by simp
      rw [hset]
      refine h.mono ?_
      rintro p ((hp | hp) | (hp | hp))
      · exact Or.inl hp
      · exact Or.inr (Or.inl hp)
      · exact Or.inl hp
      · exact Or.inr (Or.inr hp)

end Frees

/-! ### Trees -/

variable [GenericPTE 64 PTE]

/-- The tables below one entry of a table, down to `n` levels. -/
def subtree (m : PhysAddr → Fin ENTRY_COUNT → PTE) (t : PhysAddr) (n : ℕ)
    (i : Fin ENTRY_COUNT) : Set PhysAddr :=
  {s | ∃ u, child (m t i) = some u ∧ s ∈ nodes child m {u} n}

theorem subtree_of_child {m : PhysAddr → Fin ENTRY_COUNT → PTE} {t u : PhysAddr} {n : ℕ}
    {i : Fin ENTRY_COUNT} (h : child (m t i) = some u) :
    subtree m t n i = nodes child m {u} n := by
  ext s
  constructor
  · rintro ⟨u', hu', hs⟩
    rw [h, Option.some_inj] at hu'
    rwa [hu']
  · exact fun hs => ⟨u, h, hs⟩

theorem subtree_of_no_child {m : PhysAddr → Fin ENTRY_COUNT → PTE} {t : PhysAddr} {n : ℕ}
    {i : Fin ENTRY_COUNT} (h : child (m t i) = none) : subtree m t n i = ∅ := by
  ext s
  constructor
  · rintro ⟨u, hu, -⟩
    rw [h] at hu
    exact absurd hu (by simp)
  · exact fun hs => hs.elim

theorem nodes_eq_subtrees (m : PhysAddr → Fin ENTRY_COUNT → PTE) (t : PhysAddr) (n : ℕ) :
    nodes child m {t} (n + 1) = {t} ∪ ⋃ i ∈ entryIndices, subtree m t n i := by
  rw [nodes_succ]
  congr 1
  ext s
  simp only [Set.mem_ofPred_eq, subtree, Set.mem_iUnion, mem_entryIndices, exists_const]

/-- Freeing what is below one entry of a table. -/
theorem deallocEntry_spec {n : ℕ} {t : PhysAddr} {i : Fin ENTRY_COUNT} {w : World PTE σ}
    (hrec : ∀ u, child (w.mem t i) = some u → ∀ w₁ : World PTE σ, w₁.mem = w.mem →
      ∃ w', PageTable64.deallocTreeBelow H n u w₁ = (.ok (), w') ∧
        Frees H (nodes child w.mem {u} n) (nodes child w.mem {u} n) w₁ w') :
    ∃ w', (readEntry ⟨t, i⟩ >>= fun entry : PTE =>
        if (PageTable64.nextTable entry).isOk then
          PageTable64.deallocTreeBelow H n (paddr entry) else pure ()) w = (.ok (), w') ∧
      Frees H (subtree w.mem t n i) ({t} ∪ subtree w.mem t n i) w w' := by
  rw [Op.bind_ok (readEntry_eq _ _)]
  have haccess : Frees H ∅ {t} w (w.touch [t]) := Frees.access (Set.mem_singleton t) w
  have hok : (PageTable64.nextTable (w.mem t i)).isOk = (child (w.mem t i)).isSome :=
    nextTable_isOk _
  rcases hc : child (w.mem t i) with _ | u
  · rw [subtree_of_no_child hc, Set.union_empty]
    rw [hc] at hok
    refine ⟨_, ?_, haccess⟩
    rw [if_neg (by rw [show w.entry ⟨t, i⟩ = w.mem t i from rfl, hok]; simp)]
    rfl
  · obtain ⟨w', heq, h⟩ := hrec u hc (w.touch [t]) rfl
    rw [subtree_of_child hc]
    rw [hc] at hok
    refine ⟨w', ?_, ?_⟩
    · rw [if_pos (by rw [show w.entry ⟨t, i⟩ = w.mem t i from rfl, hok]; rfl),
        show paddr (w.entry ⟨t, i⟩) = u from (child_eq_some.mp hc).2.2]
      exact heq
    · have := haccess.trans h (Set.empty_disjoint _) (Set.empty_disjoint _)
      rwa [Set.empty_union] at this

/-- `dealloc_tree` frees exactly the tables of the tree. -/
theorem deallocTreeBelow_spec {n : ℕ} {t : PhysAddr} {w : World PTE σ}
    (F : Forest child w.mem {t} n) :
    ∃ w', PageTable64.deallocTreeBelow H n t w = (.ok (), w') ∧
      Frees H (nodes child w.mem {t} n) (nodes child w.mem {t} n) w w' := by
  induction n generalizing t w with
  | zero =>
    refine ⟨w.release H t, rfl, ?_⟩
    have hset : nodes child w.mem {t} 0 = {t} := by
      ext s
      constructor
      · rintro ⟨r, rfl, π, hπ, hs⟩
        rw [List.length_eq_zero_iff.mp (Nat.le_zero.mp hπ)] at hs
        exact (Option.some_inj.mp hs).symm
      · rintro rfl
        exact mem_nodes_root rfl
    rw [hset]
    exact Frees.free t w
  | succ n ih =>
    -- the subtrees of the entries are apart from the root and from each other
    have ht : ∀ i, t ∉ subtree w.mem t n i := by
      rintro i ⟨u, hu, hmem⟩
      exact F.root_not_mem hu hmem
    have hdisj : ∀ {i j}, i ≠ j → Disjoint (subtree w.mem t n i) (subtree w.mem t n j) := by
      intro i j hij
      rw [Set.disjoint_left]
      rintro s ⟨u, hu, hsu⟩ ⟨v, hv, hsv⟩
      exact hij (F.child_disjoint hu hv hsu hsv)
    have hbody : ∀ i ∈ entryIndices, ∀ w₁ : World PTE σ, w₁.mem = w.mem →
        ∃ w₂, (readEntry ⟨t, i⟩ >>= fun entry : PTE =>
            if (PageTable64.nextTable entry).isOk then
              PageTable64.deallocTreeBelow H n (paddr entry) else pure ()) w₁ = (.ok (), w₂) ∧
          Frees H (subtree w.mem t n i) ({t} ∪ subtree w.mem t n i) w₁ w₂ := by
      intro i _ w₁ hw₁
      rw [← hw₁]
      refine deallocEntry_spec fun u hu w₂ hw₂ => ?_
      rw [← hw₂]
      exact ih (by rw [hw₂, hw₁]; exact F.child_forest (hw₁ ▸ hu))
    obtain ⟨w', heq, h⟩ := Frees.forEach (fun i _ => Set.disjoint_singleton_right.mpr (ht i))
      (nodup_entryIndices.imp hdisj) hbody
    have hroot : Disjoint (⋃ i ∈ entryIndices, subtree w.mem t n i) {t} := by
      simp only [Set.disjoint_iUnion_left]
      exact fun i _ => Set.disjoint_singleton_right.mpr (ht i)
    -- the node itself comes last
    refine ⟨w'.release H t, ?_, ?_⟩
    · rw [PageTable64.deallocTreeBelow]
      exact (Op.bind_ok heq).trans (deallocFrame_eq t w')
    · have := h.trans (Frees.free t w') hroot hroot
      rw [nodes_eq_subtrees, Set.union_comm {t}]
      refine this.mono ?_
      rintro p ((hp | hp) | hp)
      · exact Or.inr hp
      · exact Or.inl hp
      · exact Or.inr hp

/-- The frames that a page table owns: its root and the subtrees it has not borrowed. -/
def PageTable64.owned (self : PageTable64 B M PTE H) (m : PhysAddr → Fin ENTRY_COUNT → PTE) :
    Set PhysAddr :=
  {self.rootPaddr} ∪ {s | ∃ i, self.borrowedEntries i = false ∧
    s ∈ subtree m self.rootPaddr (M.LEVELS - 2) i}

/-- The subtrees that a page table owns are trees, apart from each other and from the
root. -/
structure OwnsTrees (table : PageTable64 B M PTE H) (m : PhysAddr → Fin ENTRY_COUNT → PTE) :
    Prop where
  forest {i : Fin ENTRY_COUNT} {u : PhysAddr} : table.borrowedEntries i = false →
    child (m table.rootPaddr i) = some u → Forest child m {u} (M.LEVELS - 2)
  disjoint {i j : Fin ENTRY_COUNT} : table.borrowedEntries i = false →
    table.borrowedEntries j = false → i ≠ j →
    Disjoint (subtree m table.rootPaddr (M.LEVELS - 2) i)
      (subtree m table.rootPaddr (M.LEVELS - 2) j)
  root {i : Fin ENTRY_COUNT} : table.borrowedEntries i = false →
    table.rootPaddr ∉ subtree m table.rootPaddr (M.LEVELS - 2) i

/-- The tables below one root entry, if the entry is not borrowed. -/
def PageTable64.ownedBelow (self : PageTable64 B M PTE H)
    (m : PhysAddr → Fin ENTRY_COUNT → PTE) (i : Fin ENTRY_COUNT) : Set PhysAddr :=
  if self.borrowedEntries i then ∅ else subtree m self.rootPaddr (M.LEVELS - 2) i

theorem mem_ownedBelow {self : PageTable64 B M PTE H} {m : PhysAddr → Fin ENTRY_COUNT → PTE}
    {i : Fin ENTRY_COUNT} {s : PhysAddr} : s ∈ self.ownedBelow m i ↔
      self.borrowedEntries i = false ∧ s ∈ subtree m self.rootPaddr (M.LEVELS - 2) i := by
  rw [PageTable64.ownedBelow]
  cases self.borrowedEntries i <;> simp

/-- Freeing what is below a root entry, unless the entry is borrowed. -/
theorem deallocUnborrowed_spec (self : PageTable64 B M PTE H) {i : Fin ENTRY_COUNT}
    {w : World PTE σ} (hforest : self.borrowedEntries i = false → ∀ u,
      child (w.mem self.rootPaddr i) = some u → Forest child w.mem {u} (M.LEVELS - 2)) :
    ∃ w', (if self.borrowedEntries i then pure ()
        else readEntry ⟨self.rootPaddr, i⟩ >>= fun entry : PTE =>
          if (PageTable64.nextTable entry).isOk then
            PageTable64.deallocTree M H (paddr entry) 1 else pure ()) w = (.ok (), w') ∧
      Frees H (self.ownedBelow w.mem i) ({self.rootPaddr} ∪ self.ownedBelow w.mem i) w w' := by
  by_cases hb : self.borrowedEntries i = true
  · rw [if_pos hb, PageTable64.ownedBelow, if_pos hb]
    exact ⟨w, rfl, Frees.refl _ w⟩
  · rw [if_neg hb, PageTable64.ownedBelow, if_neg hb]
    refine deallocEntry_spec fun u hu w₁ hw₁ => ?_
    rw [← hw₁]
    exact deallocTreeBelow_spec (by rw [hw₁]; exact hforest (by simpa using hb) u hu)

theorem OwnsTrees.root_below {table : PageTable64 B M PTE H}
    {m : PhysAddr → Fin ENTRY_COUNT → PTE} (hown : OwnsTrees table m) (i : Fin ENTRY_COUNT) :
    table.rootPaddr ∉ table.ownedBelow m i := by
  rw [mem_ownedBelow]
  exact fun h => hown.root h.1 h.2

theorem OwnsTrees.disjoint_below {table : PageTable64 B M PTE H}
    {m : PhysAddr → Fin ENTRY_COUNT → PTE} (hown : OwnsTrees table m) {i j : Fin ENTRY_COUNT}
    (hij : i ≠ j) : Disjoint (table.ownedBelow m i) (table.ownedBelow m j) := by
  rw [Set.disjoint_left]
  intro s hi hj
  obtain ⟨hbi, hi⟩ := mem_ownedBelow.mp hi
  obtain ⟨hbj, hj⟩ := mem_ownedBelow.mp hj
  exact Set.disjoint_left.mp (hown.disjoint hbi hbj hij) hi hj

/-- Dropping a page table frees exactly what it owns. -/
theorem drop_spec (self : PageTable64 B M PTE H) {w : World PTE σ} (hown : OwnsTrees self w.mem) :
    ∃ w', self.drop w = (.ok (), w') ∧ Frees H (self.owned w.mem) (self.owned w.mem) w w' := by
  have hroot : ∀ i, Disjoint (self.ownedBelow w.mem i) {self.rootPaddr} := fun i =>
    Set.disjoint_singleton_right.mpr (hown.root_below i)
  have hbody : ∀ i ∈ entryIndices, ∀ w₁ : World PTE σ, w₁.mem = w.mem →
      ∃ w₂, (if self.borrowedEntries i then pure ()
          else readEntry ⟨self.rootPaddr, i⟩ >>= fun entry : PTE =>
            if (PageTable64.nextTable entry).isOk then
              PageTable64.deallocTree M H (paddr entry) 1 else pure ()) w₁ = (.ok (), w₂) ∧
        Frees H (self.ownedBelow w.mem i) ({self.rootPaddr} ∪ self.ownedBelow w.mem i) w₁ w₂ := by
    intro i _ w₁ hw₁
    rw [← hw₁]
    refine deallocUnborrowed_spec self fun hb u hu => ?_
    rw [hw₁] at hu ⊢
    exact hown.forest hb hu
  obtain ⟨w', heq, h⟩ := Frees.forEach (fun i _ => hroot i)
    (nodup_entryIndices.imp hown.disjoint_below) hbody
  have hall : Disjoint (⋃ i ∈ entryIndices, self.ownedBelow w.mem i) {self.rootPaddr} := by
    simp only [Set.disjoint_iUnion_left]
    exact fun i _ => hroot i
  -- what the table owns: its root, and what is below the entries it did not borrow
  have hset : (⋃ i ∈ entryIndices, self.ownedBelow w.mem i) ∪ {self.rootPaddr} =
      self.owned w.mem := by
    rw [Set.union_comm, PageTable64.owned]
    congr 1
    ext s
    simp only [Set.mem_iUnion, mem_entryIndices, exists_const, Set.mem_ofPred_eq, mem_ownedBelow]
  refine ⟨w'.release H self.rootPaddr, ?_, ?_⟩
  · rw [PageTable64.drop]
    exact (Op.bind_ok heq).trans (deallocFrame_eq self.rootPaddr w')
  · have := h.trans (Frees.free self.rootPaddr w') hall hall
    rw [hset] at this
    refine this.mono ?_
    rw [← hset]
    rintro p ((hp | hp) | hp)
    · exact Or.inr hp
    · exact Or.inl hp
    · exact Or.inr hp

end PageTableMultiarch
