/-
The elementary steps of one page table in a system of several.

A step of a healthy table reaches its own tables and those lent to it.  It keeps the
ledger right; a table created under a root entry is entered in the ledger, without an
owner if the entry is borrowed.

* `Evolves` — only live frames and new ones change, so what is stale stays so;
* `LedgerInv.step` — an elementary step;
* `LedgerInv.call` — a call of a method.
-/
import PageTableMultiarch.Table64.System

namespace PageTableMultiarch

open GenericPTE Radix MemEvent

variable {B : Build} {M : PagingMetaData} {PTE σ : Type} {H : PagingHandler 64 σ}

/-- Between two states only live frames and newly obtained ones change. -/
def Evolves (w w' : World PTE σ) : Prop :=
  ∃ tr, w'.trace = tr ++ w.trace ∧
    ∀ t, w'.mem t ≠ w.mem t → t ∈ live w.trace ∨ .alloc t ∈ tr

namespace Evolves

variable {w w' : World PTE σ}

theorem of_mem_eq (tr : List (MemEvent PhysAddr)) (hmem : w'.mem = w.mem)
    (htr : w'.trace = tr ++ w.trace) : Evolves w w' :=
  ⟨tr, htr, fun t ht => absurd (by rw [hmem]) ht⟩

end Evolves

/-- Where no frame is obtained twice, a frame obtained before is not obtained again. -/
theorem NoReissue.not_alloc {l tr : List (MemEvent PhysAddr)} (h : NoReissue (tr ++ l))
    {p : PhysAddr} (hp : .alloc p ∈ l) : .alloc p ∉ tr := by
  intro hnew
  have hcount := h p
  rw [List.count_append] at hcount
  have h1 := List.count_pos_iff.mpr hp
  have h2 := List.count_pos_iff.mpr hnew
  omega

theorem NoReissue.of_append {l tr : List (MemEvent PhysAddr)} (h : NoReissue (tr ++ l)) :
    NoReissue l := by
  intro p
  have hcount := h p
  rw [List.count_append] at hcount
  omega

variable [GenericPTE 64 PTE] {inUse : σ → Set PhysAddr} {w w' : World PTE σ}
  {T : Members B M PTE H} {n : ℕ} {L : Ledger} {t : ℕ} {x : Member B M PTE H}

/-- What is stale stays stale. -/
theorem Stale.evolves {u : PhysAddr} (h : Stale M w u) (hev : Evolves w w') : Stale M w' u := by
  obtain ⟨tr, htr, hmem⟩ := hev
  intro hno
  rw [htr] at hno
  have hdead := h hno.of_append
  have hsame : nodes child w'.mem {u} (M.LEVELS - 2) = nodes child w.mem {u} (M.LEVELS - 2) := by
    refine nodes_of_agree fun p hp => ?_
    obtain ⟨hnot, halloc⟩ := hdead p hp
    by_contra hne
    obtain hlive | hnew := hmem p hne
    · exact hnot hlive
    · exact hno.not_alloc halloc hnew
  rw [hsame]
  intro p hp
  obtain ⟨hnot, halloc⟩ := hdead p hp
  rw [htr]
  refine ⟨fun hlive => ?_, List.mem_append_right tr halloc⟩
  obtain hlive | hnew := live_append hlive
  · exact hnot hlive
  · exact hno.not_alloc halloc hnew

/-- Every live frame is a root or a table of the ledger, and every table of the ledger
has an owner. -/
structure LedgerExact (w : World PTE σ) (T : Members B M PTE H) (L : Ledger) : Prop where
  live {p : PhysAddr} : p ∈ live w.trace → (∃ t x, T t = some x ∧ p = x.table.rootPaddr) ∨
    p ∈ nodes child w.mem L.subs (M.LEVELS - 2)
  owned {u : PhysAddr} : u ∈ L.subs → ∃ t, L.owner u = some t

/-- The ledger stays right when the root entries point to the same tables as before. -/
theorem LedgerInv.of_slots (I : LedgerInv inUse w T n L) (hev : Evolves w w')
    (hsafe : Safe w'.trace) (hlive : MemEvent.live w.trace ⊆ MemEvent.live w'.trace)
    (hinUse : MemEvent.live w'.trace ⊆ inUse w'.os)
    (hforest : Forest child w'.mem L.subs (M.LEVELS - 2))
    (hsubs : nodes child w'.mem L.subs (M.LEVELS - 2) ⊆ MemEvent.live w'.trace)
    (hroot : ∀ {t x}, T t = some x →
      x.table.rootPaddr ∉ nodes child w'.mem L.subs (M.LEVELS - 2))
    (hslots : ∀ {t x}, T t = some x → ∀ i,
      child (w'.mem x.table.rootPaddr i) = child (w.mem x.table.rootPaddr i)) :
    LedgerInv inUse w' T n L where
  safe := hsafe
  inUse := hinUse
  forest := hforest
  subs_live := hsubs
  root_live hx := hlive (I.root_live hx)
  root_sub hx := hroot hx
  root_inj := I.root_inj
  owned hx hb hu := I.owned hx hb (by rwa [← hslots hx])
  owner hu ht := by
    obtain ⟨x, hx, hb, hchild⟩ := I.owner hu ht
    exact ⟨x, hx, hb, by rwa [hslots hx]⟩
  borrowed hx hh hb hu := I.borrowed hx hh hb (by rwa [← hslots hx])
  stale hx hb hu := (I.stale hx hb (by rwa [← hslots hx])).imp_right fun h => h.evolves hev
  lent := I.lent
  lt_next := I.lt_next

/-- In particular when all walks are the same. -/
theorem LedgerInv.of_walks (I : LedgerInv inUse w T n L) (w' : World PTE σ) (hev : Evolves w w')
    (hsafe : Safe w'.trace) (hlive : MemEvent.live w'.trace = MemEvent.live w.trace)
    (hinUse : MemEvent.live w.trace ⊆ inUse w'.os)
    (hwalks : ∀ u ∈ L.subs, ∀ π : List (Fin ENTRY_COUNT), π.length ≤ M.LEVELS - 2 →
      resolve child w'.mem u π = resolve child w.mem u π)
    (hslots : ∀ {t x}, T t = some x → ∀ i,
      child (w'.mem x.table.rootPaddr i) = child (w.mem x.table.rootPaddr i)) :
    LedgerInv inUse w' T n L ∧ (LedgerExact w T L → LedgerExact w' T L) := by
  have hnodes := nodes_of_resolve_eq hwalks
  refine ⟨I.of_slots hev hsafe hlive.ge (hlive.le.trans hinUse)
    (I.forest.of_resolve_eq hwalks) ?_ (fun hx => ?_) hslots, fun E => ⟨fun hp => ?_, E.owned⟩⟩
  · rw [hnodes, hlive]
    exact I.subs_live
  · rw [hnodes]
    exact I.root_sub hx
  · rw [hnodes]
    rw [hlive] at hp
    exact E.live hp

/-- The slot at the end of a path lies in the root, or in a table below a root entry. -/
theorem LedgerInv.slot_cases (I : LedgerInv inUse w T n L) (hx : T t = some x)
    (hh : Healthy T x) {ρ : List (Fin ENTRY_COUNT)} {slot : Slot}
    (h : SlotAt w.mem x.table.rootPaddr ρ slot) :
    (ρ = [slot.index] ∧ slot.table = x.table.rootPaddr) ∨
      ∃ u ∈ L.subs, ∃ π : List (Fin ENTRY_COUNT), ρ.length = π.length + 2 ∧
        resolve child w.mem u π = some slot.table := by
  obtain ⟨π, rfl, hs⟩ := h
  obtain ⟨rfl, hroot⟩ | ⟨i, u, π', rfl, hu, hs⟩ := resolve_root_cases hs
  · exact Or.inl ⟨rfl, hroot⟩
  · exact Or.inr ⟨u, (I.slot hx hh hu).1, π', by simp, hs⟩

/-- The root of a table is not a table of the ledger. -/
theorem LedgerInv.ne_root (I : LedgerInv inUse w T n L) (hx : T t = some x) {s : PhysAddr}
    (hs : s ∈ nodes child w.mem L.subs (M.LEVELS - 2)) : x.table.rootPaddr ≠ s :=
  fun hc => I.root_sub hx (hc ▸ hs)

/-- Hanging a new table changes the table it hangs in and itself. -/
theorem World.hang_mem_of_ne {slot : Slot} {p s : PhysAddr} (hps : p ≠ slot.table)
    (hs : s ≠ slot.table) (hsp : s ≠ p) {os : σ} : (w.hang slot p os).mem s = w.mem s := by
  funext j
  have h := attach_apply (m := w.mem) (i := slot.index) (e := newTable p) (z := empty) hps s j
  rwa [if_neg fun h => hs h.1, if_neg hsp] at h

theorem World.hang_evolves {slot : Slot} {p : PhysAddr} (hlive : slot.table ∈ live w.trace)
    (hps : p ≠ slot.table) (os : σ) : Evolves w (w.hang slot p os) := by
  refine ⟨[.access slot.table, .access p, .alloc p], rfl, fun s hs => ?_⟩
  by_cases hsp : s = p
  · exact Or.inr (by simp [hsp])
  · refine Or.inl ?_
    have : s = slot.table := by
      by_contra hne
      exact hs (World.hang_mem_of_ne hps hne hsp)
    exact this ▸ hlive

variable [LawfulPTE M PTE] (hH : FreshFrames M H inUse)

/-- An access of a healthy table. -/
theorem LedgerInv.access (I : LedgerInv inUse w T n L) (hx : T t = some x) (hh : Healthy T x)
    {s : PhysAddr} (hs : s ∈ nodes child w.mem {x.table.rootPaddr} (M.LEVELS - 1)) :
    s ∈ MemEvent.live w.trace := by
  obtain rfl | hs := I.nodes_subset hx hh hs
  · exact I.root_live hx
  · exact I.subs_live hs

/-- A store of a leaf over an entry that is no pointer. -/
theorem LedgerInv.store {P : PTE → Prop} (I : LedgerInv inUse w T n L) (hx : T t = some x)
    (hh : Healthy T x) {ρ : List (Fin ENTRY_COUNT)} {slot : Slot} {e : PTE}
    (h : SlotAt w.mem x.table.rootPaddr ρ slot) (hρ : ρ.length ≤ M.LEVELS)
    (hc : ρ.length = M.LEVELS ∨ child (w.entry slot) = none) (he : LeafEntry P M ρ.length e) :
    LedgerInv inUse (w.store slot e) T n L ∧
      (LedgerExact w T L → LedgerExact (w.store slot e) T L) := by
  have hL := LawfulPTE.levels (M := M) PTE
  have hmem : slot.table ∈ MemEvent.live w.trace :=
    I.access hx hh (h.table_mem (by omega))
  have hev : Evolves w (w.store slot e) := by
    refine ⟨[.access slot.table], rfl, fun s hs => Or.inl ?_⟩
    have : s = slot.table := by
      by_contra hne
      exact hs (set_of_ne hne w.mem slot.index e)
    exact this ▸ hmem
  obtain ⟨rfl, hroot⟩ | ⟨u, hu, π, hlen, hs⟩ := I.slot_cases hx hh h
  · -- a root entry: it points nowhere, before and after
    have hnew : child e = none := he.child_eq_none (by simp only [List.length_singleton]; omega)
    have hold : child (w.mem slot.table slot.index) = none := by
      obtain hc | hc := hc
      · simp only [List.length_singleton] at hc
        omega
      · exact hc
    refine I.of_walks _ hev ⟨hmem, I.safe⟩ rfl I.inUse (fun v hv π hπ => ?_) fun {t' x'} hx' i => ?_
    · refine resolve_of_agree (n := M.LEVELS - 2) hv
        (fun s hs => set_of_ne ?_ w.mem slot.index e) (by omega)
      rw [hroot]
      exact (I.ne_root hx hs).symm
    · rw [World.store_mem, set_apply]
      split
      · next heq => rw [hnew, heq.1, heq.2, hold]
      · rfl
  · -- an entry further down
    have hnode : slot.table ∈ nodes child w.mem L.subs (M.LEVELS - 2) :=
      ⟨u, hu, π, by omega, hs⟩
    refine I.of_walks _ hev ⟨hmem, I.safe⟩ rfl I.inUse ?_ fun {t' x'} hx' i => ?_
    · refine I.forest.resolve_set hu (by omega) hs ?_
      by_cases hlast : ρ.length = M.LEVELS
      · exact Or.inl (by omega)
      · exact Or.inr ((he.child_eq_none hlast).trans (hc.resolve_left hlast).symm)
    · rw [World.store_mem, set_of_ne (I.ne_root hx' hnode)]

include hH

/-- A new table under an entry of a table below the root. -/
theorem LedgerInv.attach_below (I : LedgerInv inUse w T n L) {u : PhysAddr} (hu : u ∈ L.subs)
    {π : List (Fin ENTRY_COUNT)} (hπ : π.length < M.LEVELS - 2) {slot : Slot}
    (hs : resolve child w.mem u π = some slot.table) (hold : w.entry slot = empty) {p : PhysAddr}
    {os : σ} (ha : H.allocFrame w.os = (some p, os)) :
    LedgerInv inUse (w.hang slot p os) T n L ∧
      (LedgerExact w T L → LedgerExact (w.hang slot p os) T L) := by
  have hnode : slot.table ∈ nodes child w.mem L.subs (M.LEVELS - 2) := ⟨u, hu, π, hπ.le, hs⟩
  have hfresh : p ∉ MemEvent.live w.trace := fun hc => hH.fresh ha (I.inUse hc)
  have hp : p ∉ nodes child w.mem L.subs (M.LEVELS - 2) := fun hc => hfresh (I.subs_live hc)
  have hps : p ≠ slot.table := fun hc => hp (hc ▸ hnode)
  have hnone := child_of_entry_eq_empty M hold
  have hnew : child (newTable p : PTE) = some p := child_newTable (hH.valid ha)
  -- the new node is the only one that was not there
  have hnodes : nodes child (w.hang slot p os).mem L.subs (M.LEVELS - 2) =
      insert p (nodes child w.mem L.subs (M.LEVELS - 2)) :=
    I.forest.nodes_attach hu hπ hs hnone hp hnew (child_empty M)
  have hev := World.hang_evolves (I.subs_live hnode) hps os
  have hlive : MemEvent.live (w.hang slot p os).trace = insert p (MemEvent.live w.trace) := rfl
  refine ⟨I.of_slots hev ?_ ?_ ?_ ?_ ?_ ?_ ?_, fun E => ⟨fun hq => ?_, E.owned⟩⟩
  · exact ⟨Or.inr (I.subs_live hnode), Or.inl rfl, hfresh, I.safe⟩
  · rw [hlive]
    exact Set.subset_insert _ _
  · rw [hlive]
    exact (Set.insert_subset_insert I.inUse).trans (hH.alloc ha)
  · exact I.forest.attach hu hπ hs hnone hp hnew (child_empty M)
  · rw [hnodes, hlive]
    exact Set.insert_subset_insert I.subs_live
  · intro t' x' hx'
    rw [hnodes]
    rintro (hc | hc)
    · exact hfresh (hc ▸ I.root_live hx')
    · exact I.root_sub hx' hc
  · intro t' x' hx' i
    rw [World.hang_mem_of_ne hps (I.ne_root hx' hnode) fun hc => hfresh (hc ▸ I.root_live hx')]
  · rw [hnodes]
    obtain rfl | hq := hq
    · exact Or.inr (Or.inl rfl)
    · exact (E.live hq).imp_right Or.inr

/-- The ledger with a new table under a root entry. -/
def Ledger.enter (L : Ledger) (p : PhysAddr) (i : Fin ENTRY_COUNT) (o : Option ℕ) : Ledger :=
  ⟨insert p L.subs, Function.update L.index p i, Function.update L.owner p o⟩

section Enter

variable {p u : PhysAddr} {i : Fin ENTRY_COUNT} {o : Option ℕ}

omit hH

@[simp] theorem Ledger.enter_subs : (L.enter p i o).subs = insert p L.subs := rfl

@[simp] theorem Ledger.enter_index_self : (L.enter p i o).index p = i := by
  simp [Ledger.enter]

@[simp] theorem Ledger.enter_owner_self : (L.enter p i o).owner p = o := by
  simp [Ledger.enter]

theorem Ledger.enter_index_of_ne (h : u ≠ p) : (L.enter p i o).index u = L.index u := by
  simp [Ledger.enter, h]

theorem Ledger.enter_owner_of_ne (h : u ≠ p) : (L.enter p i o).owner u = L.owner u := by
  simp [Ledger.enter, h]

omit [GenericPTE 64 PTE] [LawfulPTE M PTE] in
theorem Ledger.Lends.enter {x : Member B M PTE H} {j : Fin ENTRY_COUNT} (h : L.Lends x j u)
    (hp : p ∉ L.subs) : (L.enter p i o).Lends x j u := by
  have hne : u ≠ p := fun hc => hp (hc ▸ h.sub)
  refine ⟨Or.inr h.sub, ?_, ?_⟩
  · rw [Ledger.enter_index_of_ne hne, h.index]
  · rw [Ledger.enter_owner_of_ne hne]
    exact h.owner

end Enter

/-- A new table under a root entry: it is owned unless the entry is borrowed. -/
theorem LedgerInv.attach_root (I : LedgerInv inUse w T n L) (hx : T t = some x)
    {i : Fin ENTRY_COUNT} (hold : w.entry ⟨x.table.rootPaddr, i⟩ = empty) {p : PhysAddr} {os : σ}
    (ha : H.allocFrame w.os = (some p, os)) :
    LedgerInv inUse (w.hang ⟨x.table.rootPaddr, i⟩ p os) T n
        (L.enter p i (if x.table.borrowedEntries i then none else some t)) ∧
      (x.table.borrowedEntries i = false → LedgerExact w T L →
        LedgerExact (w.hang ⟨x.table.rootPaddr, i⟩ p os) T
          (L.enter p i (if x.table.borrowedEntries i then none else some t))) := by
  set o : Option ℕ := if x.table.borrowedEntries i then none else some t with ho
  set w' := w.hang ⟨x.table.rootPaddr, i⟩ p os with hw'
  have hfresh : p ∉ MemEvent.live w.trace := fun hc => hH.fresh ha (I.inUse hc)
  have hp : p ∉ nodes child w.mem L.subs (M.LEVELS - 2) := fun hc => hfresh (I.subs_live hc)
  have hpsub : p ∉ L.subs := fun hc => hp (mem_nodes_root hc)
  have hpne : ∀ {t x}, T t = some x → x.table.rootPaddr ≠ p := fun hx hc =>
    hfresh (hc ▸ I.root_live hx)
  have hps : p ≠ x.table.rootPaddr := (hpne hx).symm
  have hnone := child_of_entry_eq_empty M hold
  have hnew : child (newTable p : PTE) = some p := child_newTable (hH.valid ha)
  have hmem : ∀ s j, w'.mem s j = if s = x.table.rootPaddr ∧ j = i then newTable p
      else if s = p then empty else w.mem s j := fun s j => attach_apply hps s j
  have hzero : ∀ j, child (w'.mem p j) = none := by
    intro j
    rw [hmem, if_neg fun h => hps h.1, if_pos rfl]
    exact child_empty M
  -- the tables of the ledger are as they were
  have hsame : ∀ s ∈ nodes child w.mem L.subs (M.LEVELS - 2), w'.mem s = w.mem s := fun s hs =>
    World.hang_mem_of_ne hps (I.ne_root hx hs).symm fun hc : s = p => hp (hc ▸ hs)
  have hnodes : nodes child w'.mem L.subs (M.LEVELS - 2) = _ := nodes_of_agree hsame
  have hnodes' : nodes child w'.mem (insert p L.subs) (M.LEVELS - 2) =
      insert p (nodes child w.mem L.subs (M.LEVELS - 2)) := by
    rw [nodes_add_root hzero, hnodes]
  have hforest : Forest child w'.mem (insert p L.subs) (M.LEVELS - 2) :=
    (I.forest.of_agree hsame).add_root hzero (by rwa [hnodes])
  have hev : Evolves w w' := World.hang_evolves (I.root_live hx) hps os
  have hlive : MemEvent.live w'.trace = insert p (MemEvent.live w.trace) := rfl
  -- a root entry is the one written, or it is as it was
  have hslot : ∀ {t' x' j u}, T t' = some x' → child (w'.mem x'.table.rootPaddr j) = some u →
      (t' = t ∧ x' = x ∧ j = i ∧ u = p) ∨ (child (w.mem x'.table.rootPaddr j) = some u) := by
    intro t' x' j u hx' hu
    rw [hmem] at hu
    split at hu
    · next heq =>
      obtain rfl := I.root_inj hx' hx heq.1
      rw [hnew, Option.some_inj] at hu
      rw [hx, Option.some_inj] at hx'
      exact Or.inl ⟨rfl, hx'.symm, heq.2, hu.symm⟩
    · rw [if_neg (hpne hx')] at hu
      exact Or.inr hu
  have hentry : child (w'.mem x.table.rootPaddr i) = some p := by
    rw [hmem, if_pos ⟨rfl, rfl⟩, hnew]
  refine ⟨⟨?_, ?_, hforest, ?_, ?_, ?_, I.root_inj, ?_, ?_, ?_, ?_, I.lent, I.lt_next⟩,
    fun hb E => ⟨fun hq => ?_, fun hu => ?_⟩⟩
  · exact ⟨Or.inr (I.root_live hx), Or.inl rfl, hfresh, I.safe⟩
  · rw [hlive]
    exact (Set.insert_subset_insert I.inUse).trans (hH.alloc ha)
  · rw [Ledger.enter_subs, hnodes', hlive]
    exact Set.insert_subset_insert I.subs_live
  · intro t' x' hx'
    rw [hlive]
    exact Or.inr (I.root_live hx')
  · intro t' x' hx'
    rw [Ledger.enter_subs, hnodes']
    rintro (hc | hc)
    · exact hpne hx' hc
    · exact I.root_sub hx' hc
  · intro t' x' j u hx' hb hu
    obtain ⟨rfl, rfl, rfl, rfl⟩ | hu := hslot hx' hu
    · refine ⟨Or.inl rfl, Ledger.enter_index_self, ?_⟩
      rw [Ledger.enter_owner_self, ho, hb]
      rfl
    · obtain ⟨hsub, hindex, howner⟩ := I.owned hx' hb hu
      have hne : u ≠ p := fun hc => hpsub (hc ▸ hsub)
      exact ⟨Or.inr hsub, (Ledger.enter_index_of_ne hne).trans hindex,
        (Ledger.enter_owner_of_ne hne).trans howner⟩
  · intro u t' hu ht'
    obtain rfl | hu := hu
    · rw [Ledger.enter_owner_self, ho] at ht'
      rw [Ledger.enter_index_self]
      cases hb : x.table.borrowedEntries i with
      | true =>
        rw [hb] at ht'
        exact absurd ht' (by simp)
      | false =>
        rw [hb] at ht'
        obtain rfl : t = t' := by simpa using ht'
        exact ⟨x, hx, hb, hentry⟩
    · have hne : u ≠ p := fun hc => hpsub (hc ▸ hu)
      rw [Ledger.enter_owner_of_ne hne] at ht'
      rw [Ledger.enter_index_of_ne hne]
      obtain ⟨x', hx', hb, hchild⟩ := I.owner hu ht'
      refine ⟨x', hx', hb, ?_⟩
      rw [hmem, if_neg, if_neg (hpne hx'), hchild]
      rintro ⟨hroot, hi⟩
      rw [hroot, hi, hnone] at hchild
      exact absurd hchild (by simp)
  · intro t' x' j u hx' hh' hb hu
    obtain ⟨rfl, rfl, rfl, rfl⟩ | hu := hslot hx' hu
    · refine ⟨Or.inl rfl, Ledger.enter_index_self, Or.inl ?_⟩
      rw [Ledger.enter_owner_self, ho, hb]
      rfl
    · exact (I.borrowed hx' hh' hb hu).enter hpsub
  · intro t' x' j u hx' hb hu
    obtain ⟨rfl, rfl, rfl, rfl⟩ | hu := hslot hx' hu
    · refine Or.inl ⟨Or.inl rfl, Ledger.enter_index_self, Or.inl ?_⟩
      rw [Ledger.enter_owner_self, ho, hb]
      rfl
    · exact (I.stale hx' hb hu).imp (fun h => h.enter hpsub) fun h => h.evolves hev
  · rw [Ledger.enter_subs, hnodes']
    obtain rfl | hq := hq
    · exact Or.inr (Or.inl rfl)
    · exact (E.live hq).imp_right Or.inr
  · obtain rfl | hu := hu
    · exact ⟨t, by rw [Ledger.enter_owner_self, ho, hb]; rfl⟩
    · obtain ⟨t', ht'⟩ := E.owned hu
      have hne : _ ≠ p := fun hc => hpsub (hc ▸ hu)
      exact ⟨t', (Ledger.enter_owner_of_ne hne).trans ht'⟩

/-- An elementary step of a healthy table keeps the ledger right, and exact if it creates
no table under a borrowed root entry. -/
theorem LedgerInv.step {P : PTE → Prop} {A : List (Fin ENTRY_COUNT) → Prop}
    {W : List (Fin ENTRY_COUNT) → PTE → Prop} (hW : ∀ ρ e, W ρ e → LeafEntry P M ρ.length e)
    (I : LedgerInv inUse w T n L) (hx : T t = some x) (hh : Healthy T x)
    (h : Step M H x.table.rootPaddr A W w w') :
    ∃ L', LedgerInv inUse w' T n L' ∧
      ((∀ i, A [i] → x.table.borrowedEntries i = false) → LedgerExact w T L →
        LedgerExact w' T L') := by
  cases h with
  | access s hs =>
    obtain ⟨I', E'⟩ := I.of_walks (w.touch [s]) (.of_mem_eq [.access s] rfl rfl)
      ⟨I.access hx hh hs, I.safe⟩ rfl I.inUse (fun _ _ _ _ => rfl) fun _ _ => rfl
    exact ⟨L, I', fun _ => E'⟩
  | flush fl =>
    obtain ⟨I', E'⟩ := I.of_walks { w with flusher := fl } (.of_mem_eq [] rfl rfl) I.safe rfl
      I.inUse (fun _ _ _ _ => rfl) fun _ _ => rfl
    exact ⟨L, I', fun _ => E'⟩
  | allocFail os ha =>
    obtain ⟨I', E'⟩ := I.of_walks { w with os := os } (.of_mem_eq [] rfl rfl) I.safe rfl
      (I.inUse.trans (hH.alloc_none ha)) (fun _ _ _ _ => rfl) fun _ _ => rfl
    exact ⟨L, I', fun _ => E'⟩
  | store ρ slot e h hρ hc hw =>
    obtain ⟨I', E'⟩ := I.store hx hh h hρ hc (hW ρ e hw)
    exact ⟨L, I', fun _ => E'⟩
  | attach ρ slot p os h hρ hold ha hA =>
    -- a node below the root becomes a subtree of its own, one further down joins its own
    obtain ⟨rfl, hroot⟩ | ⟨u, hu, π, hlen, hs⟩ := I.slot_cases hx hh h
    · obtain ⟨table, i⟩ := slot
      obtain rfl : table = x.table.rootPaddr := hroot
      obtain ⟨I', E'⟩ := I.attach_root hH hx hold ha
      exact ⟨_, I', fun hb => E' (hb i hA)⟩
    · obtain ⟨I', E'⟩ := I.attach_below hH hu (by omega) hs hold ha
      exact ⟨L, I', fun _ => E'⟩

/-- A chain of steps. -/
theorem LedgerInv.steps {P : PTE → Prop} {A : List (Fin ENTRY_COUNT) → Prop}
    {W : List (Fin ENTRY_COUNT) → PTE → Prop} (hW : ∀ ρ e, W ρ e → LeafEntry P M ρ.length e)
    (I : LedgerInv inUse w T n L) (hx : T t = some x) (hh : Healthy T x)
    (h : Steps M H x.table.rootPaddr A W w w') :
    ∃ L', LedgerInv inUse w' T n L' ∧
      ((∀ i, A [i] → x.table.borrowedEntries i = false) → LedgerExact w T L →
        LedgerExact w' T L') := by
  induction h with
  | refl => exact ⟨L, I, fun _ E => E⟩
  | tail _ hstep ih =>
    obtain ⟨L', I', E'⟩ := ih
    obtain ⟨L'', I'', E''⟩ := I'.step hH hW hx hh hstep
    exact ⟨L'', I'', fun hA E => E'' hA (E' hA E)⟩

/-! ### Calls -/

omit hH [LawfulPTE M PTE] in
/-- The elementary steps free nothing. -/
theorem Steps.count_free {root : PhysAddr} {A : List (Fin ENTRY_COUNT) → Prop}
    {W : List (Fin ENTRY_COUNT) → PTE → Prop} (h : Steps M H root A W w w') (p : PhysAddr) :
    w'.trace.count (.free p) = w.trace.count (.free p) := by
  induction h with
  | refl => rfl
  | tail _ hstep ih =>
    rw [← ih]
    cases hstep <;> simp [World.hang]

/-- Mapping a page creates a table under a borrowed root entry: the entry is unused, pages
of this size need a table under it, and there is a frame for it. -/
def PageTable64.Orphans (self : PageTable64 B M PTE H) (v : VirtAddr) (size : PageSize)
    (w : World PTE σ) : Prop :=
  self.borrowedEntries (PageTable64.rootIndex M v) = true ∧
    w.mem self.rootPaddr (PageTable64.rootIndex M v) = empty ∧
    (H.allocFrame w.os).1.isSome = true ∧ size.height + 1 < M.LEVELS

instance [DecidableEq PTE] (self : PageTable64 B M PTE H) (v : VirtAddr) (size : PageSize)
    (w : World PTE σ) : Decidable (self.Orphans v size w) :=
  inferInstanceAs (Decidable (_ ∧ _ ∧ _ ∧ _))

/-- A call maps no page that creates a table under a borrowed root entry. -/
def Call.Tidy (self : PageTable64 B M PTE H) (w : World PTE σ) (c : Call) : Prop :=
  c.EachMap (fun v size w => ¬self.Orphans v size w) self w

/-- A call of a healthy table keeps the ledger right, and exact if it is tidy. -/
theorem LedgerInv.call {P : PTE → Prop} (I : LedgerInv inUse w T n L) (hx : T t = some x)
    (hh : Healthy T x) (c : Call) (hc : c.FlagsIn (Allowed P)) :
    ∃ L', LedgerInv inUse (c.next x.table w) T n L' ∧
      (c.Tidy x.table w → LedgerExact w T L → LedgerExact (c.next x.table w) T L') := by
  have hL := LawfulPTE.levels (M := M) PTE
  have T' := I.tree hx hh
  by_cases htidy : c.Tidy x.table w
  · have hsteps := Call.steps_of_eachMap (P := P) hH x.table
      (A := fun ρ => ∀ i, ρ = [i] → x.table.borrowedEntries i = false) _ ?_ T' c hc htidy
    · obtain ⟨L', I', E'⟩ := I.steps hH (fun _ _ h => h) hx hh hsteps
      exact ⟨L', I', fun _ => E' fun i hi => hi i rfl⟩
    · rintro v size w' _ hno ⟨j, hj, hjL, rfl, hroot⟩ i hi
      -- only a path of one index ends in the root table
      have hlen := length_pathTo hL j v
      rw [hi, List.length_singleton] at hlen
      obtain rfl : j = M.LEVELS - 1 := by omega
      obtain ⟨hempty, halloc⟩ := hroot (by omega)
      rw [pathTo_root hL, List.cons.injEq] at hi
      by_contra hb
      rw [Bool.not_eq_false, ← hi.1] at hb
      exact hno ⟨hb, hempty, halloc, by omega⟩
  · obtain ⟨L', I', -⟩ := I.steps hH (fun _ _ h => h) hx hh (Call.steps hH x.table T' c hc)
    exact ⟨L', I', fun h => absurd h htidy⟩

end PageTableMultiarch
