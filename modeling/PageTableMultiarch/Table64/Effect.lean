/-
What the methods of `PageTable64` do to the leaves.

In a state that satisfies `Inv`, a walk fails only at an unused entry.  So `query`
answers by the leaf of the address (`query_leaf`), `unmap`, `protect` and `remap` act on
the page of that leaf (`unmap_leaf`, `protect_leaf`, `remap_leaf`), and a successful `map`
adds a leaf where there was none (`map_leaf`).
-/
import PageTableMultiarch.Table64.Create

namespace PageTableMultiarch

open GenericPTE Radix

variable {B : Build} {M : PagingMetaData} {PTE σ : Type} {H : PagingHandler 64 σ}
  [GenericPTE 64 PTE] [LawfulPTE M PTE] {P : PTE → Prop} {inUse : σ → Set PhysAddr}
  {w : World PTE σ}

/-- The flags that may be given to `new_page` and `set_flags` where all leaves satisfy `P`. -/
structure Allowed (P : PTE → Prop) (f : MappingFlags 64) : Prop where
  accepted : debugAssert PTE f = true
  newPage (p : PhysAddr) (h : Bool) : P (newPage p f h)
  setFlags (e : PTE) (h : Bool) : P (setFlags e f h)

omit [LawfulPTE M PTE] in
theorem allowed_true {f : MappingFlags 64} (hf : debugAssert PTE f = true) :
    Allowed (fun _ : PTE => True) f := ⟨hf, fun _ _ => trivial, fun _ _ => trivial⟩

/-- With readable pages only, every leaf is present. -/
theorem allowed_read (M : PagingMetaData) [LawfulPTE M PTE] {f : MappingFlags 64}
    (hf : f.contains .READ = true) : Allowed (fun e : PTE => isPresent e = true) f where
  accepted := LawfulPTE.read_accepted M hf
  newPage p h := (LawfulPTE.isPresent_newPage M p f h).trans (LawfulPTE.presentWith_read M hf)
  setFlags e h := (LawfulPTE.isPresent_setFlags M e f h).trans (LawfulPTE.presentWith_read M hf)

/-- The entry that `protect` and `remap` store. -/
theorem setFlags_leafEntry {f : MappingFlags 64} (hf : Allowed P f) (e : PTE) {k : ℕ}
    (hk : k ≤ 2) : LeafEntry P M (M.LEVELS - k) (setFlags e f (heightSize k).isHuge) := by
  have hL := LawfulPTE.levels (M := M) PTE
  refine Or.inr ⟨hf.setFlags e _, ?_⟩
  rcases Nat.eq_zero_or_pos k with rfl | hk0
  · exact Or.inl rfl
  · refine Or.inr ⟨?_, by omega⟩
    rw [isHuge_heightSize, decide_eq_true hk0]
    exact LawfulPTE.isHuge_setFlags M e hf.accepted

/-- The entry that `map` stores. -/
theorem newPage_leafEntry {f : MappingFlags 64} (hf : Allowed P f) (p : PhysAddr)
    (size : PageSize) : LeafEntry P M (M.LEVELS - size.height) (newPage p f size.isHuge) := by
  have hL := LawfulPTE.levels (M := M) PTE
  have hheight := size.height_le
  refine Or.inr ⟨hf.newPage p _, ?_⟩
  rcases Nat.eq_zero_or_pos size.height with h0 | h0
  · exact Or.inl (by omega)
  · refine Or.inr ⟨?_, by omega⟩
    rw [show size.isHuge = true by cases size <;> first | rfl | exact absurd h0 (by decide)]
    exact LawfulPTE.isHuge_newPage M p hf.accepted

/-- The address read back from the entry that `map` stores. -/
theorem paddr_alignDown {target : PhysAddr} (ht : target.toNat ≤ M.PA_MAX_ADDR) (size : PageSize)
    (f : MappingFlags 64) (h : Bool) :
    paddr (newPage (MemoryAddr.alignDown target (size.toUsize 64)) f h : PTE) =
      MemoryAddr.alignDown target (size.toUsize 64) := by
  have hdown := PageSize.toNat_alignDown (by decide) size target
  have hdvd := size.four_k_dvd_bytes
  rw [LawfulPTE.paddr_newPage (M := M) f h (by omega)]
  apply BitVec.eq_of_toNat_eq
  rw [PageSize.toNat_alignDown (by decide), hdown]
  have hmod : (target.toNat - target.toNat % size.bytes) % PageSize.size4K.bytes = 0 := by
    obtain ⟨c, hc⟩ := hdvd
    have hsub : target.toNat - target.toNat % size.bytes =
        size.bytes * (target.toNat / size.bytes) := by
      have := Nat.div_add_mod target.toNat size.bytes
      omega
    rw [hsub, hc, Nat.mul_assoc]
    exact Nat.mul_mod_right _ _
  rw [hmod, Nat.sub_zero]

/-! ### Walks in a well-formed table -/

/-- A walk fails only at an unused entry above the last level, which is not taken for a
huge page. -/
theorem Inv.seek_error {root : PhysAddr} (I : Inv P M inUse root w) {v : VirtAddr}
    {e : PagingError} (h : seek w.mem root (vpath M v) = .error e) :
    e = .notMapped ∧ ∃ j slot, 0 < j ∧ j < M.LEVELS ∧ SlotAt w.mem root (pathTo M j v) slot ∧
      w.entry slot = empty ∧ (j ≤ 2 → isHuge (empty : PTE) = false) := by
  have hL := LawfulPTE.levels (M := M) PTE
  have hne : vpath M v ≠ [] := by
    have := length_vpath hL v
    intro hc
    rw [hc, List.length_nil] at this
    omega
  obtain ⟨ρ, i, τ, s, hsplit, hτ, hs, hn, hh⟩ := seek_eq_error hne h
  have hlen := congrArg List.length hsplit
  rw [length_vpath hL, List.length_append, List.length_cons] at hlen
  have hτpos := List.length_pos_iff.mpr hτ
  have hslot : SlotAt w.mem root (ρ ++ [i]) ⟨s, i⟩ := ⟨ρ, rfl, hs⟩
  have hpath : pathTo M τ.length v = ρ ++ [i] := by
    rw [pathTo, hsplit, List.append_cons, List.take_left']
    rw [List.length_append, List.length_singleton]
    omega
  have hρlen : (ρ ++ [i]).length = M.LEVELS - τ.length := by rw [← hpath, length_pathTo hL]
  have hempty : w.entry ⟨s, i⟩ = empty := by
    -- a table would have been entered, and a page ends the descent
    rcases I.entries hslot (by omega) with ⟨-, p, hp, he⟩ | he | ⟨-, he | ⟨he, hle⟩⟩
    · rw [show w.mem s i = newTable p from he, nextTable_of_child (child_newTable hp)] at hn
      exact absurd hn (by simp)
    · exact he
    · omega
    · exact absurd he (by rw [show isHuge (w.entry ⟨s, i⟩) = false from hh (by omega)]; simp)
  refine ⟨?_, τ.length, ⟨s, i⟩, hτpos, by omega, hpath ▸ hslot, hempty, fun hle => ?_⟩
  · rw [show w.mem s i = empty from hempty, PageTable64.nextTable,
      if_pos (by simp [LawfulPTE.paddr_empty M])] at hn
    simpa using hn.symm
  · rw [← hempty]
    exact hh hle

omit [LawfulPTE M PTE] in
/-- The leaf of an address is the entry that the walk finds, if it is present. -/
theorem leafAt_of_seek {root : PhysAddr} {v : VirtAddr} {slot : Slot} {k : ℕ}
    (h : seek w.mem root (vpath M v) = .ok (slot, k)) :
    leafAt M w.mem root v =
      if isPresent (w.entry slot) = true then some (w.entry slot, k) else none :=
  leaf_of_seek_ok h

theorem leafAt_height_le {root : PhysAddr} {v : VirtAddr} {e : PTE} {k : ℕ}
    (h : leafAt M w.mem root v = some (e, k)) : k ≤ 2 := by
  obtain ⟨slot, hs, -, -⟩ := leaf_eq_some h
  exact (slotAt_of_seek (LawfulPTE.levels PTE) hs).2.1

/-- A store at the entry of height `k` on the path of an address. -/
theorem Inv.leafAt_store {root : PhysAddr} (I : Inv P M inUse root w) {v : VirtAddr} {slot : Slot}
    {k : ℕ} (hk : k ≤ 2) (h : SlotAt w.mem root (pathTo M k v) slot) {Q : PTE → Prop} {e : PTE}
    (he : LeafEntry Q M (M.LEVELS - k) e) (v' : VirtAddr) :
    leafAt M (w.store slot e).mem root v' =
      if SamePage M k v v' then if isPresent e = true then some (e, k) else none
      else leafAt M w.mem root v' := by
  have hL := LawfulPTE.levels (M := M) PTE
  have hchild : k = 0 ∨ child e = none := by
    rcases Nat.eq_zero_or_pos k with hk0 | hk0
    · exact Or.inl hk0
    · exact Or.inr (he.child_eq_none (by omega))
  rw [World.store_mem, leafAt_set hL I.forest hk h hchild]
  rcases he with rfl | ⟨-, he⟩
  · rw [LawfulPTE.isPresent_empty M]
    simp
  · have hhuge : k = 0 ∨ isHuge e = true := he.imp (by omega) fun h => h.1
    simp only [hhuge, and_true]

/-- A store at the entry that the walk finds. -/
theorem Inv.leafAt_store_found {root : PhysAddr} (I : Inv P M inUse root w) {v : VirtAddr}
    {slot : Slot} {k : ℕ} (h : seek w.mem root (vpath M v) = .ok (slot, k)) {Q : PTE → Prop}
    {e : PTE} (he : LeafEntry Q M (M.LEVELS - k) e) (v' : VirtAddr) :
    leafAt M (w.store slot e).mem root v' =
      if SamePage M k v v' then if isPresent e = true then some (e, k) else none
      else leafAt M w.mem root v' := by
  obtain ⟨hslot, hk, -⟩ := slotAt_of_seek (LawfulPTE.levels PTE) h
  exact I.leafAt_store hk hslot he v'

/-- The addresses of the page that the walk finds have the same leaf. -/
theorem leafAt_samePage {root : PhysAddr} {v v' : VirtAddr} {slot : Slot} {k : ℕ}
    (h : seek w.mem root (vpath M v) = .ok (slot, k)) (hs : SamePage M k v v') :
    leafAt M w.mem root v' = leafAt M w.mem root v := by
  have hL := LawfulPTE.levels (M := M) PTE
  obtain ⟨hslot, hk, hh⟩ := slotAt_of_seek hL h
  have hchild : k = 0 ∨ child (w.mem slot.table slot.index) = none := by
    rcases Nat.eq_zero_or_pos k with hk0 | hk0
    · exact Or.inl hk0
    · exact Or.inr (child_of_isHuge (hh hk0))
  rw [hslot.leafAt_samePage hL hk hchild hs, hslot.leafAt_samePage hL hk hchild (.refl k v)]

/-! ### The methods -/

section Methods

variable (self : PageTable64 B M PTE H) (I : Inv P M inUse self.rootPaddr w) {v : VirtAddr}
  {e : PTE} {k : ℕ}
include I

/-- `query` answers by the leaf of the address. -/
theorem query_leaf (v : VirtAddr) :
    (self.query v w).1 = match leafAt M w.mem self.rootPaddr v with
      | some (e, k) => .ok (paddr e + (heightSize k).alignOffset v, flags e, heightSize k)
      | none => .err .notMapped := by
  obtain ⟨acc, -, heq⟩ := query_apply (LawfulPTE.levels PTE) self v w
  rw [heq]
  rcases hs : seek w.mem self.rootPaddr (vpath M v) with e | ⟨slot, k⟩
  · obtain ⟨rfl, -⟩ := I.seek_error hs
    rw [leafAt, leaf_of_seek_error hs]
  · rw [leafAt_of_seek hs]
    by_cases hp : isPresent (w.entry slot) = true
    · simp only [hp, if_true]
    · simp only [hp, if_false, Bool.false_eq_true]

/-- `unmap` removes the leaf of the address and returns what it held. -/
theorem unmap_leaf (h : leafAt M w.mem self.rootPaddr v = some (e, k)) :
    (self.unmap v w).1 = .ok (paddr e, flags e, heightSize k) ∧
      ∀ v', leafAt M (self.unmap v w).2.mem self.rootPaddr v' =
        if SamePage M k v v' then none else leafAt M w.mem self.rootPaddr v' := by
  obtain ⟨slot, hs, rfl, hp⟩ := leaf_eq_some h
  obtain ⟨acc, -, heq⟩ := unmap_apply (LawfulPTE.levels PTE) self v w
  have hp' : isPresent (w.entry slot) = true := hp
  simp only [hs, hp', if_true, LawfulPTE.clear_eq M] at heq
  rw [heq]
  refine ⟨rfl, fun v' => (I.leafAt_store_found hs (Or.inl rfl : LeafEntry P M _ empty) v').trans ?_⟩
  rw [LawfulPTE.isPresent_empty M]
  rfl

theorem unmap_no_leaf (h : leafAt M w.mem self.rootPaddr v = none) :
    (self.unmap v w).1 = .err .notMapped ∧
      ∀ v', leafAt M (self.unmap v w).2.mem self.rootPaddr v' =
        leafAt M w.mem self.rootPaddr v' := by
  obtain ⟨acc, -, heq⟩ := unmap_apply (LawfulPTE.levels PTE) self v w
  rcases hs : seek w.mem self.rootPaddr (vpath M v) with e | ⟨slot, k⟩
  · obtain ⟨rfl, -⟩ := I.seek_error hs
    simp only [hs] at heq
    rw [heq]
    exact ⟨rfl, fun _ => rfl⟩
  · rw [leafAt_of_seek hs] at h
    have hp : isPresent (w.entry slot) = false := by
      by_contra hc
      rw [if_pos (by simpa using hc)] at h
      exact absurd h (by simp)
    simp only [hs, hp, if_false, Bool.false_eq_true, LawfulPTE.clear_eq M] at heq
    rw [heq]
    -- the entry cleared was not present, so no address of its page had a leaf
    refine ⟨rfl, fun v' => ?_⟩
    refine (I.leafAt_store_found hs (Or.inl rfl : LeafEntry P M _ empty) v').trans ?_
    split
    · next hsame =>
      rw [leafAt_samePage hs hsame, leafAt_of_seek hs, hp, LawfulPTE.isPresent_empty M]
      rfl
    · rfl

/-- `protect` changes the flags of the leaf of the address. -/
theorem protect_leaf {f : MappingFlags 64} (hf : debugAssert PTE f = true)
    (h : leafAt M w.mem self.rootPaddr v = some (e, k)) :
    (self.protect v f w).1 = .ok (heightSize k) ∧
      ∀ v', leafAt M (self.protect v f w).2.mem self.rootPaddr v' =
        if SamePage M k v v' then
          if presentWith PTE f then some (setFlags e f (heightSize k).isHuge, k) else none
        else leafAt M w.mem self.rootPaddr v' := by
  have hL := LawfulPTE.levels (M := M) PTE
  obtain ⟨slot, hs, rfl, hp⟩ := leaf_eq_some h
  obtain ⟨acc, -, heq⟩ := protect_apply_of_accepted hL self v w hf
  have hp' : isPresent (w.entry slot) = true := hp
  simp only [hs, hp', if_true] at heq
  rw [heq]
  have hleaf := setFlags_leafEntry (M := M) (allowed_true hf) (w.entry slot)
    (slotAt_of_seek hL hs).2.1
  refine ⟨rfl, fun v' => (I.leafAt_store_found hs hleaf v').trans ?_⟩
  rw [LawfulPTE.isPresent_setFlags M]
  rfl

theorem protect_no_leaf {f : MappingFlags 64} (hf : debugAssert PTE f = true)
    (h : leafAt M w.mem self.rootPaddr v = none) :
    (self.protect v f w).1 = .err .notMapped ∧ (self.protect v f w).2.mem = w.mem := by
  obtain ⟨acc, -, heq⟩ := protect_apply_of_accepted (LawfulPTE.levels PTE) self v w hf
  rcases hs : seek w.mem self.rootPaddr (vpath M v) with e | ⟨slot, k⟩
  · obtain ⟨rfl, -⟩ := I.seek_error hs
    simp only [hs] at heq
    rw [heq]
    exact ⟨rfl, rfl⟩
  · rw [leafAt_of_seek hs] at h
    have hp : isPresent (w.entry slot) = false := by
      by_contra hc
      rw [if_pos (by simpa using hc)] at h
      exact absurd h (by simp)
    simp only [hs, hp, if_false, Bool.false_eq_true] at heq
    rw [heq]
    exact ⟨rfl, rfl⟩

/-- `remap` changes the address and the flags of the leaf of the address. -/
theorem remap_leaf {f : MappingFlags 64} (hf : debugAssert PTE f = true) (target : PhysAddr)
    (h : leafAt M w.mem self.rootPaddr v = some (e, k)) :
    (self.remap v target f w).1 = .ok (heightSize k) ∧
      ∀ v', leafAt M (self.remap v target f w).2.mem self.rootPaddr v' =
        if SamePage M k v v' then
          if presentWith PTE f then
            some (setFlags (setPaddr e target) f (heightSize k).isHuge, k)
          else none
        else leafAt M w.mem self.rootPaddr v' := by
  have hL := LawfulPTE.levels (M := M) PTE
  obtain ⟨slot, hs, rfl, -⟩ := leaf_eq_some h
  obtain ⟨acc, -, heq⟩ := remap_apply_of_accepted hL self v w hf target
  simp only [hs] at heq
  rw [heq]
  have hleaf := setFlags_leafEntry (M := M) (allowed_true hf) (setPaddr (w.entry slot) target)
    (slotAt_of_seek hL hs).2.1
  refine ⟨rfl, fun v' => (I.leafAt_store_found hs hleaf v').trans ?_⟩
  rw [LawfulPTE.isPresent_setFlags M]
  rfl

/-- A failed `map` changes no leaf; a successful one adds the leaf of its page, where
there was none. -/
theorem map_leaf (hH : FreshFrames M H inUse) (target : PhysAddr) (size : PageSize)
    {f : MappingFlags 64} (hf : debugAssert PTE f = true) (v : VirtAddr) :
    ((∃ err, (self.map v target size f w).1 = .err err) ∧
      ∀ v', leafAt M (self.map v target size f w).2.mem self.rootPaddr v' =
        leafAt M w.mem self.rootPaddr v') ∨
    ((self.map v target size f w).1 = .ok () ∧
      (∀ v', SamePage M size.height v v' → leafAt M w.mem self.rootPaddr v' = none) ∧
      ∀ v', leafAt M (self.map v target size f w).2.mem self.rootPaddr v' =
        if SamePage M size.height v v' then
          if presentWith PTE f then
            some (newPage (MemoryAddr.alignDown target (size.toUsize 64)) f size.isHuge,
              size.height)
          else none
        else leafAt M w.mem self.rootPaddr v') := by
  have hL := LawfulPTE.levels (M := M) PTE
  obtain ⟨w', hgrow, ⟨err, heq, -⟩ | ⟨slot, hslot, hold, heq⟩⟩ :=
    map_spec hH self v target size hf I.toTree
  · rw [heq]
    exact Or.inl ⟨⟨err, rfl⟩, hgrow.leafAt hH I.toTree⟩
  · rw [heq]
    have I' := hgrow.inv hH I
    have hheight := size.height_le
    have hnone : child (w'.mem slot.table slot.index) = none := by
      rw [show w'.mem slot.table slot.index = empty from hold]
      exact child_empty M
    set page : PTE := newPage (MemoryAddr.alignDown target (size.toUsize 64)) f size.isHuge
    have hleaf : LeafEntry _ M (M.LEVELS - size.height) page :=
      newPage_leafEntry (allowed_true hf) _ size
    refine Or.inr ⟨rfl, fun v' hs => ?_, fun v' => ?_⟩
    · -- the page was under an unused entry
      rw [← hgrow.leafAt hH I.toTree v', hslot.leafAt_samePage hL hheight (Or.inr hnone) hs,
        show w'.mem slot.table slot.index = empty from hold, LawfulPTE.isPresent_empty M]
      simp
    · rw [← hgrow.leafAt hH I.toTree v', ← LawfulPTE.isPresent_newPage M]
      exact I'.leafAt_store hheight hslot hleaf v'

end Methods

end PageTableMultiarch
