/-
The shape of a page table.

A `PageTree` says of every path of indices whether it leads to an unused entry, to a
table or to a page, without saying in which frames the tables lie.  The methods have
counterparts on page trees, which ask an allocator for frames and only learn whether
it has one.  Which entries stand for a page is left to a predicate `fits`.

* `Describes` — a page tree describes a page table in memory;
* `Describes.enter`, `Describes.map` — the walk that creates tables, and `map`, do to the
  page table what they do to the page tree, and return the same.
-/
import PageTableMultiarch.Table64.Run
import PageTableMultiarch.Corres

namespace PageTableMultiarch

open GenericPTE Radix

variable {B : Build} {M : PagingMetaData} {PTE σ : Type} {H : PagingHandler 64 σ}

/-! ### The model -/

/-- What a path leads to.  A page has a frame, and it is known whether its flags have
`READ`. -/
inductive Node where
  | unused
  | table
  | page (frame : PhysAddr) (readable : Bool)
  deriving DecidableEq

/-- What all paths lead to, and how many frames have been asked for. -/
structure PageTree where
  node : List (Fin ENTRY_COUNT) → Node
  requests : ℕ

namespace PageTree

/-- The tree with another node at the end of a path. -/
def set (S : PageTree) (ρ : List (Fin ENTRY_COUNT)) (x : Node) : PageTree :=
  { S with node := Function.update S.node ρ x }

/-- Step into the table at the end of a path, which is created if there is nothing. -/
def enter (grants : ℕ → Bool) (ρ : List (Fin ENTRY_COUNT)) : Op PageTree Unit := fun S =>
  match S.node ρ with
  | .unused =>
    if grants S.requests then (.ok (), { S.set ρ .table with requests := S.requests + 1 })
    else (.err .noMemory, { S with requests := S.requests + 1 })
  | .table => (.ok (), S)
  | .page p _ => (.err (if p = 0 then .notMapped else .mappedToHugePage), S)

/-- Step through `n` tables on the way to the node of height `k`. -/
def createTo (grants : ℕ → Bool) (M : PagingMetaData) (v : VirtAddr) (k : ℕ) :
    ℕ → Op PageTree Unit
  | 0 => pure ()
  | n + 1 => do
    enter grants (pathTo M (k + n + 1) v)
    createTo grants M v k n

/-- Put a page at the end of a path, if there is nothing. -/
def place (ρ : List (Fin ENTRY_COUNT)) (x : Node) : Op PageTree Unit := fun S =>
  match S.node ρ with
  | .unused => (.ok (), S.set ρ x)
  | _ => (.err .alreadyMapped, S)

def map (grants : ℕ → Bool) (M : PagingMetaData) (v : VirtAddr) (target : PhysAddr)
    (size : PageSize) (f : MappingFlags 64) : Op PageTree Unit := do
  createTo grants M v size.height (M.LEVELS - 1 - size.height)
  place (pathTo M size.height v)
    (.page (MemoryAddr.alignDown target (size.toUsize 64)) (f.contains .READ))

/-- The page on the path of an address, with its height. -/
def find (M : PagingMetaData) (v : VirtAddr) (S : PageTree) : Option (ℕ × PhysAddr × Bool) :=
  [2, 1, 0].findSome? fun k =>
    match S.node (pathTo M k v) with
    | .page p r => some (k, p, r)
    | _ => none

def query (M : PagingMetaData) (v : VirtAddr) : Op PageTree (PhysAddr × PageSize) := fun S =>
  match S.find M v with
  | some (k, p, _) => (.ok (p + (heightSize k).alignOffset v, heightSize k), S)
  | none => (.err .notMapped, S)

def protect (M : PagingMetaData) (v : VirtAddr) (f : MappingFlags 64) : Op PageTree PageSize :=
  fun S =>
    match S.find M v with
    | some (k, p, _) =>
      (.ok (heightSize k), S.set (pathTo M k v) (.page p (f.contains .READ)))
    | none => (.err .notMapped, S)

def unmap (M : PagingMetaData) (v : VirtAddr) : Op PageTree (PhysAddr × PageSize) := fun S =>
  match S.find M v with
  | some (k, p, _) => (.ok (p, heightSize k), S.set (pathTo M k v) .unused)
  | none => (.err .notMapped, S)

@[simp] theorem set_node_self (S : PageTree) (ρ : List (Fin ENTRY_COUNT)) (x : Node) :
    (S.set ρ x).node ρ = x := by
  simp [set]

theorem set_node_of_ne (S : PageTree) {ρ ρ' : List (Fin ENTRY_COUNT)} (h : ρ' ≠ ρ) (x : Node) :
    (S.set ρ x).node ρ' = S.node ρ' := by
  simp [set, h]

theorem set_eq_self {S : PageTree} {ρ : List (Fin ENTRY_COUNT)} {x : Node} (h : S.node ρ = x) :
    S.set ρ x = S := by
  rw [set, ← h, Function.update_eq_self]

@[simp] theorem set_requests (S : PageTree) (ρ : List (Fin ENTRY_COUNT)) (x : Node) :
    (S.set ρ x).requests = S.requests := rfl

end PageTree

/-! ### The allocator -/

/-- The state of the operating system after `n` calls of `alloc_frame`. -/
def allocState (H : PagingHandler 64 σ) (s₀ : σ) (n : ℕ) : σ :=
  (fun s => (H.allocFrame s).2)^[n] s₀

/-- Whether the call of `alloc_frame` after `n` others succeeds. -/
def grants (H : PagingHandler 64 σ) (s₀ : σ) (n : ℕ) : Bool :=
  (H.allocFrame (allocState H s₀ n)).1.isSome

theorem allocState_succ (s₀ : σ) (n : ℕ) :
    allocState H s₀ (n + 1) = (H.allocFrame (allocState H s₀ n)).2 :=
  Function.iterate_succ_apply' _ n s₀

/-! ### Description -/

variable [GenericPTE 64 PTE] {fits : Bool → PTE → Prop} {root : PhysAddr}
  {inUse : σ → Set PhysAddr} {s₀ : σ} {S : PageTree} {w : World PTE σ}

/-- The entry reached by a path of `len` indices, if there is one, is what the node says. -/
def Node.Matches (fits : Bool → PTE → Prop) (M : PagingMetaData) (len : ℕ) :
    Node → Option PTE → Prop
  | .unused, e => ∀ x ∈ e, x = empty
  | .table, e => len < M.LEVELS ∧ ∃ p, ValidFrame M p ∧ e = some (newTable p)
  | .page p r, e => ∃ x, e = some x ∧ fits r x ∧ paddr x = p ∧
    (len = M.LEVELS ∨ isHuge x = true ∧ M.LEVELS ≤ len + 2)

/-- The tree says what every path leads to, and the operating system has been asked for
the frames counted and for nothing else. -/
structure Describes (fits : Bool → PTE → Prop) (M : PagingMetaData) (H : PagingHandler 64 σ)
    (s₀ : σ) (root : PhysAddr) (S : PageTree) (w : World PTE σ) : Prop where
  node {ρ : List (Fin ENTRY_COUNT)} : ρ ≠ [] → ρ.length ≤ M.LEVELS →
    (S.node ρ).Matches fits M ρ.length (entryAt child w.mem root ρ)
  os : w.os = allocState H s₀ S.requests

/-- A description of a table speaks of its memory and of the allocator only. -/
theorem Describes.congr {w' : World PTE σ} (D : Describes fits M H s₀ root S w)
    (hmem : w'.mem = w.mem) (hos : w'.os = w.os) : Describes fits M H s₀ root S w' where
  node hρ hlen := hmem ▸ D.node hρ hlen
  os := hos.trans D.os

/-- What a slot holds, according to the node at the end of its path. -/
theorem Describes.entry (D : Describes fits M H s₀ root S w) {ρ : List (Fin ENTRY_COUNT)}
    {slot : Slot} (h : SlotAt w.mem root ρ slot) (hρ : ρ.length ≤ M.LEVELS) :
    (S.node ρ).Matches fits M ρ.length (some (w.entry slot)) := by
  have hne : ρ ≠ [] := List.ne_nil_of_length_pos h.length_pos
  rw [World.entry, ← h.entryAt]
  exact D.node hne hρ

/-- Below an entry that is no pointer there is nothing. -/
theorem Describes.unused_below (D : Describes fits M H s₀ root S w)
    {ρ τ : List (Fin ENTRY_COUNT)} {e : PTE} (he : entryAt child w.mem root ρ = some e)
    (hc : child e = none) (hτ : τ ≠ []) (hlen : (ρ ++ τ).length ≤ M.LEVELS) :
    S.node (ρ ++ τ) = .unused := by
  have hnode := D.node (by simp [hτ]) hlen
  rw [entryAt_of_no_child he hc hτ] at hnode
  generalize S.node (ρ ++ τ) = x at hnode
  cases x with
  | unused => rfl
  | table => exact absurd hnode.2 (by simp)
  | page p r => exact absurd hnode (by simp [Node.Matches])

/-- The tables of a page table form a tree, which is described by a page tree. -/
def Described (fits : Bool → PTE → Prop) (M : PagingMetaData) (H : PagingHandler 64 σ) (s₀ : σ)
    (inUse : σ → Set PhysAddr) (root : PhysAddr) (w : World PTE σ) (S : PageTree) : Prop :=
  Tree M inUse root w ∧ Describes fits M H s₀ root S w

section Lawful

variable [LawfulPTE M PTE] {ρ : List (Fin ENTRY_COUNT)} {slot : Slot}

/-- A fresh table under an unused entry. -/
theorem Describes.hang (D : Describes fits M H s₀ root S w) (T : Tree M inUse root w)
    (h : SlotAt w.mem root ρ slot) (hρ : ρ.length < M.LEVELS) (hold : w.entry slot = empty)
    {p : PhysAddr} {os : σ} (hp : ValidFrame M p) (hfresh : p ∉ inUse w.os)
    (hos : os = allocState H s₀ (S.requests + 1)) :
    Describes fits M H s₀ root { S.set ρ .table with requests := S.requests + 1 }
      (w.hang slot p os) := by
  refine ⟨fun {ρ'} hne hlen => ?_, hos⟩
  have hnone : child (w.entry slot) = none := child_of_entry_eq_empty M hold
  rw [T.entryAt_hang h hρ hold hp hfresh hlen]
  by_cases hself : ρ' = ρ
  · subst hself
    rw [if_pos rfl, PageTree.set_node_self]
    exact ⟨hρ, p, hp, rfl⟩
  rw [if_neg hself, PageTree.set_node_of_ne S hself]
  by_cases hbelow : ρ'.dropLast = ρ
  · -- an entry of the new table
    rw [if_pos hbelow]
    have happend : ρ' = ρ ++ [ρ'.getLast hne] := by
      rw [← hbelow]
      exact (List.dropLast_append_getLast hne).symm
    rw [happend, D.unused_below h.entryAt hnone (by simp) (by rwa [← happend])]
    exact fun x hx => (Option.some_inj.mp hx).symm
  · rw [if_neg hbelow]
    exact D.node hne hlen

/-- A leaf over an entry that is no pointer. -/
theorem Describes.store (D : Describes fits M H s₀ root S w) (T : Tree M inUse root w)
    (h : SlotAt w.mem root ρ slot) (hρ : ρ.length ≤ M.LEVELS)
    (hc : ρ.length = M.LEVELS ∨ child (w.entry slot) = none) {P : PTE → Prop} {e : PTE}
    (he : LeafEntry P M ρ.length e) {x : Node} (hx : x.Matches fits M ρ.length (some e)) :
    Describes fits M H s₀ root (S.set ρ x) (w.store slot e) := by
  refine ⟨fun {ρ'} hne hlen => ?_, D.os⟩
  obtain ⟨π, hπ, hs⟩ := h
  have hπlen : ρ.length = π.length + 1 := by rw [hπ, List.length_append, List.length_singleton]
  have hchild : π.length = M.LEVELS - 1 ∨ child e = child (w.mem slot.table slot.index) := by
    obtain hc | hc := hc
    · exact Or.inl (by omega)
    · by_cases hlast : ρ.length = M.LEVELS
      · exact Or.inl (by omega)
      · exact Or.inr ((he.child_eq_none hlast).trans hc.symm)
  have heq := T.forest.entryAt_set rfl (by omega) hs hchild rfl
    (show ρ'.length ≤ M.LEVELS - 1 + 1 by omega)
  rw [← hπ] at heq
  rw [World.store_mem, heq]
  by_cases hself : ρ' = ρ
  · subst hself
    rw [if_pos ⟨rfl, rfl⟩, PageTree.set_node_self]
    exact hx
  · rw [if_neg fun hc => hself hc.2, PageTree.set_node_of_ne S hself]
    exact D.node hne hlen

/-- The unused nodes are those of the unused entries. -/
theorem Describes.unused_iff (hfits : ∀ r (e : PTE), fits r e → e ≠ empty)
    (D : Describes fits M H s₀ root S w) (h : SlotAt w.mem root ρ slot)
    (hρ : ρ.length ≤ M.LEVELS) : S.node ρ = .unused ↔ w.entry slot = empty := by
  have hentry := D.entry h hρ
  constructor
  · intro hnode
    rw [hnode] at hentry
    exact hentry _ rfl
  · intro hold
    generalize S.node ρ = x at hentry
    cases x with
    | unused => rfl
    | table =>
      obtain ⟨-, p, hp, hnew⟩ := hentry
      have hchild : child (newTable p : PTE) = some p := child_newTable hp
      rw [← Option.some_inj.mp hnew, hold, child_empty M] at hchild
      exact absurd hchild (by simp)
    | page p r =>
      obtain ⟨_, hsome, hfit, -⟩ := hentry
      rw [← Option.some_inj.mp hsome] at hfit
      exact absurd hold (hfits r _ hfit)

/-- Stepping into the table under an entry, which is created if the entry is unused. -/
theorem enter_agree (hfits : ∀ r (e : PTE), fits r e → e ≠ empty) (hH : FreshFrames M H inUse)
    (D : Described fits M H s₀ inUse root w S) (h : SlotAt w.mem root ρ slot)
    (hρ : ρ.length < M.LEVELS) :
    Agree (Described fits M H s₀ inUse root)
      (fun p w' _ _ => resolve child w'.mem root ρ = some p)
      (PageTable64.nextTableMutOrCreate H slot w) (PageTree.enter (grants H s₀) ρ S) := by
  obtain ⟨T, D⟩ := D
  have hentry := D.entry h hρ.le
  have hread : Described fits M H s₀ inUse root (w.touch [slot.table]) S :=
    ⟨⟨T.forest, T.inUse⟩, D.congr rfl rfl⟩
  rw [nextTableMutOrCreate_apply, PageTree.enter]
  generalize hx : S.node ρ = x at hentry
  cases x with
  | unused =>
    -- a new node, if the handler has a frame
    have hold : w.entry slot = empty := hentry _ rfl
    rw [if_pos ((LawfulPTE.isUnused_iff M _).mpr hold)]
    obtain ⟨frame, os, ha⟩ : ∃ frame os, H.allocFrame w.os = (frame, os) := ⟨_, _, rfl⟩
    have hos : os = allocState H s₀ (S.requests + 1) := by
      rw [allocState_succ, ← D.os, ha]
    have hgrants : grants H s₀ S.requests = frame.isSome := by
      rw [grants, ← D.os, ha]
    cases frame with
    | none =>
      simp only [ha, hgrants]
      exact .err _ ⟨⟨T.forest, T.inUse.trans (hH.alloc_none ha)⟩, D.node, hos⟩
    | some p =>
      simp only [ha, hgrants]
      have hvalid := hH.valid ha
      have hstep : Grow M H root (fun _ => True) w (w.hang slot p os) :=
        .single (.attach ρ slot p os h hρ hold ha trivial)
      have D' := D.hang T h hρ hold hvalid (hH.fresh ha) hos
      have hnew : resolve child (w.hang slot p os).mem root ρ = some p :=
        T.resolve_hang h hρ hold hvalid (hH.fresh ha)
      have T' := hstep.tree hH T
      exact .ok ⟨⟨T'.forest, T'.inUse⟩, D'.congr rfl rfl⟩ hnew
  | table =>
    -- the node below is there already
    obtain ⟨-, p, hp, hnew⟩ := hentry
    have hchild : child (w.entry slot) = some p := by
      rw [Option.some_inj.mp hnew]
      exact child_newTable hp
    have hused : isUnused (w.entry slot) = false := by
      rw [Bool.eq_false_iff]
      intro hc
      rw [(LawfulPTE.isUnused_iff M _).mp hc, child_empty M] at hchild
      exact absurd hchild (by simp)
    rw [if_neg (by simp [hused]), nextTable_of_child hchild]
    refine .ok hread ?_
    obtain ⟨π, rfl, hs⟩ := h
    rw [World.touch_mem, resolve_append, hs, Option.bind_some, resolve_cons,
      show child (w.mem slot.table slot.index) = some p from hchild]
    rfl
  | page p r =>
    -- a page is in the way, and the error depends on its address
    obtain ⟨_, hsome, hfit, hpaddr, hplace⟩ := hentry
    obtain rfl := Option.some_inj.mp hsome
    have hused : isUnused (w.entry slot) = false := by
      rw [Bool.eq_false_iff]
      exact fun hc => hfits r _ hfit ((LawfulPTE.isUnused_iff M _).mp hc)
    have hhuge : isHuge (w.entry slot) = true := by
      obtain hlast | ⟨hh, -⟩ := hplace
      · omega
      · exact hh
    have hnext : PageTable64.nextTable (w.entry slot) =
        .error (if p = 0 then .notMapped else .mappedToHugePage) := by
      rw [PageTable64.nextTable, hpaddr, hhuge]
      by_cases hp : p = 0
      · rw [if_pos (by simpa using hp), if_pos hp]
      · rw [if_neg (by simpa using hp), if_pos rfl, if_neg hp]
    rw [if_neg (by simp [hused]), hnext]
    exact .err _ hread

/-! ### The methods -/

section Agree

variable (hfits : ∀ r (e : PTE), fits r e → e ≠ empty) (hH : FreshFrames M H inUse)
include hfits hH

/-- The walk below the table of the third level. -/
theorem createFrom_agree (D : Described fits M H s₀ inUse root w S) {p3 : PhysAddr}
    (v : VirtAddr) (size : PageSize) (hp3 : resolve child w.mem root (pathTo M 3 v) = some p3) :
    Agree (Described fits M H s₀ inUse root)
      (fun slot w' _ _ => SlotAt w'.mem root (pathTo M size.height v) slot)
      (createFrom H p3 v size w)
      (PageTree.createTo (grants H s₀) M v size.height (2 - size.height) S) := by
  have hL := LawfulPTE.levels (M := M) PTE
  have hlen := fun k => length_pathTo hL k v
  have hslot2 : SlotAt w.mem root (pathTo M 2 v) ⟨p3, p3Index v⟩ := ⟨_, pathTo_two hL v, hp3⟩
  rw [createFrom]
  by_cases h1G : size = .size1G
  · subst h1G
    exact .ok D hslot2
  rw [if_neg h1G]
  have h2 := enter_agree hfits hH D hslot2 (by rw [hlen]; omega)
  by_cases h2M : size = .size2M
  · subst h2M
    refine h2.bind fun p2 w₂ _ S₂ D₂ hp2 => ?_
    exact .ok D₂ ⟨_, pathTo_one hL v, hp2⟩
  have hheight : size.height = 0 := by
    cases size <;> first | rfl | exact absurd rfl h1G | exact absurd rfl h2M
  rw [hheight]
  refine h2.bind fun p2 w₂ _ S₂ D₂ hp2 => ?_
  rw [if_neg h2M]
  have hslot1 : SlotAt w₂.mem root (pathTo M 1 v) ⟨p2, p2Index v⟩ := ⟨_, pathTo_one hL v, hp2⟩
  refine (enter_agree hfits hH D₂ hslot1 (by rw [hlen]; omega)).bind fun p1 w₁ _ S₁ D₁ hp1 => ?_
  exact .ok D₁ ⟨_, pathTo_zero hL v, hp1⟩

/-- The walk that creates the tables it misses. -/
theorem getEntryMutOrCreate_agree (self : PageTable64 B M PTE H)
    (D : Described fits M H s₀ inUse self.rootPaddr w S) (v : VirtAddr) (size : PageSize) :
    Agree (Described fits M H s₀ inUse self.rootPaddr)
      (fun slot w' _ _ => SlotAt w'.mem self.rootPaddr (pathTo M size.height v) slot)
      (self.getEntryMutOrCreate v size w)
      (PageTree.createTo (grants H s₀) M v size.height (M.LEVELS - 1 - size.height) S) := by
  have hL := LawfulPTE.levels (M := M) PTE
  have hheight := size.height_le
  have hlen := length_pathTo hL 3 v
  obtain h | h := hL
  · have hp3 : resolve child w.mem self.rootPaddr (pathTo M 3 v) = some self.rootPaddr := by
      rw [pathTo, h]
      rfl
    rw [PageTable64.getEntryMutOrCreate, if_pos h, show M.LEVELS - 1 = 2 by omega]
    exact createFrom_agree hfits hH D v size hp3
  · have hslot3 : SlotAt w.mem self.rootPaddr (pathTo M 3 v) ⟨self.rootPaddr, p4Index v⟩ := by
      rw [pathTo, vpath_four h, h]
      exact ⟨[], rfl, rfl⟩
    rw [PageTable64.getEntryMutOrCreate, if_neg (by omega), if_pos h,
      show M.LEVELS - 1 - size.height = (2 - size.height) + 1 by omega, PageTree.createTo,
      show size.height + (2 - size.height) + 1 = 3 by omega]
    refine (enter_agree hfits hH D hslot3 (by omega)).bind ?_
    intro p3 w₃ _ S₃ D₃ hp3
    exact createFrom_agree hfits hH D₃ v size hp3

/-- `map` does to a page table what it does to the page tree. -/
theorem map_agree (self : PageTable64 B M PTE H)
    (D : Described fits M H s₀ inUse self.rootPaddr w S) (v : VirtAddr) {target : PhysAddr}
    (ht : target.toNat ≤ M.PA_MAX_ADDR) (size : PageSize) {f : MappingFlags 64}
    (hf : debugAssert PTE f = true)
    (hfit : ∀ p h, fits (f.contains .READ) (newPage p f h : PTE)) :
    Agree (Described fits M H s₀ inUse self.rootPaddr) (fun _ _ _ _ => True)
      (self.map v target size f w) (PageTree.map (grants H s₀) M v target size f S) := by
  have hL := LawfulPTE.levels (M := M) PTE
  have hheight := size.height_le
  have hlen := length_pathTo (M := M) hL size.height v
  refine (getEntryMutOrCreate_agree hfits hH self D v size).bind ?_
  rintro slot w' _ S' ⟨T', D'⟩ hslot
  rw [Op.bind_ok (readEntry_eq slot w'), PageTree.place]
  have hread : Described fits M H s₀ inUse self.rootPaddr (w'.touch [slot.table]) S' :=
    ⟨⟨T'.forest, T'.inUse⟩, D'.congr rfl rfl⟩
  have hiff := D'.unused_iff hfits hslot (by omega)
  by_cases hold : w'.entry slot = empty
  · have hunused := (LawfulPTE.isUnused_iff M _).mpr hold
    rw [if_neg (by simp [hunused]), Op.bind_ok (assertFlags_of_pass (flagsPass_of_accepted hf) _),
      hiff.mpr hold]
    have hleaf : LeafEntry (fun _ : PTE => True) M (pathTo M size.height v).length
        (newPage (MemoryAddr.alignDown target (size.toUsize 64)) f size.isHuge) := by
      rw [hlen]
      exact newPage_leafEntry (allowed_true hf) _ size
    have hplace : (pathTo M size.height v).length = M.LEVELS ∨
        child (w'.entry slot) = none := Or.inr (by rw [hold]; exact child_empty M)
    have hmatches : (Node.page (MemoryAddr.alignDown target (size.toUsize 64))
        (f.contains .READ)).Matches fits M (pathTo M size.height v).length
        (some (newPage (MemoryAddr.alignDown target (size.toUsize 64)) f size.isHuge)) := by
      refine ⟨_, rfl, hfit _ _, paddr_alignDown ht size f _, ?_⟩
      exact (hleaf.resolve_left (hfits _ _ (hfit _ _))).2
    have T'' : Tree M inUse self.rootPaddr (w'.store slot
        (newPage (MemoryAddr.alignDown target (size.toUsize 64)) f size.isHuge)) :=
      Step.tree hH (fun _ _ h => h) T'
        (.store (A := fun _ => True) _ slot _ hslot (by omega) hplace hleaf.noTable)
    refine .ok ⟨⟨T''.forest, T''.inUse⟩, ?_⟩ trivial
    exact (D'.store T' hslot (by omega) hplace hleaf hmatches).congr rfl rfl
  · -- the entry is in use: nothing is stored
    have hused : isUnused (w'.entry slot) = false := by
      rw [Bool.eq_false_iff]
      exact fun hc => hold ((LawfulPTE.isUnused_iff M _).mp hc)
    rw [if_pos (by simp [hused])]
    generalize S'.node (pathTo M size.height v) = x at hiff
    cases x with
    | unused => exact absurd (hiff.mp rfl) hold
    | table => exact .err _ hread
    | page p r => exact .err _ hread

end Agree

/-! ### The page of an address -/

omit [LawfulPTE M PTE] in
/-- A described page table is well formed. -/
theorem Described.inv (D : Described fits M H s₀ inUse root w S) :
    Inv (fun e : PTE => ∃ r, fits r e) M inUse root w := by
  refine ⟨D.1, fun {ρ slot} h hρ => ?_⟩
  have hentry := D.2.entry h hρ
  generalize S.node ρ = x at hentry
  cases x with
  | unused => exact Or.inr (Or.inl (hentry _ rfl))
  | table =>
    obtain ⟨hlt, p, hp, hnew⟩ := hentry
    exact Or.inl ⟨hlt, p, hp, Option.some_inj.mp hnew⟩
  | page p r =>
    obtain ⟨_, hsome, hfit, -, hplace⟩ := hentry
    obtain rfl := Option.some_inj.mp hsome
    exact Or.inr (Or.inr ⟨⟨r, hfit⟩, hplace⟩)

omit [GenericPTE 64 PTE] [LawfulPTE M PTE] in
/-- The path of an address goes on from one height to a lower one. -/
theorem pathTo_append (hL : M.LEVELS = 3 ∨ M.LEVELS = 4) {j k : ℕ} (hjk : j < k) (hk : k < M.LEVELS)
    (v : VirtAddr) : ∃ τ, τ ≠ [] ∧ pathTo M j v = pathTo M k v ++ τ := by
  obtain ⟨τ, hτ⟩ : pathTo M k v <+: pathTo M j v := List.take_prefix_take_left (by omega)
  refine ⟨τ, ?_, hτ.symm⟩
  rintro rfl
  have hlen := congrArg List.length hτ
  rw [List.append_nil, length_pathTo hL, length_pathTo hL] at hlen
  omega

/-- Above an entry there are tables. -/
theorem Describes.table_above (D : Describes fits M H s₀ root S w) {v : VirtAddr} {j k : ℕ}
    (hjk : j < k) (hk : k < M.LEVELS) (h : SlotAt w.mem root (pathTo M j v) slot) :
    S.node (pathTo M k v) = .table := by
  have hL := LawfulPTE.levels (M := M) PTE
  have hlen := length_pathTo hL k v
  have hne : pathTo M k v ≠ [] := List.ne_nil_of_length_pos (by omega)
  obtain ⟨τ, hτ, hsplit⟩ := pathTo_append hL hjk hk v
  have hsome : entryAt child w.mem root (pathTo M k v ++ τ) ≠ none := by
    rw [← hsplit, h.entryAt]
    simp
  obtain ⟨e, s, he, hs⟩ := child_of_entryAt hne hτ hsome
  have hnode := D.node hne (by omega)
  rw [he] at hnode
  generalize S.node (pathTo M k v) = x at hnode
  cases x with
  | unused =>
    rw [hnode e rfl, child_empty M] at hs
    exact absurd hs (by simp)
  | table => rfl
  | page p r =>
    obtain ⟨_, hx, -, -, hlast | ⟨hh, -⟩⟩ := hnode
    · omega
    · obtain rfl := Option.some_inj.mp hx
      rw [child_of_isHuge hh] at hs
      exact absurd hs (by simp)

/-- Below an entry of the path of an address that is no pointer there is nothing. -/
theorem Describes.unused_at (D : Describes fits M H s₀ root S w) {v : VirtAddr} {j k : ℕ}
    (hjk : j < k) (hk : k < M.LEVELS) (h : SlotAt w.mem root (pathTo M k v) slot)
    (hc : child (w.entry slot) = none) : S.node (pathTo M j v) = .unused := by
  have hL := LawfulPTE.levels (M := M) PTE
  obtain ⟨τ, hτ, hsplit⟩ := pathTo_append hL hjk hk v
  rw [hsplit]
  refine D.unused_below h.entryAt hc hτ ?_
  rw [← hsplit, length_pathTo hL]
  omega

/-- The page on a path is found. -/
theorem Describes.find_page (D : Describes fits M H s₀ root S w) {v : VirtAddr} {k : ℕ}
    (hk : k ≤ 2) (h : SlotAt w.mem root (pathTo M k v) slot) {p : PhysAddr} {r : Bool}
    (hnode : S.node (pathTo M k v) = .page p r) : S.find M v = some (k, p, r) := by
  have hL := LawfulPTE.levels (M := M) PTE
  have habove := fun j (hj : k < j) (hj2 : j ≤ 2) => D.table_above hj (by omega) h
  obtain rfl | rfl | rfl : k = 0 ∨ k = 1 ∨ k = 2 := by omega
  · simp [PageTree.find, hnode, habove 1 (by omega) (by omega), habove 2 (by omega) (by omega)]
  · simp [PageTree.find, hnode, habove 2 (by omega) (by omega)]
  · simp [PageTree.find, hnode]

/-- Where a path comes to an unused entry no page is found. -/
theorem Describes.find_none (D : Describes fits M H s₀ root S w) {v : VirtAddr} {k : ℕ}
    (hk : k < M.LEVELS) (h : SlotAt w.mem root (pathTo M k v) slot)
    (hold : w.entry slot = empty) (hnode : S.node (pathTo M k v) = .unused) :
    S.find M v = none := by
  have hc : child (w.entry slot) = none := by
    rw [hold]
    exact child_empty M
  have hno : ∀ j, j ≤ 2 → ∀ p r, S.node (pathTo M j v) ≠ .page p r := by
    intro j hj p r hpage
    obtain hlt | rfl | hgt := Nat.lt_trichotomy j k
    · rw [D.unused_at hlt hk h hc] at hpage
      exact absurd hpage (by simp)
    · rw [hnode] at hpage
      exact absurd hpage (by simp)
    · have hL := LawfulPTE.levels (M := M) PTE
      rw [D.table_above hgt (by omega) h] at hpage
      exact absurd hpage (by simp)
  rw [PageTree.find, List.findSome?_eq_none_iff]
  intro j hj
  have hj2 : j ≤ 2 := by
    simp only [List.mem_cons, List.not_mem_nil, or_false] at hj
    omega
  have hj := hno j hj2
  generalize S.node (pathTo M j v) = x at hj
  cases x with
  | page p r => exact absurd rfl (hj p r)
  | _ => rfl

/-- What a walk finds is what the page tree says: a page, or nothing. -/
theorem Described.seek_find (hfits : ∀ r (e : PTE), fits r e → e ≠ empty)
    (D : Described fits M H s₀ inUse root w S) (v : VirtAddr) :
    (∃ k p r slot, S.find M v = some (k, p, r) ∧ seek w.mem root (vpath M v) = .ok (slot, k) ∧
        fits r (w.entry slot) ∧ paddr (w.entry slot) = p) ∨
      S.find M v = none ∧ (seek w.mem root (vpath M v) = .error .notMapped ∨
        ∃ slot k, seek w.mem root (vpath M v) = .ok (slot, k) ∧ w.entry slot = empty) := by
  have hL := LawfulPTE.levels (M := M) PTE
  cases hs : seek w.mem root (vpath M v) with
  | error e =>
    obtain ⟨rfl, j, slot, -, hj, hslot, hold, -⟩ := D.inv.seek_error hs
    have hnode := (D.2.unused_iff hfits hslot (by rw [length_pathTo hL]; omega)).mpr hold
    exact Or.inr ⟨D.2.find_none hj hslot hold hnode, Or.inl rfl⟩
  | ok found =>
    obtain ⟨slot, k⟩ := found
    obtain ⟨hslot, hk, hh⟩ := slotAt_of_seek hL hs
    have hlen := length_pathTo hL k v
    have hentry := D.2.entry hslot (by omega)
    generalize hx : S.node (pathTo M k v) = x at hentry
    cases x with
    | unused =>
      have hold : w.entry slot = empty := hentry _ rfl
      exact Or.inr ⟨D.2.find_none (by omega) hslot hold hx, Or.inr ⟨slot, k, rfl, hold⟩⟩
    | table =>
      -- a descent ends at no table: the entry there is huge or the last one
      obtain ⟨hlt, p, hp, hnew⟩ := hentry
      have hhuge : isHuge (w.entry slot) = true := hh (by omega)
      rw [Option.some_inj.mp hnew, LawfulPTE.isHuge_newTable M] at hhuge
      exact absurd hhuge (by simp)
    | page p r =>
      obtain ⟨_, hsome, hfit, hpaddr, -⟩ := hentry
      obtain rfl := Option.some_inj.mp hsome
      exact Or.inl ⟨k, p, r, slot, D.2.find_page hk hslot hx, rfl, hfit, hpaddr⟩

omit [LawfulPTE M PTE] in
/-- Accesses change nothing. -/
theorem Described.touch (D : Described fits M H s₀ inUse root w S) (acc : List PhysAddr) :
    Described fits M H s₀ inUse root (w.touch acc) S :=
  ⟨⟨D.1.forest, D.1.inUse⟩, D.2.congr rfl rfl⟩

omit [LawfulPTE M PTE] in
/-- Queueing a flush changes nothing. -/
theorem Described.queue (D : Described fits M H s₀ inUse root w S) (v : VirtAddr) :
    Described fits M H s₀ inUse root (w.queue v) S :=
  ⟨⟨D.1.forest, D.1.inUse⟩, D.2.congr rfl rfl⟩

/-- A store at the entry that a walk finds. -/
theorem Described.store_found (hH : FreshFrames M H inUse)
    (D : Described fits M H s₀ inUse root w S) {v : VirtAddr} {k : ℕ}
    (h : seek w.mem root (vpath M v) = .ok (slot, k)) {e : PTE}
    (he : LeafEntry (fun _ => True) M (M.LEVELS - k) e) {x : Node}
    (hx : x.Matches fits M (M.LEVELS - k) (some e)) :
    Described fits M H s₀ inUse root (w.store slot e) (S.set (pathTo M k v) x) := by
  have hL := LawfulPTE.levels (M := M) PTE
  obtain ⟨hslot, hk, hh⟩ := slotAt_of_seek hL h
  have hlen := length_pathTo hL k v
  have hc : (pathTo M k v).length = M.LEVELS ∨ child (w.entry slot) = none := by
    obtain rfl | h0 := Nat.eq_zero_or_pos k
    · exact Or.inl (by omega)
    · exact Or.inr (child_of_isHuge (hh h0))
  rw [← hlen] at he hx
  have hstep : Step M H root (fun _ => True) (LeafStore (fun _ => True) M) w (w.store slot e) :=
    .store _ slot e hslot (by omega) hc he
  exact ⟨hstep.tree hH (fun _ _ h => h.noTable) D.1, D.2.store D.1 hslot (by omega) hc he hx⟩

section Found

variable (hfits : ∀ r (e : PTE), fits r e → e ≠ empty) (self : PageTable64 B M PTE H)
  (D : Described fits M H s₀ inUse self.rootPaddr w S) (v : VirtAddr)
  (hpresent : ∀ k p r e, S.find M v = some (k, p, r) → fits r e → isPresent e = true)
include hfits D hpresent

/-- `query` answers as the page tree does, if the pages it may find are present. -/
theorem query_agree :
    Agree (Described fits M H s₀ inUse self.rootPaddr) (fun u _ x _ => (u.1, u.2.2) = x)
      (self.query v w) (PageTree.query M v S) := by
  have hL := LawfulPTE.levels (M := M) PTE
  obtain ⟨acc, -, happly⟩ := query_apply hL self v w
  rw [happly, PageTree.query]
  obtain ⟨k, p, r, slot, hfind, hs, hfit, rfl⟩ | ⟨hfind, hs | ⟨slot, k, hs, hold⟩⟩ :=
    D.seek_find hfits v
  · simp only [hs, hfind, hpresent k _ r _ hfind hfit, if_true]
    exact .ok (D.touch acc) rfl
  · simp only [hs, hfind]
    exact .err _ (D.touch acc)
  · simp only [hs, hfind, hold, LawfulPTE.isPresent_empty M]
    exact .err _ (D.touch acc)

variable (hH : FreshFrames M H inUse)
include hH

/-- `protect` does to a page table what it does to the page tree. -/
theorem protect_agree {f : MappingFlags 64} (hf : debugAssert PTE f = true)
    (hfit : ∀ (e : PTE) h, fits (f.contains .READ) (setFlags e f h)) :
    Agree (Described fits M H s₀ inUse self.rootPaddr) (fun u _ x _ => u = x)
      (self.protect v f w) (PageTree.protect M v f S) := by
  have hL := LawfulPTE.levels (M := M) PTE
  obtain ⟨acc, -, happly⟩ := protect_apply_of_accepted hL self v w hf
  rw [happly, PageTree.protect]
  obtain ⟨k, p, r, slot, hfind, hs, hfit', rfl⟩ | ⟨hfind, hs | ⟨slot, k, hs, hold⟩⟩ :=
    D.seek_find hfits v
  · simp only [hs, hfind, hpresent k _ r _ hfind hfit', if_true]
    obtain ⟨-, hk, -⟩ := slotAt_of_seek hL hs
    have hleaf := setFlags_leafEntry (M := M) (allowed_true hf) (w.entry slot) hk
    refine .ok ((Described.store_found hH (D.touch acc) hs hleaf ?_).queue v) rfl
    refine ⟨_, rfl, hfit _ _, LawfulPTE.paddr_setFlags M _ _ _, ?_⟩
    exact (hleaf.resolve_left (hfits _ _ (hfit _ _))).2
  · simp only [hs, hfind]
    exact .err _ (D.touch acc)
  · simp only [hs, hfind, hold, LawfulPTE.isPresent_empty M]
    exact .err _ (D.touch acc)

/-- `unmap` does to a page table what it does to the page tree. -/
theorem unmap_agree :
    Agree (Described fits M H s₀ inUse self.rootPaddr) (fun u _ x _ => (u.1, u.2.2) = x)
      (self.unmap v w) (PageTree.unmap M v S) := by
  have hL := LawfulPTE.levels (M := M) PTE
  have hclear : ∀ e : PTE, clear e = empty := LawfulPTE.clear_eq M
  have hunused : ∀ len, Node.unused.Matches fits M len (some (empty : PTE)) :=
    fun _ x hx => (Option.some_inj.mp hx).symm
  obtain ⟨acc, -, happly⟩ := unmap_apply hL self v w
  rw [happly, PageTree.unmap]
  obtain ⟨k, p, r, slot, hfind, hs, hfit, rfl⟩ | ⟨hfind, hs | ⟨slot, k, hs, hold⟩⟩ :=
    D.seek_find hfits v
  · simp only [hs, hfind, hpresent k _ r _ hfind hfit, if_true, hclear]
    exact .ok ((Described.store_found hH (D.touch acc) hs (Or.inl rfl) (hunused _)).queue v) rfl
  · simp only [hs, hfind]
    exact .err _ (D.touch acc)
  · -- an unused entry is cleared once more
    obtain ⟨hslot, hk, -⟩ := slotAt_of_seek hL hs
    have hlen := length_pathTo hL k v
    have hnode := (D.2.unused_iff hfits hslot (by omega)).mpr hold
    have hstore := Described.store_found hH (D.touch acc) hs (Or.inl rfl) (hunused _)
    rw [PageTree.set_eq_self hnode] at hstore
    simp only [hs, hfind, hold, LawfulPTE.isPresent_empty M, hclear]
    exact .err _ hstore

end Found

/-- Where the page found is not present, `query`, `protect` and `unmap` say that nothing is
mapped. -/
theorem not_mapped_of_absent (hfits : ∀ r (e : PTE), fits r e → e ≠ empty)
    (self : PageTable64 B M PTE H) (D : Described fits M H s₀ inUse self.rootPaddr w S)
    {v : VirtAddr} {k : ℕ} {p : PhysAddr} {r : Bool} (hfind : S.find M v = some (k, p, r))
    (habsent : ∀ e, fits r e → isPresent e = false) {f : MappingFlags 64}
    (hf : debugAssert PTE f = true) :
    (self.query v w).1 = .err .notMapped ∧ (self.protect v f w).1 = .err .notMapped ∧
      (self.unmap v w).1 = .err .notMapped := by
  have hL := LawfulPTE.levels (M := M) PTE
  obtain ⟨acc, -, hquery⟩ := query_apply hL self v w
  obtain ⟨acc', -, hprotect⟩ := protect_apply_of_accepted hL self v w hf
  obtain ⟨acc'', -, hunmap⟩ := unmap_apply hL self v w
  rw [hquery, hprotect, hunmap]
  obtain ⟨k', p', r', slot, hfind', hs, hfit, -⟩ | ⟨hnone, -⟩ := D.seek_find hfits v
  · obtain ⟨rfl, rfl, rfl⟩ : k' = k ∧ p' = p ∧ r' = r := by simpa [hfind'] using hfind
    simp [hs, habsent _ hfit]
  · exact absurd (hnone.symm.trans hfind) (by simp)

/-- A new table is described by the tree in which nothing is used. -/
theorem tryNew_described (hH : FreshFrames M H inUse) {self : PageTable64 B M PTE H}
    {w₀ : World PTE σ} (h : PageTable64.tryNew B M PTE H w₀ = (.ok self, w)) :
    Described fits M H w₀.os inUse self.rootPaddr w ⟨fun _ => .unused, 1⟩ := by
  refine ⟨(tryNew_inv (P := fun _ => True) hH self h).toTree, ?_⟩
  rw [tryNew_apply] at h
  obtain ⟨frame, os, ha⟩ : ∃ frame os, H.allocFrame w₀.os = (frame, os) := ⟨_, _, rfl⟩
  rw [ha] at h
  cases frame with
  | none => exact absurd (congrArg Prod.fst h) (by simp)
  | some p =>
    simp only [Prod.mk.injEq, Res.ok.injEq] at h
    obtain ⟨rfl, rfl⟩ := h
    have hos : os = allocState H w₀.os 1 := by
      rw [allocState_succ, allocState, Function.iterate_zero_apply, ha]
    refine ⟨fun {ρ} hne _ x hx => ?_, hos⟩
    dsimp only at hx
    have hzero : ∀ i, Function.update w₀.mem p (fun _ => (empty : PTE)) p i = empty := fun i => by
      rw [Function.update_self]
    match ρ, hne with
    | [i], _ => exact (Option.some_inj.mp hx).symm.trans (hzero i)
    | i :: j :: π, _ =>
      rw [Radix.entryAt, hzero, child_empty M] at hx
      exact absurd hx (by simp)

end Lawful

end PageTableMultiarch
