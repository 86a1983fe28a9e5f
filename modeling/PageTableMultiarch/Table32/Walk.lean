/-
The calls that `walk` of a `PageTable32` makes.

The walk takes every table for one of `ENTRY_COUNT` entries, so of a second level table it also
reports the words that come after it in memory.

* `walk_spec` — the calls of the visitors, where no address overflows;
* `link_lt_of_walk` — no address overflows where the walk returns;
* `mem_walkCalls` — the calls for entries of the second level.
-/
import PageTableMultiarch.Table32.Spec

namespace PageTableMultiarch.Bits32

open GenericPTE

variable {B : Build} {M : PagingMetaData} {PTE σ : Type} {H : PagingHandler 32 σ}

/-! ### Calls of the visitors -/

/-- What a visitor is called with. -/
structure Visited (PTE : Type) where
  level : ℕ
  index : ℕ
  vaddr : VirtAddr
  entry : PTE

/-- A call of `pre_func` or of `post_func`. -/
inductive WalkCall (PTE : Type) where
  | pre (x : Visited PTE)
  | post (x : Visited PTE)

/-- What a call does to the state of the visitors. -/
def WalkCall.run {α : Type} (preFunc postFunc : Option (Visitor PTE α)) (a : α) :
    WalkCall PTE → α
  | pre x => match preFunc with
    | some func => func x.level x.index x.vaddr x.entry a
    | none => a
  | post x => match postFunc with
    | some func => func x.level x.index x.vaddr x.entry a
    | none => a

/-- The visitors that write down their calls. -/
def recordPre : Visitor PTE (List (WalkCall PTE)) := fun level index vaddr entry calls =>
  calls ++ [.pre ⟨level, index, vaddr, entry⟩]

def recordPost : Visitor PTE (List (WalkCall PTE)) := fun level index vaddr entry calls =>
  calls ++ [.post ⟨level, index, vaddr, entry⟩]

theorem foldl_record (l calls : List (WalkCall PTE)) :
    l.foldl (WalkCall.run (some recordPre) (some recordPost)) calls = calls ++ l := by
  induction l generalizing calls with
  | nil => rw [List.foldl_nil, List.append_nil]
  | cons x l ih =>
    rw [List.foldl_cons, ih]
    cases x <;> simp [WalkCall.run, recordPre, recordPost]

/-- The size of what an entry at a level covers. -/
def spanAt (level : ℕ) : ℕ := if level = 0 then 0x100000 else 0x1000

/-- How an entry is reported. -/
def reportAt (mem : PhysAddr → PTE) (table : Table) (level : ℕ) (start : VirtAddr)
    (i : Fin ENTRY_COUNT) : Visited PTE :=
  ⟨level, i.val, start + BitVec.ofNat 32 (i.val * spanAt level), mem (Slot.addr ⟨table, i⟩)⟩

variable [GenericPTE 32 PTE]

/-- The calls for one entry. -/
def entryCalls (mem : PhysAddr → PTE) (table : Table) (level : ℕ) (start : VirtAddr)
    (below : PhysAddr → VirtAddr → List (WalkCall PTE)) (i : Fin ENTRY_COUNT) :
    List (WalkCall PTE) :=
  let x := reportAt mem table level start i
  if isUnused x.entry then []
  else .pre x :: ((if level = 0 ∧ isHuge x.entry = false then below (paddr x.entry) x.vaddr else [])
    ++ [.post x])

/-- The calls for a table with `below` levels under it. -/
def callsBelow (mem : PhysAddr → PTE) : ℕ → Table → ℕ → VirtAddr → List (WalkCall PTE)
  | 0, table, level, start =>
    entryIndices.flatMap (entryCalls mem table level start fun _ _ => [])
  | below + 1, table, level, start =>
    entryIndices.flatMap (entryCalls mem table level start fun p vaddr =>
      callsBelow mem below ⟨p, 1⟩ (level + 1) vaddr)

/-- The calls for a whole page table. -/
def walkCalls (mem : PhysAddr → PTE) (root : PhysAddr) : List (WalkCall PTE) :=
  callsBelow mem 1 ⟨root, L1_SIZE_PAGES⟩ 0 0

omit [GenericPTE 32 PTE] in
theorem visit_apply {α : Type} (func : Option (Visitor PTE α)) (level i : ℕ) (vaddr : VirtAddr)
    (entry : PTE) (s : World PTE σ × α) : visit func level i vaddr entry s =
      (.ok (), s.1, match func with
        | some func => func level i vaddr entry s.2
        | none => s.2) := by
  cases func <;> rfl

/-! ### One round -/

theorem shift_eq (level : ℕ) (i : Fin ENTRY_COUNT) :
    BitVec.ofNat 32 i.val <<< (if level = 0 then 20 else 12) =
      BitVec.ofNat 32 (i.val * spanAt level) := by
  apply BitVec.eq_of_toNat_eq
  rw [BitVec.toNat_shiftLeft, BitVec.toNat_ofNat, BitVec.toNat_ofNat, Nat.shiftLeft_eq, spanAt]
  split <;> rw [Nat.mod_mul_mod]

/-- The address of an entry does not overflow, or this is not checked. -/
def NoOverflow (B : Build) (level : ℕ) (start : VirtAddr) (i : Fin ENTRY_COUNT) : Prop :=
  B.overflowChecks = true → start.toNat + i.val * spanAt level < 2 ^ 32

theorem mul_spanAt_lt (level : ℕ) (i : Fin ENTRY_COUNT) : i.val * spanAt level < 2 ^ 32 := by
  have hi : i.val < 4096 := i.isLt
  rw [spanAt]
  split <;> omega

theorem checkedAdd_entry {S : Type} {level : ℕ} {start : VirtAddr} {i : Fin ENTRY_COUNT}
    (h : NoOverflow B level start i) (s : S) :
    checkedAdd B start (BitVec.ofNat 32 i.val <<< (if level = 0 then 20 else 12)) s =
      (.ok (start + BitVec.ofNat 32 (i.val * spanAt level)), s) := by
  have hlt := mul_spanAt_lt level i
  rw [shift_eq, checkedAdd, if_neg]
  · rfl
  · rw [Bool.and_eq_true, decide_eq_true_eq, BitVec.toNat_ofNat, Nat.mod_eq_of_lt hlt]
    rintro ⟨hchecks, hover⟩
    have := h hchecks
    omega

theorem noOverflow_of_checkedAdd {S : Type} {level : ℕ} {start v : VirtAddr}
    {i : Fin ENTRY_COUNT} {s s' : S}
    (h : checkedAdd B start (BitVec.ofNat 32 i.val <<< (if level = 0 then 20 else 12)) s =
      (.ok v, s')) : NoOverflow B level start i := by
  intro hchecks
  have hlt := mul_spanAt_lt level i
  rw [shift_eq, checkedAdd, BitVec.toNat_ofNat, Nat.mod_eq_of_lt hlt] at h
  by_contra hover
  rw [hchecks, Bool.true_and, decide_eq_true (by omega), if_pos rfl] at h
  exact absurd (congrArg Prod.fst h) (by simp)

section Round

variable {α : Type} {preFunc postFunc : Option (Visitor PTE α)} {mem : PhysAddr → PTE}
  {table : Table} {level : ℕ} {start : VirtAddr} {i : Fin ENTRY_COUNT}
  {below : PhysAddr → VirtAddr → List (WalkCall PTE)}
  {descend : PhysAddr → VirtAddr → Op (World PTE σ × α) Unit}

/-- One round of the walk reports the entry, and what the walk of the next table reports. -/
theorem walkEntry_spec (hadd : NoOverflow B level start i)
    (hdescend : level = 0 → isUnused (mem (Slot.addr ⟨table, i⟩)) = false →
      isHuge (mem (Slot.addr ⟨table, i⟩)) = false → ∀ s : World PTE σ × α, s.1.mem = mem →
      ∃ s', descend (paddr (mem (Slot.addr ⟨table, i⟩)))
          (start + BitVec.ofNat 32 (i.val * spanAt level)) s = (.ok (), s') ∧ s'.1.mem = mem ∧
        s'.2 = (below (paddr (mem (Slot.addr ⟨table, i⟩)))
          (start + BitVec.ofNat 32 (i.val * spanAt level))).foldl
            (WalkCall.run preFunc postFunc) s.2)
    {s : World PTE σ × α} (hs : s.1.mem = mem) :
    ∃ s', PageTable32.walkEntry B preFunc postFunc descend table level start i s =
        (.ok (!isUnused (mem (Slot.addr ⟨table, i⟩))), s') ∧ s'.1.mem = mem ∧
      s'.2 = if !isUnused (mem (Slot.addr ⟨table, i⟩)) then
        (entryCalls mem table level start below i).foldl (WalkCall.run preFunc postFunc) s.2
      else s.2 := by
  have hread : onWorld (readEntry ⟨table, i⟩) s =
      (.ok (mem (Slot.addr ⟨table, i⟩)), (s.1.touch table, s.2)) := by
    rw [onWorld, readEntry_eq, World.entry, hs]
  have hmem : ∀ a : α, ((s.1.touch table, a) : World PTE σ × α).1.mem = mem := fun _ => hs
  rw [PageTable32.walkEntry]
  dsimp only
  rw [Op.bind_ok (checkedAdd_entry hadd s), Op.bind_ok hread, entryCalls, reportAt]
  dsimp only
  generalize start + BitVec.ofNat 32 (i.val * spanAt level) = vaddr at hdescend ⊢
  generalize mem (Slot.addr ⟨table, i⟩) = e at hdescend ⊢
  cases hu : isUnused e with
  | true => exact ⟨_, rfl, hmem s.2, rfl⟩
  | false =>
    rw [Bool.not_false, if_pos rfl, if_neg Bool.false_ne_true, if_pos rfl,
      Op.bind_ok (visit_apply preFunc level i.val vaddr e _), List.foldl_cons, List.foldl_append,
      List.foldl_cons, List.foldl_nil]
    -- the part between the two calls
    by_cases hlink : level = 0 ∧ isHuge e = false
    · obtain ⟨hlevel, hhuge⟩ := hlink
      obtain ⟨s', hs', hkept, hfold⟩ := hdescend hlevel hu hhuge
        (s.1.touch table, WalkCall.run preFunc postFunc s.2 (.pre ⟨level, i.val, vaddr, e⟩))
        (hmem _)
      refine ⟨(s'.1, WalkCall.run preFunc postFunc s'.2 (.post ⟨level, i.val, vaddr, e⟩)), ?_,
        hkept, ?_⟩
      · rw [if_pos (by simp [hlevel, hhuge])]
        exact (Op.bind_ok hs').trans (Op.bind_ok (visit_apply postFunc level i.val vaddr e s'))
      · rw [if_pos ⟨hlevel, hhuge⟩, hfold]
    · rw [if_neg (by simpa using hlink), if_neg hlink]
      exact ⟨_, Op.bind_ok (visit_apply postFunc level i.val vaddr e _), hmem _, rfl⟩

/-- The rounds over a table. -/
theorem forLimited_entries {limit : Usize} (hlimit : ENTRY_COUNT ≤ limit.toNat)
    (hround : ∀ i, isUnused (mem (Slot.addr ⟨table, i⟩)) = false → level = 0 →
      isHuge (mem (Slot.addr ⟨table, i⟩)) = false → ∀ s : World PTE σ × α, s.1.mem = mem →
      ∃ s', descend (paddr (mem (Slot.addr ⟨table, i⟩)))
          (start + BitVec.ofNat 32 (i.val * spanAt level)) s = (.ok (), s') ∧ s'.1.mem = mem ∧
        s'.2 = (below (paddr (mem (Slot.addr ⟨table, i⟩)))
          (start + BitVec.ofNat 32 (i.val * spanAt level))).foldl
            (WalkCall.run preFunc postFunc) s.2)
    (hadd : ∀ i, NoOverflow B level start i) {s : World PTE σ × α} (hs : s.1.mem = mem) :
    ∃ s', forLimited limit.toNat
        (PageTable32.walkEntry B preFunc postFunc descend table level start)
        entryIndices 0 s = (.ok (), s') ∧ s'.1.mem = mem ∧
      s'.2 = (entryIndices.flatMap (entryCalls mem table level start below)).foldl
        (WalkCall.run preFunc postFunc) s.2 := by
  have hcount : 0 < limit.toNat := Nat.lt_of_lt_of_le (by decide) hlimit
  have hrun : ∃ s', forLimited limit.toNat
        (PageTable32.walkEntry B preFunc postFunc descend table level start) entryIndices 0 s =
        (.ok (), s') ∧ s'.1.mem = mem ∧
      s'.2 = ((entryIndices.filter fun i => !isUnused (mem (Slot.addr ⟨table, i⟩))).take
        (limit.toNat - 0)).foldl (fun a i => (entryCalls mem table level start below i).foldl
          (WalkCall.run preFunc postFunc) a) s.2 := by
    refine forLimited_take (fun i _ _ s hs => ?_) hcount hs
    exact walkEntry_spec (hadd i) (fun h0 hu hh => hround i hu h0 hh) hs
  obtain ⟨s', hs', hkept, hfold⟩ := hrun
  refine ⟨s', hs', hkept, ?_⟩
  have hlen : (entryIndices.filter fun i => !isUnused (mem (Slot.addr ⟨table, i⟩))).length ≤
      limit.toNat := by
    refine (List.length_filter_le _ _).trans ?_
    rw [length_entryIndices]
    exact hlimit
  rw [hfold, Nat.sub_zero, List.take_of_length_le hlen, List.foldl_filter, List.foldl_flatMap]
  refine congrArg (fun f => List.foldl f s.2 entryIndices) ?_
  funext a i
  cases hu : isUnused (mem (Slot.addr ⟨table, i⟩)) with
  | true =>
    rw [entryCalls, reportAt]
    simp [hu]
  | false => simp

end Round

/-! ### The whole walk -/

section Walk

variable {α : Type} {preFunc postFunc : Option (Visitor PTE α)} {mem : PhysAddr → PTE}
  {limit : Usize} {table : Table} {level : ℕ} {start : VirtAddr}

/-- No address overflows in the walk of a table of the last level. -/
theorem walkLast_spec (hlimit : ENTRY_COUNT ≤ limit.toNat) (hlevel : level ≠ 0)
    (hadd : ∀ i, NoOverflow B level start i) {s : World PTE σ × α} (hs : s.1.mem = mem) :
    ∃ s', PageTable32.walkRecursive B limit preFunc postFunc 0 table level start s = (.ok (), s') ∧
      s'.1.mem = mem ∧ s'.2 = (callsBelow mem 0 table level start).foldl
        (WalkCall.run preFunc postFunc) s.2 :=
  forLimited_entries hlimit (fun _ _ h0 => absurd h0 hlevel) hadd hs

omit [GenericPTE 32 PTE] in
/-- Addresses of the first level do not overflow. -/
theorem noOverflow_root (i : Fin ENTRY_COUNT) : NoOverflow B 0 0 i := by
  intro _
  have := mul_spanAt_lt 0 i
  rw [show (0 : VirtAddr).toNat = 0 from rfl]
  omega

/-- An entry of the first level that the walk follows to a table. -/
def Link (mem : PhysAddr → PTE) (root : PhysAddr) (i : Fin ENTRY_COUNT) : Prop :=
  isUnused (mem (l1At root i).addr) = false ∧ isHuge (mem (l1At root i).addr) = false

instance (mem : PhysAddr → PTE) (root : PhysAddr) (i : Fin ENTRY_COUNT) :
    Decidable (Link mem root i) :=
  inferInstanceAs (Decidable (_ ∧ _))

theorem toNat_span (i : Fin ENTRY_COUNT) :
    ((0 : VirtAddr) + BitVec.ofNat 32 (i.val * spanAt 0)).toNat = i.val * 0x100000 := by
  have hlt := mul_spanAt_lt 0 i
  rw [BitVec.toNat_add, BitVec.toNat_ofNat, show (0 : VirtAddr).toNat = 0 from rfl, Nat.zero_add,
    Nat.mod_mod, Nat.mod_eq_of_lt hlt]
  rfl

/-- The walk, where no address overflows. -/
theorem walk_spec (hlimit : ENTRY_COUNT ≤ limit.toNat) (self : PageTable32 B M PTE H)
    (hadd : B.overflowChecks = true → ∀ i, Link mem self.rootPaddr i → i.val < 4081)
    {s : World PTE σ × α} (hs : s.1.mem = mem) :
    ∃ s', self.walk limit preFunc postFunc s = (.ok (), s') ∧ s'.1.mem = mem ∧
      s'.2 = (walkCalls mem self.rootPaddr).foldl (WalkCall.run preFunc postFunc) s.2 := by
  refine forLimited_entries hlimit (fun i hu _ hh s hs => ?_) noOverflow_root hs
  refine walkLast_spec hlimit (by decide) (fun j hchecks => ?_) hs
  have hi := hadd hchecks i ⟨hu, hh⟩
  have hj : j.val < 4096 := j.isLt
  rw [toNat_span, spanAt, if_neg (by decide)]
  omega

/-- Code that leaves memory alone. -/
def KeepsMem {α β : Type} (x : Op (World PTE σ × α) β) : Prop :=
  ∀ s, (x s).2.1.mem = s.1.mem

omit [GenericPTE 32 PTE] in
theorem KeepsMem.bind {β γ : Type} {x : Op (World PTE σ × α) β}
    {f : β → Op (World PTE σ × α) γ} (hx : KeepsMem x) (hf : ∀ b, KeepsMem (f b)) :
    KeepsMem (x >>= f) := by
  intro s
  refine Op.bind_rel (r := fun a b : World PTE σ × α => b.1.mem = a.1.mem)
    (fun h h' => h'.trans h) (hx s) fun b s' _ => hf b s'

omit [GenericPTE 32 PTE] in
theorem KeepsMem.visit (func : Option (Visitor PTE α)) (level i : ℕ) (vaddr : VirtAddr)
    (entry : PTE) :
    KeepsMem (Bits32.visit func level i vaddr entry : Op (World PTE σ × α) Unit) := by
  intro s
  rw [visit_apply]

theorem walkEntry_keepsMem {descend : PhysAddr → VirtAddr → Op (World PTE σ × α) Unit}
    (hdescend : ∀ p vaddr, KeepsMem (descend p vaddr)) (i : Fin ENTRY_COUNT) :
    KeepsMem (PageTable32.walkEntry B preFunc postFunc descend table level start i) := by
  have hadd : ∀ a b : VirtAddr, KeepsMem (checkedAdd B a b : Op (World PTE σ × α) VirtAddr) := by
    intro a b s
    obtain h | h := checkedAdd_cases (B := B) a b s <;> rw [h]
  rw [PageTable32.walkEntry]
  refine (hadd _ _).bind fun vaddr => ?_
  refine KeepsMem.bind (fun s => rfl) fun e => ?_
  split
  · refine (KeepsMem.visit preFunc _ _ _ _).bind fun _ => ?_
    have hrest : KeepsMem (Bits32.visit postFunc level i.val vaddr e >>= fun _ =>
        (pure true : Op (World PTE σ × α) Bool)) :=
      (KeepsMem.visit postFunc _ _ _ _).bind fun _ s => rfl
    split
    · exact (hdescend _ _).bind fun _ => hrest
    · exact hrest
  · exact fun s => rfl

omit [GenericPTE 32 PTE] in
theorem forLimited_keepsMem {body : Fin ENTRY_COUNT → Op (World PTE σ × α) Bool}
    (hbody : ∀ i, KeepsMem (body i)) (n : ℕ) (l : List (Fin ENTRY_COUNT)) (k : ℕ) :
    KeepsMem (forLimited n body l k) := by
  induction l generalizing k with
  | nil => exact fun s => rfl
  | cons i l ih =>
    rw [forLimited]
    refine (hbody i).bind fun b => ?_
    split
    · split
      · exact fun s => rfl
      · exact ih _
    · exact ih _

/-- A round that returns has computed its address, and its walk of the next table has
returned. -/
theorem walkEntry_ok {descend : PhysAddr → VirtAddr → Op (World PTE σ × α) Unit}
    {i : Fin ENTRY_COUNT} {s : World PTE σ × α} (hs : s.1.mem = mem) {b : Bool}
    (hok : (PageTable32.walkEntry B preFunc postFunc descend table level start i s).1 = .ok b) :
    NoOverflow B level start i ∧ (level = 0 → isUnused (mem (Slot.addr ⟨table, i⟩)) = false →
      isHuge (mem (Slot.addr ⟨table, i⟩)) = false → ∃ s', s'.1.mem = mem ∧
        (descend (paddr (mem (Slot.addr ⟨table, i⟩)))
          (start + BitVec.ofNat 32 (i.val * spanAt level)) s').1 = .ok ()) := by
  rw [PageTable32.walkEntry] at hok
  obtain ⟨v, s₁, hadd, -⟩ := Op.ok_of_bind hok
  have hno := noOverflow_of_checkedAdd hadd
  refine ⟨hno, fun hlevel hu hh => ?_⟩
  have hread : onWorld (readEntry ⟨table, i⟩) s =
      (.ok (mem (Slot.addr ⟨table, i⟩)), (s.1.touch table, s.2)) := by
    rw [onWorld, readEntry_eq, World.entry, hs]
  rw [Op.bind_ok (checkedAdd_entry hno s), Op.bind_ok hread, hu, Bool.not_false, if_pos rfl,
    Op.bind_ok (visit_apply preFunc level i.val _ _ _), hlevel, hh, Bool.not_false,
    decide_eq_true rfl, Bool.true_and, if_pos rfl] at hok
  obtain ⟨_, s₂, hdescend, -⟩ := Op.ok_of_bind hok
  subst hlevel
  refine ⟨_, ?_, congrArg Prod.fst hdescend⟩
  exact hs

/-- Where the walk returns no address overflows. -/
theorem link_lt_of_walk (hlimit : ENTRY_COUNT ≤ limit.toNat) (self : PageTable32 B M PTE H)
    {s : World PTE σ × α} (hs : s.1.mem = mem)
    (hok : (self.walk limit preFunc postFunc s).1 = .ok ()) (hchecks : B.overflowChecks = true)
    {i : Fin ENTRY_COUNT} (hi : Link mem self.rootPaddr i) : i.val < 4081 := by
  obtain ⟨hu, hh⟩ := hi
  have hlen : 0 + entryIndices.length ≤ limit.toNat := by
    rw [length_entryIndices, Nat.zero_add]
    exact hlimit
  have hlast : ∀ table level start, KeepsMem (PageTable32.walkRecursive B limit preFunc postFunc
      0 table level start : Op (World PTE σ × α) Unit) := fun _ _ _ =>
    forLimited_keepsMem (walkEntry_keepsMem fun _ _ _ => rfl) _ _ _
  -- the round of the first level, and the last one of the table that it leads to
  obtain ⟨s₁, b, hs₁, hfirst⟩ := forLimited_ok (J := fun s : World PTE σ × α => s.1.mem = mem)
    (fun i _ s hs => (walkEntry_keepsMem (fun _ _ => hlast _ _ _) i s).trans hs) hlen hs hok i
    (mem_entryIndices i)
  obtain ⟨s₂, hs₂, hsecond⟩ := (walkEntry_ok hs₁ hfirst).2 rfl hu hh
  obtain ⟨s₃, c, hs₃, hround⟩ := forLimited_ok (J := fun s : World PTE σ × α => s.1.mem = mem)
    (fun i _ s hs => (walkEntry_keepsMem (fun _ _ _ => rfl) i s).trans hs) hlen hs₂ hsecond
    ⟨4095, by decide⟩ (mem_entryIndices _)
  have hover := (walkEntry_ok hs₃ hround).1 hchecks
  rw [toNat_span, spanAt, if_neg (by decide)] at hover
  dsimp only at hover
  omega

/-! ### What is reported of the second level -/

/-- The calls for one entry. -/
theorem mem_entryCalls {below : PhysAddr → VirtAddr → List (WalkCall PTE)} {i : Fin ENTRY_COUNT}
    {x : Visited PTE} : .pre x ∈ entryCalls mem table level start below i ↔
      isUnused (mem (Slot.addr ⟨table, i⟩)) = false ∧ (x = reportAt mem table level start i ∨
        level = 0 ∧ isHuge (mem (Slot.addr ⟨table, i⟩)) = false ∧
          .pre x ∈ below (paddr (mem (Slot.addr ⟨table, i⟩)))
            (start + BitVec.ofNat 32 (i.val * spanAt level))) := by
  rw [entryCalls, reportAt]
  dsimp only
  generalize start + BitVec.ofNat 32 (i.val * spanAt level) = vaddr
  generalize mem (Slot.addr ⟨table, i⟩) = e
  cases hu : isUnused e with
  | true => simp
  | false =>
    by_cases hlink : level = 0 ∧ isHuge e = false
    · rw [if_neg Bool.false_ne_true, if_pos hlink]
      simp [hlink]
    · rw [if_neg Bool.false_ne_true, if_neg hlink]
      simp only [List.nil_append, List.mem_cons, WalkCall.pre.injEq, reduceCtorEq, List.not_mem_nil,
        or_false, true_and]
      constructor
      · exact Or.inl
      · rintro (h | ⟨hlevel, hhuge, -⟩)
        · exact h
        · exact absurd ⟨hlevel, hhuge⟩ hlink

/-- The entry that the walk reports with two indices. -/
def wordAt (mem : PhysAddr → PTE) (root : PhysAddr) (i j : Fin ENTRY_COUNT) : PTE :=
  mem (Slot.addr ⟨⟨paddr (mem (l1At root i).addr), 1⟩, j⟩)

/-- How it is reported. -/
def secondAt (mem : PhysAddr → PTE) (root : PhysAddr) (i j : Fin ENTRY_COUNT) : Visited PTE :=
  ⟨1, j.val, BitVec.ofNat 32 (i.val * 0x100000 + j.val * 0x1000), wordAt mem root i j⟩

theorem mem_callsBelow_zero (hlevel : level ≠ 0) {x : Visited PTE} :
    .pre x ∈ callsBelow mem 0 table level start ↔ ∃ j,
      isUnused (mem (Slot.addr ⟨table, j⟩)) = false ∧ x = reportAt mem table level start j := by
  rw [callsBelow, List.mem_flatMap]
  constructor
  · rintro ⟨j, -, hj⟩
    obtain ⟨hu, hx | ⟨h0, -⟩⟩ := mem_entryCalls.mp hj
    · exact ⟨j, hu, hx⟩
    · exact absurd h0 hlevel
  · rintro ⟨j, hu, hx⟩
    exact ⟨j, mem_entryIndices j, mem_entryCalls.mpr ⟨hu, Or.inl hx⟩⟩

theorem reportAt_second (mem : PhysAddr → PTE) (root : PhysAddr) (i j : Fin ENTRY_COUNT) :
    reportAt mem ⟨paddr (mem (l1At root i).addr), 1⟩ 1 (0 + BitVec.ofNat 32 (i.val * spanAt 0)) j =
      secondAt mem root i j := by
  have hsum : (0 : VirtAddr) + BitVec.ofNat 32 (i.val * spanAt 0) +
      BitVec.ofNat 32 (j.val * spanAt 1) =
      BitVec.ofNat 32 (i.val * 0x100000 + j.val * 0x1000) := by
    rw [BitVec.ofNat_add]
    exact congrArg (· + BitVec.ofNat 32 (j.val * 0x1000)) (BitVec.zero_add _)
  rw [reportAt, hsum]
  rfl

/-- The calls for the second level. -/
theorem mem_walkCalls {root : PhysAddr} {x : Visited PTE} :
    .pre x ∈ walkCalls mem root ∧ x.level = 1 ↔ ∃ i j, Link mem root i ∧
      isUnused (wordAt mem root i j) = false ∧ x = secondAt mem root i j := by
  rw [walkCalls, callsBelow, List.mem_flatMap]
  constructor
  · rintro ⟨⟨i, -, hi⟩, hlevel⟩
    obtain ⟨hu, rfl | ⟨-, hh, hx⟩⟩ := mem_entryCalls.mp hi
    · exact absurd hlevel (by simp [reportAt])
    · obtain ⟨j, hj, rfl⟩ := (mem_callsBelow_zero (by decide)).mp hx
      exact ⟨i, j, ⟨hu, hh⟩, hj, reportAt_second mem root i j⟩
  · rintro ⟨i, j, ⟨hu, hh⟩, hj, rfl⟩
    refine ⟨⟨i, mem_entryIndices i, mem_entryCalls.mpr ⟨hu, Or.inr ⟨rfl, hh, ?_⟩⟩⟩, rfl⟩
    exact (mem_callsBelow_zero (by decide)).mpr ⟨j, hj, (reportAt_second mem root i j).symm⟩

end Walk

end PageTableMultiarch.Bits32
