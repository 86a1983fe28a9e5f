/-
What the methods of `PageTable64` that walk without creating tables do: `query`,
`remap`, `protect` and `unmap`.

Each `_apply` theorem gives the result and the next state in terms of the walk
`seek`.  The walk itself only adds accesses to reached tables (`World.touch`); the
one entry a method overwrites is the entry found (`World.store`).
-/
import PageTableMultiarch.Table64.Leaf

namespace PageTableMultiarch

open GenericPTE Radix

variable {B : Build} {M : PagingMetaData} {PTE σ : Type} {H : PagingHandler 64 σ}

namespace World

/-- The state after accesses to the tables of a list, the newest first. -/
def touch (w : World PTE σ) (acc : List PhysAddr) : World PTE σ :=
  { w with trace := acc.map .access ++ w.trace }

/-- The state after an entry has been overwritten. -/
def store (w : World PTE σ) (slot : Slot) (e : PTE) : World PTE σ :=
  { w with
    mem := Radix.set w.mem slot.table slot.index e
    trace := .access slot.table :: w.trace }

/-- The state after a flush has been queued. -/
def queue (w : World PTE σ) (vaddr : VirtAddr) : World PTE σ :=
  { w with flusher := w.flusher.push vaddr }

/-- The entry a reference points to. -/
def entry (w : World PTE σ) (slot : Slot) : PTE := w.mem slot.table slot.index

variable (w : World PTE σ) (slot : Slot) (e : PTE) (v : VirtAddr) (acc : List PhysAddr)

@[simp] theorem touch_mem : (w.touch acc).mem = w.mem := rfl
@[simp] theorem touch_os : (w.touch acc).os = w.os := rfl
@[simp] theorem touch_trace : (w.touch acc).trace = acc.map .access ++ w.trace := rfl
@[simp] theorem store_mem :
    (w.store slot e).mem = Radix.set w.mem slot.table slot.index e := rfl
@[simp] theorem store_os : (w.store slot e).os = w.os := rfl
@[simp] theorem store_trace : (w.store slot e).trace = .access slot.table :: w.trace := rfl
@[simp] theorem queue_mem : (w.queue v).mem = w.mem := rfl
@[simp] theorem queue_os : (w.queue v).os = w.os := rfl
@[simp] theorem queue_trace : (w.queue v).trace = w.trace := rfl
@[simp] theorem touch_entry : (w.touch acc).entry slot = w.entry slot := rfl

theorem touch_touch (acc' : List PhysAddr) :
    (w.touch acc).touch acc' = w.touch (acc' ++ acc) := by
  rw [touch, touch, touch, List.map_append, List.append_assoc]

/-- Of two stores to one entry the first is only an access. -/
theorem store_store (e' : PTE) :
    (w.store slot e).store slot e' = (w.touch [slot.table]).store slot e' := by
  rw [store, store, store, touch]
  simp only [set_set]
  rfl

end World

theorem readEntry_eq (slot : Slot) (w : World PTE σ) :
    readEntry slot w = (.ok (w.entry slot), w.touch [slot.table]) := rfl

theorem writeEntry_eq (slot : Slot) (e : PTE) (w : World PTE σ) :
    writeEntry slot e w = (.ok (), w.store slot e) := rfl

theorem push_eq (v : VirtAddr) (w : World PTE σ) : push v w = (.ok (), w.queue v) := rfl

variable [GenericPTE 64 PTE]

/-- The `debug_assert!` on the flags does not fail. -/
def flagsPass (B : Build) (PTE : Type) [GenericPTE 64 PTE] (f : MappingFlags 64) : Bool :=
  !B.debugAssertions || debugAssert PTE f

theorem flagsPass_of_accepted {f : MappingFlags 64} (hf : debugAssert PTE f = true) :
    flagsPass B PTE f = true := by
  rw [flagsPass, hf, Bool.or_true]

theorem assertFlags_apply {S : Type} (f : MappingFlags 64) (w : S) :
    assertFlags B PTE f w = (if flagsPass B PTE f then .ok () else .panic, w) := by
  rw [assertFlags, Op.assert, flagsPass]
  split <;> rfl

theorem assertFlags_of_pass {S : Type} {f : MappingFlags 64} (hf : flagsPass B PTE f = true)
    (w : S) :
    assertFlags B PTE f w = (.ok (), w) := by
  rw [assertFlags_apply, if_pos hf]

theorem assertFlags_of_not_pass {S : Type} {f : MappingFlags 64} (hf : ¬ flagsPass B PTE f = true)
    (w : S) : assertFlags B PTE f w = (.panic, w) := by
  rw [assertFlags_apply, if_neg hf]

/-- `get_entry` in terms of the walk, followed by the read of the entry found. -/
theorem getEntry_bind {α : Type} (hL : M.LEVELS = 3 ∨ M.LEVELS = 4)
    (self : PageTable64 B M PTE H) (v : VirtAddr) (w : World PTE σ)
    (rest : Slot → PageSize → PTE → Op (World PTE σ) α) :
    ∃ acc : List PhysAddr,
      (∀ t ∈ acc, t ∈ nodes child w.mem {self.rootPaddr} (M.LEVELS - 1)) ∧
      (self.getEntry v >>= fun x => readEntry x.1 >>= fun entry => rest x.1 x.2 entry) w =
        match seek w.mem self.rootPaddr (vpath M v) with
        | .ok (slot, k) => rest slot (heightSize k) (w.entry slot) (w.touch acc)
        | .error e => (.err e, w.touch acc) := by
  obtain ⟨acc, hacc, heq⟩ := getEntry_apply hL self v w
  rcases hs : seek w.mem self.rootPaddr (vpath M v) with e | ⟨slot, k⟩
  · rw [hs] at heq
    exact ⟨acc, hacc, Op.bind_err heq⟩
  · rw [hs] at heq
    obtain ⟨⟨π, hπ, hslot⟩, -, -⟩ := slotAt_of_seek hL hs
    have hlen : π.length < M.LEVELS := by
      have := congrArg List.length hπ
      rw [length_pathTo hL, List.length_append, List.length_singleton] at this
      omega
    refine ⟨slot.table :: acc, ?_, ?_⟩
    · intro t ht
      rcases List.mem_cons.mp ht with rfl | ht
      · exact ⟨_, rfl, π, by omega, hslot⟩
      · exact hacc t ht
    · rw [Op.bind_ok heq, Op.bind_ok (readEntry_eq _ _)]
      rfl

section Apply

variable (hL : M.LEVELS = 3 ∨ M.LEVELS = 4) (self : PageTable64 B M PTE H) (v : VirtAddr)
  (w : World PTE σ)
include hL

theorem query_apply : ∃ acc : List PhysAddr,
    (∀ t ∈ acc, t ∈ nodes child w.mem {self.rootPaddr} (M.LEVELS - 1)) ∧
    self.query v w = match seek w.mem self.rootPaddr (vpath M v) with
      | .ok (slot, k) =>
        if isPresent (w.entry slot) then
          (.ok (paddr (w.entry slot) + (heightSize k).alignOffset v, flags (w.entry slot),
            heightSize k), w.touch acc)
        else (.err .notMapped, w.touch acc)
      | .error e => (.err e, w.touch acc) := by
  obtain ⟨acc, hacc, heq⟩ := getEntry_bind hL self v w fun slot size (entry : PTE) =>
    if !isPresent entry then Op.throw .notMapped
    else pure (paddr entry + size.alignOffset v, flags entry, size)
  refine ⟨acc, hacc, heq.trans ?_⟩
  rcases seek w.mem self.rootPaddr (vpath M v) with e | ⟨slot, k⟩
  · rfl
  · by_cases hp : isPresent (w.entry slot) = true
    · simp only [hp, Bool.not_true, Bool.false_eq_true, if_false, if_true]
      rfl
    · simp only [hp, Bool.not_false, if_true]
      rfl

theorem unmap_apply : ∃ acc : List PhysAddr,
    (∀ t ∈ acc, t ∈ nodes child w.mem {self.rootPaddr} (M.LEVELS - 1)) ∧
    self.unmap v w = match seek w.mem self.rootPaddr (vpath M v) with
      | .ok (slot, k) =>
        if isPresent (w.entry slot) then
          (.ok (paddr (w.entry slot), flags (w.entry slot), heightSize k),
            ((w.touch acc).store slot (clear (w.entry slot))).queue v)
        else (.err .notMapped, (w.touch acc).store slot (clear (w.entry slot)))
      | .error e => (.err e, w.touch acc) := by
  obtain ⟨acc, hacc, heq⟩ := getEntry_bind hL self v w fun slot size (entry : PTE) =>
    if !isPresent entry then do
      writeEntry slot (clear entry)
      Op.throw .notMapped
    else do
      writeEntry slot (clear entry)
      push v
      pure (paddr entry, flags entry, size)
  refine ⟨acc, hacc, heq.trans ?_⟩
  rcases seek w.mem self.rootPaddr (vpath M v) with e | ⟨slot, k⟩
  · rfl
  · by_cases hp : isPresent (w.entry slot) = true
    · simp only [hp, Bool.not_true, Bool.false_eq_true, if_false, if_true]
      rfl
    · simp only [hp, Bool.not_false, if_true]
      rfl

theorem protect_apply (f : MappingFlags 64) : ∃ acc : List PhysAddr,
    (∀ t ∈ acc, t ∈ nodes child w.mem {self.rootPaddr} (M.LEVELS - 1)) ∧
    self.protect v f w = match seek w.mem self.rootPaddr (vpath M v) with
      | .ok (slot, k) =>
        if isPresent (w.entry slot) then
          if flagsPass B PTE f then
            (.ok (heightSize k),
              ((w.touch acc).store slot
                (setFlags (w.entry slot) f (heightSize k).isHuge)).queue v)
          else (.panic, w.touch acc)
        else (.err .notMapped, w.touch acc)
      | .error e => (.err e, w.touch acc) := by
  obtain ⟨acc, hacc, heq⟩ := getEntry_bind hL self v w fun slot size (entry : PTE) =>
    if !isPresent entry then Op.throw .notMapped
    else do
      assertFlags B PTE f
      writeEntry slot (setFlags entry f size.isHuge)
      push v
      pure size
  refine ⟨acc, hacc, heq.trans ?_⟩
  rcases seek w.mem self.rootPaddr (vpath M v) with e | ⟨slot, k⟩
  · rfl
  · by_cases hp : isPresent (w.entry slot) = true
    · simp only [hp, Bool.not_true, Bool.false_eq_true, if_false, if_true]
      by_cases hf : flagsPass B PTE f = true
      · rw [Op.bind_ok (assertFlags_of_pass hf _), if_pos hf]
        rfl
      · rw [Op.bind_panic (assertFlags_of_not_pass hf _), if_neg hf]
    · simp only [hp, Bool.not_false, if_true]
      rfl

/-- The two stores of `remap` amount to one; the assertion on the flags is between them. -/
theorem remap_apply (target : PhysAddr) (f : MappingFlags 64) : ∃ acc : List PhysAddr,
    (∀ t ∈ acc, t ∈ nodes child w.mem {self.rootPaddr} (M.LEVELS - 1)) ∧
    self.remap v target f w = match seek w.mem self.rootPaddr (vpath M v) with
      | .ok (slot, k) =>
        if flagsPass B PTE f then
          (.ok (heightSize k),
            ((w.touch acc).store slot
              (setFlags (setPaddr (w.entry slot) target) f (heightSize k).isHuge)).queue v)
        else (.panic, (w.touch acc).store slot (setPaddr (w.entry slot) target))
      | .error e => (.err e, w.touch acc) := by
  obtain ⟨acc, hacc, heq⟩ := getEntry_bind hL self v w fun slot size (entry : PTE) => do
    writeEntry slot (setPaddr entry target)
    assertFlags B PTE f
    writeEntry slot (setFlags (setPaddr entry target) f size.isHuge)
    push v
    pure size
  rcases hs : seek w.mem self.rootPaddr (vpath M v) with e | ⟨slot, k⟩
  · rw [hs] at heq
    exact ⟨acc, hacc, heq⟩
  · rw [hs] at heq
    by_cases hf : flagsPass B PTE f = true
    · obtain ⟨⟨π, hπ, hslot⟩, -, -⟩ := slotAt_of_seek hL hs
      have hlen := congrArg List.length hπ
      rw [length_pathTo hL, List.length_append, List.length_singleton] at hlen
      refine ⟨slot.table :: acc, ?_, heq.trans ?_⟩
      · intro t ht
        rcases List.mem_cons.mp ht with rfl | ht
        · exact ⟨_, rfl, π, by omega, hslot⟩
        · exact hacc t ht
      · simp only
        rw [Op.bind_ok (writeEntry_eq _ _ _), Op.bind_ok (assertFlags_of_pass hf _),
          Op.bind_ok (writeEntry_eq _ _ _), World.store_store, World.touch_touch, if_pos hf]
        rfl
    · -- the address is written before the assertion on the flags fails
      refine ⟨acc, hacc, heq.trans ?_⟩
      simp only
      rw [Op.bind_ok (writeEntry_eq _ _ _), Op.bind_panic (assertFlags_of_not_pass hf _), if_neg hf]

/-- One round of `protect_region` on the entry that the walk finds. -/
theorem protectRegionStep_apply (f : MappingFlags 64) (size : Usize) : ∃ acc : List PhysAddr,
    (∀ t ∈ acc, t ∈ nodes child w.mem {self.rootPaddr} (M.LEVELS - 1)) ∧
    self.protectRegionStep f v size w = match seek w.mem self.rootPaddr (vpath M v) with
      | .ok (slot, k) =>
        if isPresent (w.entry slot) then
          if flagsPass B PTE f then
            assertStep (heightSize k) v size (((w.touch acc).store slot
              (setFlags (w.entry slot) f (heightSize k).isHuge)).queue v)
          else (.panic, w.touch acc)
        else assertStep (heightSize k) v size (w.touch acc)
      | .error .notMapped => assertStep .size4K v size (w.touch acc)
      | .error e => (.err e, w.touch acc) := by
  obtain ⟨acc, hacc, heq⟩ := getEntry_apply hL self v w
  rcases hs : seek w.mem self.rootPaddr (vpath M v) with e | ⟨slot, k⟩
  · rw [hs] at heq
    refine ⟨acc, hacc, ?_⟩
    -- the error of the descent is caught
    have hatt : attempt (self.getEntryMut v) w = (.ok (.error e), w.touch acc) := by
      rw [attempt, PageTable64.getEntryMut, heq]
      rfl
    rw [PageTable64.protectRegionStep, Op.bind_ok hatt]
    cases e <;> rfl
  · rw [hs] at heq
    obtain ⟨⟨π, hπ, hslot⟩, -, -⟩ := slotAt_of_seek hL hs
    have hlen := congrArg List.length hπ
    rw [length_pathTo hL, List.length_append, List.length_singleton] at hlen
    have hatt : attempt (self.getEntryMut v) w =
        (.ok (.ok (slot, heightSize k)), w.touch acc) := by
      rw [attempt, PageTable64.getEntryMut, heq]
      rfl
    refine ⟨slot.table :: acc, ?_, ?_⟩
    · intro t ht
      rcases List.mem_cons.mp ht with rfl | ht
      · exact ⟨_, rfl, π, by omega, hslot⟩
      · exact hacc t ht
    · rw [PageTable64.protectRegionStep, Op.bind_ok hatt]
      simp only
      rw [Op.bind_ok (readEntry_eq _ _), World.touch_entry]
      by_cases hp : isPresent (w.entry slot) = true
      · rw [if_pos hp, if_pos hp]
        by_cases hf : flagsPass B PTE f = true
        · rw [Op.bind_ok (assertFlags_of_pass hf _), if_pos hf]
          rfl
        · rw [Op.bind_panic (assertFlags_of_not_pass hf _), if_neg hf]
          rfl
      · rw [if_neg hp, if_neg hp]
        rfl

/-! With accepted flags the assertion does not fail. -/

variable {f : MappingFlags 64} (hf : debugAssert PTE f = true)
include hf

theorem protect_apply_of_accepted : ∃ acc : List PhysAddr,
    (∀ t ∈ acc, t ∈ nodes child w.mem {self.rootPaddr} (M.LEVELS - 1)) ∧
    self.protect v f w = match seek w.mem self.rootPaddr (vpath M v) with
      | .ok (slot, k) =>
        if isPresent (w.entry slot) then
          (.ok (heightSize k),
            ((w.touch acc).store slot
              (setFlags (w.entry slot) f (heightSize k).isHuge)).queue v)
        else (.err .notMapped, w.touch acc)
      | .error e => (.err e, w.touch acc) := by
  obtain ⟨acc, hacc, heq⟩ := protect_apply hL self v w f
  refine ⟨acc, hacc, ?_⟩
  simp only [flagsPass_of_accepted hf, if_true] at heq
  exact heq

theorem remap_apply_of_accepted (target : PhysAddr) : ∃ acc : List PhysAddr,
    (∀ t ∈ acc, t ∈ nodes child w.mem {self.rootPaddr} (M.LEVELS - 1)) ∧
    self.remap v target f w = match seek w.mem self.rootPaddr (vpath M v) with
      | .ok (slot, k) =>
        (.ok (heightSize k),
          ((w.touch acc).store slot
            (setFlags (setPaddr (w.entry slot) target) f (heightSize k).isHuge)).queue v)
      | .error e => (.err e, w.touch acc) := by
  obtain ⟨acc, hacc, heq⟩ := remap_apply hL self v w target f
  refine ⟨acc, hacc, ?_⟩
  simp only [flagsPass_of_accepted hf, if_true] at heq
  exact heq

theorem protectRegionStep_apply_of_accepted (size : Usize) : ∃ acc : List PhysAddr,
    (∀ t ∈ acc, t ∈ nodes child w.mem {self.rootPaddr} (M.LEVELS - 1)) ∧
    self.protectRegionStep f v size w = match seek w.mem self.rootPaddr (vpath M v) with
      | .ok (slot, k) =>
        assertStep (heightSize k) v size
          (if isPresent (w.entry slot) then
            ((w.touch acc).store slot
              (setFlags (w.entry slot) f (heightSize k).isHuge)).queue v
          else w.touch acc)
      | .error .notMapped => assertStep .size4K v size (w.touch acc)
      | .error e => (.err e, w.touch acc) := by
  obtain ⟨acc, hacc, heq⟩ := protectRegionStep_apply hL self v w f size
  refine ⟨acc, hacc, heq.trans ?_⟩
  simp only [flagsPass_of_accepted hf, if_true]
  rcases seek w.mem self.rootPaddr (vpath M v) with e | ⟨slot, k⟩
  · cases e <;> rfl
  · simp only
    split <;> rfl

end Apply

section Answers

variable (hL : M.LEVELS = 3 ∨ M.LEVELS = 4) (self : PageTable64 B M PTE H) {v : VirtAddr}
  {w : World PTE σ}
include hL

/-- What `query` answers where the walk ends. -/
theorem query_of_seek {slot : Slot} {k : ℕ}
    (h : seek w.mem self.rootPaddr (vpath M v) = .ok (slot, k)) :
    (self.query v w).1 = if isPresent (w.entry slot) then
      .ok (paddr (w.entry slot) + (heightSize k).alignOffset v, flags (w.entry slot), heightSize k)
      else .err .notMapped := by
  obtain ⟨acc, -, heq⟩ := query_apply hL self v w
  rw [heq, h]
  dsimp only
  split <;> rfl

theorem query_of_error {e : PagingError} (h : seek w.mem self.rootPaddr (vpath M v) = .error e) :
    (self.query v w).1 = .err e := by
  obtain ⟨acc, -, heq⟩ := query_apply hL self v w
  rw [heq, h]

end Answers

end PageTableMultiarch
