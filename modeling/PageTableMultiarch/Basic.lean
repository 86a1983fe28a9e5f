/-
The vocabulary shared by all page tables: errors, page sizes, mapping flags, the
operating system behind `PagingHandler`, and the computations `Op` in which the
methods are written.

Machine words are bit vectors whose width `w` is the pointer width of the target,
64 for `PageTable64` and 32 for `PageTable32`.  A method is a function from the
state to a result and the next state; a result is a value, a `PagingError`, or a
panic (a failed assertion or checked arithmetic).  On an error or a panic the state
is the one reached so far: nothing is rolled back.
-/
import Mathlib.Data.Nat.Bitwise
import Mathlib.Data.List.Basic
import PageTableMultiarch.Lib.Mask

namespace PageTableMultiarch

/-- The error type for page table operation failures. -/
inductive PagingError where
  | noMemory
  | notAligned
  | notMapped
  | alreadyMapped
  | mappedToHugePage
  deriving DecidableEq, Repr

/-! ### Addresses and page sizes -/

namespace MemoryAddr

variable {w : ℕ}

/-- `memory_addr::align_offset`, for a power of two `align`. -/
def alignOffset (addr align : BitVec w) : BitVec w := addr &&& (align - 1)

/-- `memory_addr::align_down`, for a power of two `align`. -/
def alignDown (addr align : BitVec w) : BitVec w := addr &&& ~~~(align - 1)

/-- `memory_addr::is_aligned`, for a power of two `align`. -/
def isAligned (addr align : BitVec w) : Bool := alignOffset addr align == 0

end MemoryAddr

/-- The page sizes supported by the hardware page table. -/
inductive PageSize where
  | size4K
  | size1M
  | size2M
  | size1G
  deriving DecidableEq, Repr

namespace PageSize

/-- The discriminant of a page size: its number of bytes. -/
def bytes : PageSize → ℕ
  | size4K => 0x1000
  | size1M => 0x100000
  | size2M => 0x200000
  | size1G => 0x40000000

/-- `size as usize`. -/
def toUsize (w : ℕ) (size : PageSize) : BitVec w := BitVec.ofNat w size.bytes

/-- Whether this page size is considered huge (larger than 4K). -/
def isHuge : PageSize → Bool
  | size1G | size2M | size1M => true
  | size4K => false

/-- Checks whether a given address or size is aligned to the page size. -/
def isAligned {w : ℕ} (size : PageSize) (addrOrSize : BitVec w) : Bool :=
  MemoryAddr.isAligned addrOrSize (size.toUsize w)

/-- Returns the offset of the address within the page size. -/
def alignOffset {w : ℕ} (size : PageSize) (addr : BitVec w) : BitVec w :=
  MemoryAddr.alignOffset addr (size.toUsize w)

/-- The binary logarithm of a page size. -/
def log2 : PageSize → ℕ
  | size4K => 12
  | size1M => 20
  | size2M => 21
  | size1G => 30

theorem bytes_eq (size : PageSize) : size.bytes = 2 ^ size.log2 := by cases size <;> rfl

theorem bytes_pos (size : PageSize) : 0 < size.bytes := by cases size <;> decide

theorem log2_lt (size : PageSize) : size.log2 < 32 := by cases size <;> decide

theorem four_k_le_bytes (size : PageSize) : 0x1000 ≤ size.bytes := by cases size <;> decide

theorem four_k_dvd_bytes (size : PageSize) : 0x1000 ∣ size.bytes := by cases size <;> decide

/-- What passes the check of `map_region`. -/
theorem isAligned_of_not {w : ℕ} {pageSize : PageSize} {vaddr size : BitVec w}
    (h : ¬(!pageSize.isAligned vaddr || !pageSize.isAligned size) = true) :
    pageSize.isAligned vaddr = true ∧ pageSize.isAligned size = true := by
  rw [Bool.or_eq_true, not_or, Bool.not_eq_true', Bool.not_eq_true', Bool.not_eq_false,
    Bool.not_eq_false] at h
  exact h

end PageSize

/-- A power of two minus one, as a word. -/
theorem toNat_two_pow_sub_one {w k : ℕ} (hk : k < w) :
    (BitVec.ofNat w (2 ^ k) - 1).toNat = 2 ^ k - 1 := by
  have hlt : 2 ^ k < 2 ^ w := Nat.pow_lt_pow_right (by decide) hk
  have hpos : 0 < 2 ^ k := Nat.two_pow_pos k
  have hone : (1 : BitVec w).toNat = 1 := by
    rw [show (1 : BitVec w) = BitVec.ofNat w 1 from rfl, BitVec.toNat_ofNat,
      Nat.mod_eq_of_lt (by omega)]
  rw [BitVec.toNat_sub_of_le, BitVec.toNat_ofNat, Nat.mod_eq_of_lt hlt, hone]
  rw [BitVec.le_def, hone, BitVec.toNat_ofNat, Nat.mod_eq_of_lt hlt]
  exact hpos

namespace PageSize

variable {w : ℕ}

theorem toNat_toUsize (hw : 32 ≤ w) (size : PageSize) : (size.toUsize w).toNat = size.bytes := by
  have := size.log2_lt
  rw [toUsize, BitVec.toNat_ofNat, bytes_eq, Nat.mod_eq_of_lt]
  exact Nat.pow_lt_pow_right (by decide) (by omega)

theorem toNat_alignOffset (hw : 32 ≤ w) (size : PageSize) (addr : BitVec w) :
    (size.alignOffset addr).toNat = addr.toNat % size.bytes := by
  have := size.log2_lt
  rw [alignOffset, MemoryAddr.alignOffset, toUsize, bytes_eq, BitVec.toNat_and,
    toNat_two_pow_sub_one (by omega), Nat.and_two_pow_sub_one_eq_mod]

theorem isAligned_iff (hw : 32 ≤ w) (size : PageSize) (addr : BitVec w) :
    size.isAligned addr = true ↔ addr.toNat % size.bytes = 0 := by
  rw [← toNat_alignOffset hw, isAligned, MemoryAddr.isAligned, ← alignOffset, beq_iff_eq]
  constructor
  · intro h
    rw [h]
    rfl
  · intro h
    exact BitVec.eq_of_toNat_eq (by rw [h]; rfl)

/-- `align_down` rounds to the next multiple below. -/
theorem toNat_alignDown (hw : 32 ≤ w) (size : PageSize) (addr : BitVec w) :
    (MemoryAddr.alignDown addr (size.toUsize w)).toNat
      = addr.toNat - addr.toNat % size.bytes := by
  have hsplit : MemoryAddr.alignDown addr (size.toUsize w) + size.alignOffset addr = addr := by
    rw [MemoryAddr.alignDown, alignOffset, MemoryAddr.alignOffset, BitVec.add_eq_or_of_and_eq_zero,
      ← BitVec.and_or_distrib_left]
    · simp
    · ext i hi
      simp only [BitVec.getElem_and, BitVec.getElem_not, BitVec.getElem_zero]
      cases addr[i] <;> simp
  have hle : (MemoryAddr.alignDown addr (size.toUsize w)).toNat ≤ addr.toNat := by
    rw [MemoryAddr.alignDown, BitVec.toNat_and]
    exact Nat.and_le_left
  have hnat := congrArg BitVec.toNat hsplit
  have hoff := toNat_alignOffset hw size addr
  have := addr.isLt
  rw [BitVec.toNat_add] at hnat
  rw [← hoff]
  have hmod := Nat.mod_le addr.toNat size.bytes
  rcases Nat.lt_or_ge ((MemoryAddr.alignDown addr (size.toUsize w)).toNat
      + (size.alignOffset addr).toNat) (2 ^ w) with h | h
  · rw [Nat.mod_eq_of_lt h] at hnat
    omega
  · rw [Nat.mod_eq_sub_mod h, Nat.mod_eq_of_lt (by omega)] at hnat
    omega

end PageSize

/-! ### Mapping flags -/

/-- Generic page table entry flags: the bit set `MappingFlags` over `usize`. -/
structure MappingFlags (w : ℕ) where
  bits : BitVec w
  deriving DecidableEq

namespace MappingFlags

variable {w : ℕ}

def empty : MappingFlags w := ⟨0⟩
def READ : MappingFlags w := ⟨1 <<< 0⟩
def WRITE : MappingFlags w := ⟨1 <<< 1⟩
def EXECUTE : MappingFlags w := ⟨1 <<< 2⟩
def USER : MappingFlags w := ⟨1 <<< 3⟩
def DEVICE : MappingFlags w := ⟨1 <<< 4⟩
def UNCACHED : MappingFlags w := ⟨1 <<< 5⟩

instance : OrOp (MappingFlags w) := ⟨fun f g => ⟨f.bits ||| g.bits⟩⟩

def isEmpty (f : MappingFlags w) : Bool := f.bits == 0

/-- All bits of `g` are set in `f`. -/
def contains (f g : MappingFlags w) : Bool := f.bits &&& g.bits == g.bits

/-- `if c { ret |= g }`. -/
def when (c : Bool) (g : MappingFlags w) : MappingFlags w := bif c then g else empty

theorem isEmpty_of_contains_read {f : MappingFlags 64} (h : f.contains READ = true) :
    f.isEmpty = false := by
  rw [isEmpty, beq_eq_false_iff_ne]
  intro h0
  rw [contains, h0] at h
  exact absurd h (by decide)

end MappingFlags

/-- `if c { bits |= b }`, on raw bits. -/
def when {w : ℕ} (c : Bool) (b : BitVec w) : BitVec w := bif c then b else 0

/-- `contains` of the bit sets of the architectures, on raw bits. -/
def hasBits {w : ℕ} (x b : BitVec w) : Bool := x &&& b == b

/-- `intersects` of the bit sets of the architectures, on raw bits. -/
def meetsBits {w : ℕ} (x b : BitVec w) : Bool := x &&& b != 0

section

variable {w : ℕ} {a mask all c : BitVec w}

/-- Truncating `a ||| (p &&& mask)` to the known bits and testing bits outside the
address mask is testing `a`. -/
theorem and_field (ha : a &&& mask = 0) (hm : mask &&& c = 0) (hall : all &&& c = c)
    (p : BitVec w) : ((a ||| (p &&& mask)) &&& all) &&& c = a &&& c := by
  rw [BitVec.and_assoc, hall, ← Mask.and_of_disjoint hm, Mask.or_and_not ha]

/-- Replacing the address field leaves a test of other bits as it was. -/
theorem and_set_field (hm : mask &&& c = 0) (hall : all &&& c = c) (e p : BitVec w) :
    (((e &&& ~~~mask) ||| (p &&& mask)) &&& all) &&& c = (e &&& all) &&& c := by
  rw [and_field (Mask.and_not_and e mask) hm hall, Mask.and_of_disjoint hm, BitVec.and_assoc, hall]

theorem hasBits_field (ha : a &&& mask = 0) (hm : mask &&& c = 0) (hall : all &&& c = c)
    (p : BitVec w) : hasBits ((a ||| (p &&& mask)) &&& all) c = hasBits a c := by
  rw [hasBits, and_field ha hm hall, ← hasBits]

theorem meetsBits_field (ha : a &&& mask = 0) (hm : mask &&& c = 0) (hall : all &&& c = c)
    (p : BitVec w) : meetsBits ((a ||| (p &&& mask)) &&& all) c = meetsBits a c := by
  rw [meetsBits, and_field ha hm hall, ← meetsBits]

end

/-! ### Page table entries, metadata, handlers -/

/-- A generic page table entry.  `empty` is the entry whose bits are all zero, and
`debugAssert` is the condition that `new_page` and `set_flags` check with
`debug_assert!` (`true` where they check nothing). -/
class GenericPTE (w : outParam ℕ) (PTE : Type) where
  newPage : BitVec w → MappingFlags w → Bool → PTE
  newTable : BitVec w → PTE
  paddr : PTE → BitVec w
  flags : PTE → MappingFlags w
  setPaddr : PTE → BitVec w → PTE
  setFlags : PTE → MappingFlags w → Bool → PTE
  isUnused : PTE → Bool
  isPresent : PTE → Bool
  isHuge : PTE → Bool
  clear : PTE → PTE
  empty : PTE
  debugAssert : MappingFlags w → Bool

/-- The architecture-dependent metadata. -/
structure PagingMetaData where
  LEVELS : ℕ
  PA_MAX_BITS : ℕ
  VA_MAX_BITS : ℕ
  deriving DecidableEq

/-- The maximum physical address. -/
def PagingMetaData.PA_MAX_ADDR (M : PagingMetaData) : ℕ := 2 ^ M.PA_MAX_BITS - 1

/-- `vaddr_is_valid`: the top bits are sign extended. -/
def PagingMetaData.vaddrIsValid {w : ℕ} (M : PagingMetaData) (vaddr : BitVec w) : Bool :=
  let topMask := BitVec.allOnes w <<< (M.VA_MAX_BITS - 1)
  vaddr &&& topMask == 0 || vaddr &&& topMask == topMask

/-- How the crate was compiled: whether `debug_assert!` is evaluated and whether
arithmetic overflow panics (it wraps otherwise). -/
structure Build where
  debugAssertions : Bool
  overflowChecks : Bool
  deriving DecidableEq

/-- The OS-dependent helpers, with the state `σ` of the operating system. -/
structure PagingHandler (w : ℕ) (σ : Type) where
  allocFrame : σ → Option (BitVec w) × σ
  allocFrames : σ → ℕ → ℕ → Option (BitVec w) × σ
  deallocFrame : σ → BitVec w → σ
  deallocFrames : σ → BitVec w → ℕ → σ

/-- Pending TLB invalidations of a cursor. -/
inductive TlbFlusher (w : ℕ) where
  | none
  | array (addrs : List (BitVec w))
  | full
  deriving DecidableEq

def SMALL_FLUSH_THRESHOLD : ℕ := 32

/-- `PageTable64Cursor::push` and `PageTable32Cursor::push`. -/
def TlbFlusher.push {w : ℕ} (flusher : TlbFlusher w) (vaddr : BitVec w) : TlbFlusher w :=
  match flusher with
  | .none => .array [vaddr]
  | .array arr => if arr.length < SMALL_FLUSH_THRESHOLD then .array (arr ++ [vaddr]) else .full
  | .full => .full

/-- The arguments of the calls of `M::flush_tlb` that a flush makes. -/
def TlbFlusher.calls {w : ℕ} (flusher : TlbFlusher w) : List (Option (BitVec w)) :=
  match flusher with
  | .none => []
  | .array addrs => addrs.map some
  | .full => [Option.none]

/-! ### Computations -/

/-- The result of a call: a value, an error, or a panic. -/
inductive Res (α : Type) where
  | ok (a : α)
  | err (e : PagingError)
  | panic
  deriving DecidableEq

/-- A method acting on states `S`. -/
def Op (S α : Type) : Type := S → Res α × S

namespace Op

variable {S α β : Type}

instance : Monad (Op S) where
  pure a := fun w => (.ok a, w)
  bind x f := fun w =>
    match x w with
    | (.ok a, w') => f a w'
    | (.err e, w') => (.err e, w')
    | (.panic, w') => (.panic, w')

/-- `return Err(e)`. -/
def throw (e : PagingError) : Op S α := fun w => (.err e, w)

def panic : Op S α := fun w => (.panic, w)

/-- `assert!(c)`. -/
def assert (c : Bool) : Op S Unit := if c then pure () else panic

def modify (f : S → S) : Op S Unit := fun w => (.ok (), f w)

/-- The `?` operator on a result that does not depend on the state. -/
def ofResult : Except PagingError α → Op S α
  | .ok a => pure a
  | .error e => throw e

@[simp] theorem pure_apply (a : α) (w : S) : (pure a : Op S α) w = (.ok a, w) := rfl

theorem bind_apply (x : Op S α) (f : α → Op S β) (w : S) :
    (x >>= f) w = match x w with
      | (.ok a, w') => f a w'
      | (.err e, w') => (.err e, w')
      | (.panic, w') => (.panic, w') := rfl

@[simp] theorem throw_apply (e : PagingError) (w : S) : (throw e : Op S α) w = (.err e, w) := rfl

@[simp] theorem panic_apply (w : S) : (panic : Op S α) w = (.panic, w) := rfl

@[simp] theorem modify_apply (f : S → S) (w : S) : modify f w = (.ok (), f w) := rfl

theorem bind_ok {x : Op S α} {f : α → Op S β} {w w' : S} {a : α} (h : x w = (.ok a, w')) :
    (x >>= f) w = f a w' := by rw [bind_apply, h]

theorem bind_err {x : Op S α} {f : α → Op S β} {w w' : S} {e : PagingError}
    (h : x w = (.err e, w')) : (x >>= f) w = (.err e, w') := by rw [bind_apply, h]

theorem bind_fst_err {x : Op S α} {f : α → Op S β} {w : S} {e : PagingError}
    (h : (x w).1 = .err e) : ((x >>= f) w).1 = .err e := by
  rw [bind_err (Prod.ext h rfl)]

theorem bind_panic {x : Op S α} {f : α → Op S β} {w w' : S} (h : x w = (.panic, w')) :
    (x >>= f) w = (.panic, w') := by rw [bind_apply, h]

/-- What returns has returned before. -/
theorem ok_of_bind {x : Op S α} {f : α → Op S β} {w : S} {b : β} (h : ((x >>= f) w).1 = .ok b) :
    ∃ a w', x w = (.ok a, w') ∧ (f a w').1 = .ok b := by
  rcases hx : x w with ⟨a | e | _, w'⟩
  · rw [bind_ok hx] at h
    exact ⟨a, w', rfl, h⟩
  · rw [bind_err hx] at h
    exact absurd h (by simp)
  · rw [bind_panic hx] at h
    exact absurd h (by simp)

/-- The values that a computation may return. -/
def Returns (P : α → Prop) (x : Op S α) : Prop := ∀ w a w', x w = (.ok a, w') → P a

theorem Returns.pure {P : α → Prop} {a : α} (h : P a) : Returns P (Pure.pure a : Op S α) :=
  fun _ _ _ heq => Res.ok.inj (Prod.mk.inj heq).1 ▸ h

theorem Returns.bind {P : β → Prop} {x : Op S α} {f : α → Op S β} (hf : ∀ a, Returns P (f a)) :
    Returns P (x >>= f) := by
  intro w b w' h
  rw [bind_apply] at h
  split at h
  · exact hf _ _ _ _ h
  · nomatch h
  · nomatch h

/-- A relation between states that is kept by both parts of a computation and is
transitive is kept by the whole. -/
theorem bind_rel {r : S → S → Prop} (htrans : ∀ {a b c}, r a b → r b c → r a c)
    {x : Op S α} {f : α → Op S β} {w : S} (hx : r w (x w).2)
    (hf : ∀ a w', x w = (.ok a, w') → r w' (f a w').2) : r w ((x >>= f) w).2 := by
  rw [bind_apply]
  rcases hxw : x w with ⟨a | e | _, w'⟩ <;> rw [hxw] at hx
  · exact htrans hx (hf a w' hxw)
  · exact hx
  · exact hx

end Op

end PageTableMultiarch
