/-
What `PageTable64` needs of its entry type.

`LawfulPTE M PTE` collects the facts about an encoding on which the tree structure
rests: a zero entry is unused, absent and without address; a table entry gives back
the frame it was made from and is not huge; a page entry above the last level is
huge, whatever is done to its address and flags; an address survives a change of
flags.  The instances are in the files of the architectures.
-/
import PageTableMultiarch.Basic

namespace PageTableMultiarch

open GenericPTE

/-- A frame that an allocator may hand out: 4K-aligned, not zero, addressable. -/
structure ValidFrame (M : PagingMetaData) (p : BitVec 64) : Prop where
  aligned : p.toNat % 0x1000 = 0
  ne_zero : p ≠ 0
  le : p.toNat ≤ M.PA_MAX_ADDR

section

variable (PTE : Type) [GenericPTE 64 PTE]

/-- The flags read back from a page entry made with the given flags. -/
def normalise (f : MappingFlags 64) : MappingFlags 64 := flags (newPage 0 f false : PTE)

/-- Whether an entry made with the given flags is present. -/
def presentWith (f : MappingFlags 64) : Bool := isPresent (newPage 0 f false : PTE)

end

/-- The laws of an entry type under the metadata `M`. -/
class LawfulPTE (M : PagingMetaData) (PTE : Type) [GenericPTE 64 PTE] : Prop where
  levels : M.LEVELS = 3 ∨ M.LEVELS = 4
  pa_bits : M.PA_MAX_BITS ≤ 56
  isUnused_iff (e : PTE) : isUnused e = true ↔ e = empty
  clear_eq (e : PTE) : clear e = empty
  paddr_empty : paddr (empty : PTE) = 0
  isPresent_empty : isPresent (empty : PTE) = false
  paddr_newTable {p : BitVec 64} : ValidFrame M p → paddr (newTable p : PTE) = p
  isHuge_newTable (p : BitVec 64) : isHuge (newTable p : PTE) = false
  isHuge_newPage (p : BitVec 64) {f : MappingFlags 64} :
    debugAssert PTE f = true → isHuge (newPage p f true : PTE) = true
  isHuge_setFlags (e : PTE) {f : MappingFlags 64} :
    debugAssert PTE f = true → isHuge (setFlags e f true) = true
  isHuge_setPaddr (e : PTE) (p : BitVec 64) : isHuge (setPaddr e p) = isHuge e
  paddr_le (e : PTE) : (paddr e).toNat ≤ M.PA_MAX_ADDR
  paddr_newPage {p : BitVec 64} (f : MappingFlags 64) (h : Bool) : p.toNat ≤ M.PA_MAX_ADDR →
    paddr (newPage p f h : PTE) = MemoryAddr.alignDown p (PageSize.size4K.toUsize 64)
  paddr_setPaddr (e : PTE) {p : BitVec 64} : p.toNat ≤ M.PA_MAX_ADDR →
    paddr (setPaddr e p) = MemoryAddr.alignDown p (PageSize.size4K.toUsize 64)
  paddr_setFlags (e : PTE) (f : MappingFlags 64) (h : Bool) : paddr (setFlags e f h) = paddr e
  flags_newPage (p : BitVec 64) (f : MappingFlags 64) (h : Bool) :
    flags (newPage p f h : PTE) = normalise PTE f
  flags_setFlags (e : PTE) (f : MappingFlags 64) (h : Bool) :
    flags (setFlags e f h) = normalise PTE f
  isPresent_newPage (p : BitVec 64) (f : MappingFlags 64) (h : Bool) :
    isPresent (newPage p f h : PTE) = presentWith PTE f
  isPresent_setFlags (e : PTE) (f : MappingFlags 64) (h : Bool) :
    isPresent (setFlags e f h) = presentWith PTE f
  read_accepted {f : MappingFlags 64} : f.contains .READ = true → debugAssert PTE f = true
  presentWith_read {f : MappingFlags 64} : f.contains .READ = true → presentWith PTE f = true

/-! ### Masked physical addresses -/

section Mask

variable {mask : BitVec 64} {n : ℕ}

/-- Masking keeps the 4K-aligned part of an address that fits. -/
theorem and_mask_eq_alignDown (hn : 12 ≤ n) (hmask : mask.toNat = 2 ^ n - 2 ^ 12) {p : BitVec 64}
    (hp : p.toNat ≤ 2 ^ n - 1) :
    p &&& mask = MemoryAddr.alignDown p (PageSize.size4K.toUsize 64) := by
  have := Nat.two_pow_pos n
  apply BitVec.eq_of_toNat_eq
  rw [Mask.toNat_and_of_lt hn hmask (by omega), PageSize.toNat_alignDown (by decide),
    PageSize.bytes_eq]
  rfl

theorem ValidFrame.and_mask {M : PagingMetaData} {p : BitVec 64} (hp : ValidFrame M p)
    (hn : 12 ≤ M.PA_MAX_BITS) (hmask : mask.toNat = 2 ^ M.PA_MAX_BITS - 2 ^ 12) :
    p &&& mask = p := by
  rw [and_mask_eq_alignDown hn hmask hp.le]
  apply BitVec.eq_of_toNat_eq
  rw [PageSize.toNat_alignDown (by decide)]
  have := hp.aligned
  simp only [PageSize.bytes]
  omega

theorem toNat_and_mask_le (hmask : mask.toNat = 2 ^ n - 2 ^ 12) (x : BitVec 64) :
    (x &&& mask).toNat ≤ 2 ^ n - 1 := by
  rw [BitVec.toNat_and, hmask]
  exact Nat.and_le_right.trans (by omega)

end Mask

end PageTableMultiarch
