/-
The supported 64-bit architectures: the pairs of metadata and entry type for which
the crate defines a page table, with the cargo features that change an encoding.
-/
import PageTableMultiarch.Entry.X64
import PageTableMultiarch.Entry.A64
import PageTableMultiarch.Entry.Rv64
import PageTableMultiarch.Entry.La64

namespace PageTableMultiarch

/-- `X64PageTable`, `A64PageTable`, `Sv39PageTable`, `Sv48PageTable` and
`LA64PageTable`. -/
inductive Arch where
  | x64
  | a64 (armEl2 : Bool)
  | sv39 (xuantie : Bool)
  | sv48 (xuantie : Bool)
  | la64
  deriving DecidableEq

namespace Arch

/-- The metadata of an architecture. -/
def metaData : Arch → PagingMetaData
  | x64 => X64PagingMetaData
  | a64 _ => A64PagingMetaData
  | sv39 _ => Sv39MetaData
  | sv48 _ => Sv48MetaData
  | la64 => LA64MetaData

/-- The entry type of an architecture. -/
def PTE : Arch → Type
  | x64 => X64PTE
  | a64 armEl2 => A64PTE armEl2
  | sv39 xuantie => Rv64PTE xuantie
  | sv48 xuantie => Rv64PTE xuantie
  | la64 => LA64PTE

instance : (A : Arch) → GenericPTE 64 A.PTE
  | x64 => inferInstanceAs (GenericPTE 64 X64PTE)
  | a64 armEl2 => inferInstanceAs (GenericPTE 64 (A64PTE armEl2))
  | sv39 xuantie => inferInstanceAs (GenericPTE 64 (Rv64PTE xuantie))
  | sv48 xuantie => inferInstanceAs (GenericPTE 64 (Rv64PTE xuantie))
  | la64 => inferInstanceAs (GenericPTE 64 LA64PTE)

instance : (A : Arch) → LawfulPTE A.metaData A.PTE
  | x64 => inferInstanceAs (LawfulPTE X64PagingMetaData X64PTE)
  | a64 armEl2 => inferInstanceAs (LawfulPTE A64PagingMetaData (A64PTE armEl2))
  | sv39 xuantie => inferInstanceAs (LawfulPTE Sv39MetaData (Rv64PTE xuantie))
  | sv48 xuantie => inferInstanceAs (LawfulPTE Sv48MetaData (Rv64PTE xuantie))
  | la64 => inferInstanceAs (LawfulPTE LA64MetaData LA64PTE)

/-- The entries that point to tables are present everywhere but on LoongArch64. -/
theorem isPresent_newTable {A : Arch} (hA : A ≠ .la64) (p : BitVec 64) :
    GenericPTE.isPresent (GenericPTE.newTable p : A.PTE) = true := by
  cases A with
  | x64 => exact X64PTE.isPresent_newTable p
  | a64 armEl2 => exact A64PTE.isPresent_newTable p
  | sv39 xuantie => exact Rv64PTE.isPresent_newTable p
  | sv48 xuantie => exact Rv64PTE.isPresent_newTable p
  | la64 => exact absurd rfl hA

/-- An entry with new flags is huge only if the flags are accepted. -/
theorem debugAssert_of_isHuge (A : Arch) (e : A.PTE) (f : MappingFlags 64)
    (h : GenericPTE.isHuge (GenericPTE.setFlags e f true) = true) :
    GenericPTE.debugAssert A.PTE f = true := by
  cases A with
  | x64 => rfl
  | a64 armEl2 => rfl
  | sv39 xuantie => exact (Rv64PTE.isHuge_setFlags e f true).symm.trans h
  | sv48 xuantie => exact (Rv64PTE.isHuge_setFlags e f true).symm.trans h
  | la64 => rfl

end Arch

end PageTableMultiarch
