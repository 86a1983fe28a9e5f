/-
Entries that are given the flags they are read with.

`set_flags` keeps the address field of an entry and makes all other bits anew, so an entry that
gets the flags read from it stays as it is only if these flags make the same bits.

* `MadeWith.setFlags_flags_iff` — only the bits of the flags count;
* `pageBits_normalise` — on x86_64, AArch64 and LoongArch64 they are always the same;
* `Rv64PTE.ofMappingFlags_normalise_iff` — on RISC-V they are unless the entry has the memory type
  of a device of XuanTie cores, which the flags that are read do not tell;
* `Arch.setFlags_flags_iff` — the condition for every architecture.
-/
import PageTableMultiarch.Entry.Fields

namespace PageTableMultiarch

open GenericPTE

/-- An entry that is stored for a page with these flags, when it is mapped or protected. -/
def MadeWith {PTE : Type} [GenericPTE 64 PTE] (f : MappingFlags 64) (h : Bool) (e : PTE) : Prop :=
  (∃ p, e = newPage p f h) ∨ ∃ e₀, e = setFlags e₀ f h

variable {f : MappingFlags 64} {h : Bool}

section Fields

open FieldEncoded

variable {PTE : Type} [GenericPTE 64 PTE] {e : PTE}

theorem MadeWith.flags_eq (M : PagingMetaData) [LawfulPTE M PTE] (he : MadeWith f h e) :
    flags e = normalise PTE f := by
  obtain ⟨p, rfl⟩ | ⟨e₀, rfl⟩ := he
  · exact LawfulPTE.flags_newPage M p f h
  · exact LawfulPTE.flags_setFlags M e₀ f h

variable [FieldEncoded PTE]

/-- The flag bits of such an entry are those of its flags. -/
theorem MadeWith.exists_ofBits (he : MadeWith f h e) :
    ∃ x, e = ofBits (pageBits PTE f h ||| (x &&& mask PTE)) := by
  obtain ⟨p, rfl⟩ | ⟨e₀, rfl⟩ := he
  · exact ⟨place PTE p, newPage_eq p f h⟩
  · refine ⟨bits e₀, ?_⟩
    rw [setFlags_eq, BitVec.or_comm]

/-- The address field is kept, so only the flag bits are compared. -/
theorem MadeWith.setFlags_flags_iff (M : PagingMetaData) [LawfulPTE M PTE]
    (he : MadeWith f h e) : setFlags e (flags e) h = e ↔
      pageBits PTE (normalise PTE f) h = pageBits PTE f h := by
  rw [he.flags_eq M]
  obtain ⟨x, rfl⟩ := he.exists_ofBits
  rw [setFlags_eq, bits_ofBits, ofBits_injective.eq_iff]
  exact Mask.field_or_eq_iff (pageBits_and_mask f h) (pageBits_and_mask _ h) x

end Fields

/-! ### The bits of the flags that are read -/

/-- The flags that are read make the same bits. -/
theorem X64PTE.pageBits_normalise (hf : f.contains .READ = true) (h : Bool) :
    pageBits (normalise X64PTE f) h = pageBits f h := by
  rw [normalise_eq]
  simp only [pageBits, PTF.ofMappingFlags, normalForm, MappingFlags.isEmpty_of_contains_read hf]
  generalize f.contains .WRITE = w, f.contains .EXECUTE = x, f.contains .USER = u,
    f.contains .DEVICE = d, f.contains .UNCACHED = n
  revert w x u d n h
  decide

theorem A64PTE.pageBits_normalise (armEl2 : Bool) (hf : f.contains .READ = true) (h : Bool) :
    pageBits armEl2 (normalise (A64PTE armEl2) f) h = pageBits armEl2 f h := by
  rw [normalise_eq]
  simp only [pageBits, A64Attr.ofMappingFlags, normalForm, hf,
    MappingFlags.isEmpty_of_contains_read hf]
  generalize f.contains .WRITE = w, f.contains .EXECUTE = x, f.contains .USER = u,
    f.contains .DEVICE = d, f.contains .UNCACHED = n
  revert armEl2 w x u d n h
  decide

theorem LA64PTE.pageBits_normalise (hf : f.contains .READ = true) (h : Bool) :
    pageBits (normalise LA64PTE f) h = pageBits f h := by
  rw [normalise_eq]
  simp only [pageBits, LaFlags.ofMappingFlags, normalForm, hf,
    MappingFlags.isEmpty_of_contains_read hf]
  generalize f.contains .WRITE = w, f.contains .EXECUTE = x, f.contains .USER = u,
    f.contains .DEVICE = d, f.contains .UNCACHED = n
  revert w x u d n h
  decide

namespace Rv64PTE

variable {xuantie : Bool}

/-- The memory type of a device on XuanTie cores. -/
def stronglyOrdered (e : Rv64PTE xuantie) : Bool := xuantie && hasBits e.bits RvFlags.SO

/-- The flags that are read make the same bits, but for the memory type of a device. -/
theorem ofMappingFlags_normalise (hf : f.contains .READ = true) :
    RvFlags.ofMappingFlags xuantie (normalise (Rv64PTE xuantie) f) =
        RvFlags.ofMappingFlags xuantie f ↔
      (xuantie && hasBits (RvFlags.ofMappingFlags xuantie f) RvFlags.SO) = false := by
  rw [normalise_eq]
  simp only [RvFlags.ofMappingFlags, normalForm, hf, MappingFlags.isEmpty_of_contains_read hf]
  generalize f.contains .WRITE = w, f.contains .EXECUTE = x, f.contains .USER = u,
    f.contains .DEVICE = d
  revert xuantie w x u d
  decide

/-- The memory type lies outside the address field. -/
theorem stronglyOrdered_of_madeWith {e : Rv64PTE xuantie} (he : MadeWith f h e) :
    stronglyOrdered e = (xuantie && hasBits (RvFlags.ofMappingFlags xuantie f) RvFlags.SO) := by
  have hdisjoint : PHYS_ADDR_MASK &&& RvFlags.SO = 0 := by decide
  obtain ⟨x, rfl⟩ := he.exists_ofBits
  show (xuantie && hasBits (RvFlags.ofMappingFlags xuantie f ||| (x &&& PHYS_ADDR_MASK))
    RvFlags.SO) = _
  rw [hasBits, hasBits, ← Mask.and_of_disjoint hdisjoint,
    Mask.or_and_not (ofMappingFlags_and_mask f)]

theorem ofMappingFlags_normalise_iff {e : Rv64PTE xuantie} (hf : f.contains .READ = true)
    (he : MadeWith f h e) :
    RvFlags.ofMappingFlags xuantie (normalise (Rv64PTE xuantie) f) =
      RvFlags.ofMappingFlags xuantie f ↔ stronglyOrdered e = false := by
  rw [stronglyOrdered_of_madeWith he]
  exact ofMappingFlags_normalise hf

end Rv64PTE

/-- The flags that are read are accepted. -/
theorem Rv64PTE.debugAssert_normalise {xuantie : Bool} (hf : f.contains .READ = true) :
    debugAssert (Rv64PTE xuantie) (normalise (Rv64PTE xuantie) f) = true := by
  have hread : (Rv64PTE.normalForm f).contains .READ = true := by
    rw [Rv64PTE.contains_read_normalForm, MappingFlags.isEmpty_of_contains_read hf, hf]
    rfl
  rw [Rv64PTE.normalise_eq]
  exact LawfulPTE.read_accepted Sv39MetaData hread

namespace Arch

theorem debugAssert_normalise (arch : Arch) (hf : f.contains .READ = true) :
    debugAssert arch.PTE (normalise arch.PTE f) = true := by
  cases arch with
  | x64 => rfl
  | a64 armEl2 => rfl
  | sv39 xuantie => exact Rv64PTE.debugAssert_normalise hf
  | sv48 xuantie => exact Rv64PTE.debugAssert_normalise hf
  | la64 => rfl

/-- The entry has the memory type of a device of XuanTie cores. -/
def stronglyOrdered : (arch : Arch) → arch.PTE → Bool
  | .sv39 _, e => Rv64PTE.stronglyOrdered e
  | .sv48 _, e => Rv64PTE.stronglyOrdered e
  | _, _ => false

/-- An entry made with `READ` that gets the flags it is read with stays as it is, unless it has
the memory type of a device of XuanTie cores. -/
theorem setFlags_flags_iff (arch : Arch) {e : arch.PTE} (hf : f.contains .READ = true)
    (he : MadeWith f h e) : setFlags e (flags e) h = e ↔ arch.stronglyOrdered e = false := by
  rw [he.setFlags_flags_iff arch.metaData]
  cases arch with
  | x64 => exact iff_of_true (X64PTE.pageBits_normalise hf h) rfl
  | a64 armEl2 => exact iff_of_true (A64PTE.pageBits_normalise armEl2 hf h) rfl
  | sv39 xuantie => exact Rv64PTE.ofMappingFlags_normalise_iff hf he
  | sv48 xuantie => exact Rv64PTE.ofMappingFlags_normalise_iff hf he
  | la64 => exact iff_of_true (LA64PTE.pageBits_normalise hf h) rfl

end Arch

end PageTableMultiarch
