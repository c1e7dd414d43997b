import Kvi.Acpi.Tables

/-! The power management timer.

`pmt_get_count` reads the port that `acpi_pmt_init` took from the FADT. The table
declares one in `x_pm_tmr_blk`, or in `pm_tmr_blk` where that field is missing or no
use. `acpi_pmt_init` wants one byte more than the first of them needs, and has
`pm1a_cnt_blk`, the control block, for the second; `port_declared_iff` is what it
comes to. -/
namespace Kvi.Timer
open Acpi

/-- `pmt_get_count`, with what a port answers: the ports read, and the value returned. -/
def pmtGetCount (iobase : Nat) (in32 : Nat → Nat) : List Nat × Nat :=
  if iobase = 0 then ([], 2 ^ 64 - 1) else ([iobase], u32 (in32 iobase) &&& 0xffffff)

/-! ### The fields of the FADT -/

def fadtLength (m : Memory) (fadt : Nat) : Nat := field m fadt 4 4
def pm1aCntBlk (m : Memory) (fadt : Nat) : Nat := field m fadt 64 4
def pmTmrBlk (m : Memory) (fadt : Nat) : Nat := field m fadt 76 4
def xPmTmrBlkAddress (m : Memory) (fadt : Nat) : Nat := field m fadt 212 8

/-- `x_pm_tmr_blk` names a port. -/
def XPort (m : Memory) (fadt : Nat) : Prop :=
  field m fadt 208 1 = ADDRESS_SPACE_ID_IO ∧ xPmTmrBlkAddress m fadt ≤ 0xfff

instance (m : Memory) (fadt : Nat) : Decidable (XPort m fadt) := inferInstanceAs (Decidable (_ ∧ _))

/-- The block the table declares, `0` for none. A field counts if the table contains all of it. -/
def declared (m : Memory) (fadt : Nat) : Nat :=
  if 208 + 12 ≤ fadtLength m fadt ∧ XPort m fadt then xPmTmrBlkAddress m fadt
  else if 76 + 4 ≤ fadtLength m fadt then pmTmrBlk m fadt
  else 0

/-- Where another field than the declared one is taken, the port is the same. -/
structure Coincides (m : Memory) (fadt : Nat) : Prop where
  whole : fadtLength m fadt = 220 → XPort m fadt → u16 (pm1aCntBlk m fadt) = xPmTmrBlkAddress m fadt
  plain : ¬ (220 ≤ fadtLength m fadt ∧ XPort m fadt) → 80 ≤ fadtLength m fadt →
    u16 (pm1aCntBlk m fadt) = pmTmrBlk m fadt
  short : 68 < fadtLength m fadt → fadtLength m fadt < 80 → u16 (pm1aCntBlk m fadt) = 0

variable {m : Memory} {fadt : Nat} {s s' : Globals}

/-- The port of `pmt_get_count` is that of the table `acpi_init` found. -/
theorem acpiInit_pmtIobase (h : acpiInit m s = some (s', none)) : s'.pmtIobase = acpiPmtInit m s'.fadt := by
  have hfound : Found m := by
    by_contra hno
    obtain ⟨t, e, ht, _⟩ := acpiInit_gaveUp s hno
    rw [ht] at h
    cases (Prod.mk.inj (Option.some.inj h)).2
  rw [acpiInit] at h
  dsimp only at h
  rw [if_neg hfound.rsdp, if_neg (not_and_or.mpr hfound.lists), if_neg (hfound.tables FADT_SIG (by decide)),
    if_neg (hfound.tables MADT_SIG (by decide)), if_neg (hfound.tables HPET_SIG (by decide))] at h
  obtain ⟨l, _, heq⟩ := Option.bind_eq_some_iff.mp h
  rw [← (Prod.mk.inj (Option.some.inj heq)).1]

theorem pmtGetCount_inj {p q : Nat} :
    (∀ in32, pmtGetCount p in32 = pmtGetCount q in32) ↔ p = q := by
  constructor
  · intro h
    have hreads : (pmtGetCount p fun _ => 0).1 = (pmtGetCount q fun _ => 0).1 := by rw [h]
    unfold pmtGetCount at hreads
    by_cases hp : p = 0 <;> by_cases hq : q = 0
    · rw [hp, hq]
    · rw [if_pos hp, if_neg hq] at hreads
      cases hreads
    · rw [if_neg hp, if_pos hq] at hreads
      cases hreads
    · rw [if_neg hp, if_neg hq] at hreads
      exact List.singleton_inj.mp hreads
  · intro h in32
    rw [h]

theorem acpiPmtInit_eq : acpiPmtInit m fadt =
    if 220 < fadtLength m fadt ∧ XPort m fadt then xPmTmrBlkAddress m fadt
    else if 68 < fadtLength m fadt then u16 (pm1aCntBlk m fadt) else 0 := by
  unfold acpiPmtInit XPort
  by_cases h : 220 < fadtLength m fadt ∧ XPort m fadt
  · have haddr : u16 (xPmTmrBlkAddress m fadt) = xPmTmrBlkAddress m fadt :=
      Nat.mod_eq_of_lt (Nat.lt_of_le_of_lt h.2.2 (by decide))
    exact (if_pos h).trans (haddr.trans (if_pos h).symm)
  · exact (if_neg h).trans (if_neg h).symm

theorem acpiPmtInit_declared : acpiPmtInit m fadt = declared m fadt ↔ Coincides m fadt := by
  rw [acpiPmtInit_eq, declared]
  by_cases hlong : 220 < fadtLength m fadt ∧ XPort m fadt
  · rw [if_pos hlong, if_pos ⟨Nat.le_of_lt hlong.1, hlong.2⟩]
    refine iff_of_true rfl ⟨?_, ?_, ?_⟩
    · intro heq
      omega
    · intro hno
      exact absurd ⟨Nat.le_of_lt hlong.1, hlong.2⟩ hno
    · omega
  rw [if_neg hlong]
  by_cases hx : 220 ≤ fadtLength m fadt ∧ XPort m fadt
  · -- the field ends where the table does
    have heq : fadtLength m fadt = 220 := by
      have hle : ¬ 220 < fadtLength m fadt := fun h => hlong ⟨h, hx.2⟩
      omega
    rw [if_pos (by omega), if_pos hx]
    refine ⟨fun h => ⟨fun _ _ => h, fun hno => absurd hx hno, by omega⟩, fun h => h.whole heq hx.2⟩
  rw [if_neg hx]
  have hexact : ∀ P : Prop, fadtLength m fadt = 220 → XPort m fadt → P :=
    fun P heq hp => absurd ⟨heq.ge, hp⟩ hx
  by_cases hplain : 80 ≤ fadtLength m fadt
  · rw [if_pos (by omega), if_pos hplain]
    exact ⟨fun h => ⟨hexact _, fun _ _ => h, by omega⟩, fun h => h.plain hx hplain⟩
  · rw [if_neg hplain]
    by_cases hshort : 68 < fadtLength m fadt
    · rw [if_pos hshort]
      exact ⟨fun h => ⟨hexact _, fun _ hle => absurd hle hplain, fun _ _ => h⟩,
        fun h => h.short hshort (by omega)⟩
    · rw [if_neg hshort]
      exact iff_of_true rfl ⟨hexact _, fun _ hle => absurd hle hplain, fun hlt => absurd hlt hshort⟩

/-- `pmt_get_count` reads the declared port, and reports -1 where none is declared, if and only if the
field that `acpi_pmt_init` goes by has the same port. -/
theorem port_declared_iff :
    (∀ in32, pmtGetCount (acpiPmtInit m fadt) in32 =
      if declared m fadt = 0 then ([], 2 ^ 64 - 1)
      else ([declared m fadt], u32 (in32 (declared m fadt)) &&& 0xffffff)) ↔ Coincides m fadt :=
  pmtGetCount_inj.trans acpiPmtInit_declared

/-- A table of 116 bytes with `pm1a_cnt_blk` 0x404 and `pm_tmr_blk` 0x408. -/
def shortFadt : Memory := fun a =>
  if a = 0x1004 then 116
  else if a = 0x1040 ∨ a = 0x1041 ∨ a = 0x104d then 4
  else if a = 0x104c then 8
  else 0

/-- The control block is read. -/
theorem control_block_read : declared shortFadt 0x1000 = 0x408 ∧
    pmtGetCount (acpiPmtInit shortFadt 0x1000) (fun p => p) = ([0x404], 0x404) := by
  decide +kernel

end Kvi.Timer
