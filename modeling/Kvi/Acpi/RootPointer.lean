import Kvi.Acpi.Lookup

/-! The search for the root pointer.

The firmware puts it in the first KiB of the EBDA, whose segment is at 0x40e, or
in the BIOS area. `acpi_get_rsdp` shifts the segment by two instead of four, so
that the first of its two loops searches elsewhere; and when it finds something
there it returns `NULL`, since only the second loop keeps the address. -/
namespace Kvi.Acpi
open Init

/-- The linear address of the EBDA. -/
def ebda (m : Memory) : Nat := 16 * m.load 0x40e 2

/-- Where the first loop begins. -/
def searched (m : Memory) : Nat := 4 * m.load 0x40e 2

/-- The lowest address from `first` on and below `last` that has the signature. -/
structure Lowest (m : Memory) (first last p : Nat) : Prop where
  le : first ≤ p
  lt : p < last
  starts : Starts m RSDT_SIG p
  below : ∀ j, first ≤ j → j < p → ¬ Starts m RSDT_SIG j

/-- No address there has it. -/
def Nowhere (m : Memory) (first last : Nat) : Prop := ∀ p, first ≤ p → p < last → ¬ Starts m RSDT_SIG p

/-- `acpi_get_rsdp` finds the root pointer. -/
structure FindsRoot (m : Memory) : Prop where
  ebda : ∀ p, Lowest m (ebda m) (ebda m + 0x400) p → acpiGetRsdp m = p
  bios : Nowhere m (Acpi.ebda m) (Acpi.ebda m + 0x400) →
    ∀ p, Lowest m 0xe0000 0xfffff p → acpiGetRsdp m = p
  null : acpiGetRsdp m = 0 →
    Nowhere m (Acpi.ebda m) (Acpi.ebda m + 0x400) ∧ Nowhere m 0xe0000 0xfffff

variable {m : Memory} {first last p : Nat}

theorem scan_eq_some : scan m first last = some p ↔ Lowest m first last p := by
  rw [scan, List.find?_range'_eq_some, List.mem_range'_1, matchesAt_iff]
  constructor
  · intro h
    obtain ⟨hstarts, ⟨hle, hlt⟩, hbelow⟩ := h
    refine ⟨hle, by omega, hstarts, fun j hj hjp hstarts => ?_⟩
    have := hbelow j hj hjp
    rw [matchesAt_iff.mpr hstarts] at this
    exact Bool.false_ne_true this
  · intro h
    have hle := h.le
    have hlt := h.lt
    refine ⟨h.starts, ⟨hle, by omega⟩, fun j hj hjp => ?_⟩
    rw [Bool.not_eq_true', ← Bool.not_eq_true]
    exact mt matchesAt_iff.mp (h.below j hj hjp)

theorem scan_eq_none : scan m first last = none ↔ Nowhere m first last := by
  rw [scan, List.find?_eq_none]
  constructor
  · intro h p hle hlt hstarts
    exact h p (List.mem_range'_1.mpr ⟨hle, by omega⟩) (matchesAt_iff.mpr hstarts)
  · intro h p hp hmatch
    have hp := List.mem_range'_1.mp hp
    exact h p hp.1 (by omega) (matchesAt_iff.mp hmatch)

/-- There is a lowest address or none. -/
theorem nowhere_or_lowest (m : Memory) (first last : Nat) :
    Nowhere m first last ∨ ∃ p, Lowest m first last p := by
  cases h : scan m first last with
  | none => exact .inl (scan_eq_none.mp h)
  | some p => exact .inr ⟨p, scan_eq_some.mp h⟩

theorem Lowest.not_nowhere (h : Lowest m first last p) : ¬ Nowhere m first last :=
  fun hnone => hnone p h.le h.lt h.starts

/-! ### What is returned -/

theorem searched_eq (m : Memory) : u32 (u32 (m.load 0x40e 2) <<< 2) = searched m ∧
    u32 (searched m + 0x3ff) = searched m + 0x3ff := by
  have hlt : m.load 0x40e 2 < 2 ^ 16 := Memory.load_lt ..
  have hs : u32 (m.load 0x40e 2) = m.load 0x40e 2 := u32_of_lt (by omega)
  rw [searched, hs, Nat.shiftLeft_eq, u32_of_lt (by omega), u32_of_lt (by omega)]
  omega

theorem acpiGetRsdp_found (h : ¬ Nowhere m (searched m) (searched m + 0x3ff)) : acpiGetRsdp m = 0 := by
  obtain ⟨p, hp⟩ := (nowhere_or_lowest ..).resolve_left h
  rw [acpiGetRsdp, (searched_eq m).1, (searched_eq m).2, scan_eq_some.mpr hp]

theorem acpiGetRsdp_lowest (h : Nowhere m (searched m) (searched m + 0x3ff))
    (hp : Lowest m 0xe0000 0xfffff p) : acpiGetRsdp m = p := by
  rw [acpiGetRsdp, (searched_eq m).1, (searched_eq m).2, scan_eq_none.mpr h, scan_eq_some.mpr hp]

theorem acpiGetRsdp_none (h : Nowhere m (searched m) (searched m + 0x3ff))
    (hp : Nowhere m 0xe0000 0xfffff) : acpiGetRsdp m = 0 := by
  rw [acpiGetRsdp, (searched_eq m).1, (searched_eq m).2, scan_eq_none.mpr h, scan_eq_none.mpr hp]

theorem Lowest.unique {q : Nat} (h : Lowest m first last p) (h' : Lowest m first last q) : p = q :=
  Option.some.inj ((scan_eq_some.mpr h).symm.trans (scan_eq_some.mpr h'))

/-- The root pointer is found exactly when it is not in the EBDA and the place searched instead has
no signature, or there is nothing to find; or when the BIOS area overlaps the EBDA and has the
same lowest address. -/
theorem findsRoot_iff (m : Memory) : FindsRoot m ↔
    (Nowhere m (ebda m) (ebda m + 0x400) ∧
      (Nowhere m (searched m) (searched m + 0x3ff) ∨ Nowhere m 0xe0000 0xfffff)) ∨
    (Nowhere m (searched m) (searched m + 0x3ff) ∧
      ∃ p, Lowest m (ebda m) (ebda m + 0x400) p ∧ Lowest m 0xe0000 0xfffff p) := by
  by_cases hsearched : Nowhere m (searched m) (searched m + 0x3ff)
  · rcases nowhere_or_lowest m (ebda m) (ebda m + 0x400) with hebda | ⟨e, he⟩
    · refine iff_of_true ⟨fun p hp => absurd hebda hp.not_nowhere,
        fun _ p hp => acpiGetRsdp_lowest hsearched hp, fun hzero => ⟨hebda, ?_⟩⟩
        (.inl ⟨hebda, .inl hsearched⟩)
      refine (nowhere_or_lowest ..).resolve_right fun hex => ?_
      obtain ⟨p, hp⟩ := hex
      have hle := hp.le
      rw [acpiGetRsdp_lowest hsearched hp] at hzero
      omega
    · constructor
      · intro h
        rcases nowhere_or_lowest m 0xe0000 0xfffff with hbios | ⟨b, hb⟩
        · exact absurd (h.null (acpiGetRsdp_none hsearched hbios)).1 he.not_nowhere
        · have heq := h.ebda e he
          rw [acpiGetRsdp_lowest hsearched hb] at heq
          exact .inr ⟨hsearched, e, he, heq ▸ hb⟩
      · intro h
        rcases h with ⟨hebda, _⟩ | ⟨_, p, hp, hbios⟩
        · exact absurd hebda he.not_nowhere
        have hret := acpiGetRsdp_lowest hsearched hbios
        refine ⟨fun q hq => ?_, fun hebda => absurd hebda he.not_nowhere, fun hzero => ?_⟩
        · rw [hret, hp.unique hq]
        · have hle := hbios.le
          omega
  · have hret := acpiGetRsdp_found hsearched
    constructor
    · intro h
      obtain ⟨hebda, hbios⟩ := h.null hret
      exact .inl ⟨hebda, .inr hbios⟩
    · intro h
      rcases h with ⟨hebda, hor⟩ | ⟨hnone, _⟩
      · have hbios := hor.resolve_left hsearched
        exact ⟨fun p hp => absurd hebda hp.not_nowhere, fun _ p hp => absurd hbios hp.not_nowhere,
          fun _ => ⟨hebda, hbios⟩⟩
      · exact absurd hnone hsearched

theorem byte_of_starts (h : Starts m RSDT_SIG p) : m (u64 p) = 0x52 := by
  have hhead : some (m (u64 (p + 0))).toInt8 = some 0x52 := congrArg List.head? h
  have hbyte := congrArg Int8.toUInt8 (Option.some.inj hhead)
  exact hbyte.trans (by decide)

/-- A root pointer in an EBDA at 0x9fc00. -/
def inEbda : Memory :=
  let m : Memory := fun _ => 0
  let m := m.store 0x40e 2 0x9fc0
  m.store 0x9fc10 7 0x52545020445352

theorem inEbda_nowhere (hfirst : 0x410 ≤ first) (hlast : last ≤ 0x100000)
    (h : last ≤ 0x9fc10 ∨ 0x9fc17 ≤ first) : Nowhere inEbda first last := by
  intro p hle hlt hstarts
  have hbyte := byte_of_starts hstarts
  have hzero : inEbda (u64 p) = 0 := by
    rw [u64_of_lt (by omega), inEbda, Memory.store_outside (by omega), Memory.store_outside (by omega)]
  rw [hzero] at hbyte
  exact absurd hbyte (by decide)

/-- It is not searched for there. -/
theorem ebda_missed : Lowest inEbda (ebda inEbda) (ebda inEbda + 0x400) 0x9fc10 ∧
    acpiGetRsdp inEbda = 0 := by
  have hsegment : inEbda.load 0x40e 2 = 0x9fc0 := by decide +kernel
  rw [ebda, hsegment]
  constructor
  · refine ⟨by decide, by decide, by decide +kernel, fun j hj hjp => ?_⟩
    exact inEbda_nowhere (by decide) (by decide) (.inl (Nat.le_refl _)) j hj hjp
  · apply acpiGetRsdp_none
    · rw [searched, hsegment]
      exact inEbda_nowhere (by decide) (by decide) (.inl (by decide))
    · exact inEbda_nowhere (by decide) (by decide) (.inr (by decide))

end Kvi.Acpi
