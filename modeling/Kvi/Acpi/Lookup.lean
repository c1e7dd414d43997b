import Kvi.Acpi.Tables

/-! Looking up a table.

Both lists of tables are a header of 36 bytes and pointers behind it, of eight
bytes in the XSDT and of four in the RSDT. `acpi_get_entry` looks for the first
pointer to a table with the signature, in the XSDT and then in the RSDT. The
number of pointers is computed as if they had four bytes in both, so that in the
XSDT it goes on behind the end of the list unless it finds the table before. -/
namespace Kvi.Acpi
open Init

/-- The signature is at `p`. -/
def Starts (m : Memory) (sig : CString) (p : Nat) : Prop := chars m p (strlen sig) = sig.chars

instance (m : Memory) (sig : CString) (p : Nat) : Decidable (Starts m sig p) :=
  inferInstanceAs (Decidable (_ = _))

/-- The entry of a list of tables with entries of `width` bytes. -/
def slot (m : Memory) (table width i : Nat) : Nat := field m table (36 + width * i) width

/-- The first `n` of them. -/
def slots (m : Memory) (table width n : Nat) : List Nat := (List.range n).map (slot m table width)

/-- The entries that are in the list of tables. -/
def listed (m : Memory) (table width : Nat) : List Nat :=
  if table = 0 then [] else slots m table width ((field m table 4 4 - 36) / width)

/-- The first table of the XSDT or else of the RSDT that has the signature. -/
def lookup (m : Memory) (rsdt xsdt : Nat) (sig : CString) : Nat :=
  ((listed m xsdt 8 ++ listed m rsdt 4).find? fun p => Starts m sig p).getD 0

/-- A scan of `len` entries gets to entry `i`. -/
def Reaches (m : Memory) (table width : Nat) (len : Int) (sig : CString) (i : Nat) : Prop :=
  i < len ∧ ∀ j < i, ¬ matchesAt m sig SIG_LEN (slot m table width j)

/-- `acpi_get_entry` finds the table, and the entries that it reads are in the lists. -/
structure Finds (m : Memory) (rsdt xsdt : Nat) (sig : CString) : Prop where
  result : acpiGetEntry m rsdt xsdt sig = lookup m rsdt xsdt sig
  inXsdt : xsdt ≠ 0 → ∀ i, Reaches m xsdt 8 (entryCount m xsdt) sig i →
    36 + 8 * (i + 1) ≤ field m xsdt 4 4
  inRsdt : rsdt ≠ 0 → (xsdt ≠ 0 → acpiGetXsdtEntry m xsdt sig = 0) →
    ∀ i, Reaches m rsdt 4 (entryCount m rsdt) sig i → 36 + 4 * (i + 1) ≤ field m rsdt 4 4

variable {m : Memory} {sig : CString} {p rsdt xsdt table width n i k : Nat}

theorem matchesAt_iff : matchesAt m sig (strlen sig) p = true ↔ Starts m sig p := by
  have hlen : (chars m p (strlen sig)).length = sig.chars.length := by
    rw [chars, List.length_map, List.length_range]
    rfl
  rw [matchesAt, decide_eq_true_iff, Starts, strlen, memcmp_zero sig.nonzero]
  constructor
  · intro h
    exact (h.eq_of_length hlen.symm).symm
  · intro h
    rw [h]

/-- The bytes behind the header, divided by four; none where they are less than a header. -/
theorem lt_entryCount (m : Memory) (table i : Nat) :
    (i : Int) < entryCount m table ↔ i < (field m table 4 4 - 36) / 4 := by
  have hlen : field m table 4 4 < 2 ^ 32 := Memory.load_lt ..
  unfold entryCount sub64 s32 u64 u32
  split_ifs <;> omega

theorem toNat_entryCount (m : Memory) (table : Nat) :
    (entryCount m table).toNat = (field m table 4 4 - 36) / 4 := by
  apply eq_of_forall_lt_iff
  intro i
  rw [Int.lt_toNat]
  exact lt_entryCount m table i

/-! ### One list -/

section
variable (hsig : strlen sig = SIG_LEN)
include hsig

theorem findEntry_eq {len : Int} : findEntry m (slot m table width) len sig =
    ((slots m table width len.toNat).find? fun p => Starts m sig p).getD 0 := by
  have hsame : (matchesAt m sig SIG_LEN ∘ slot m table width) =
      (fun p => decide (Starts m sig p)) ∘ slot m table width := by
    funext i
    rw [← hsig]
    exact Bool.eq_iff_iff.mpr (matchesAt_iff.trans decide_eq_true_iff.symm)
  rw [findEntry, slots, List.find?_map, ← hsame]
  cases hfind : (List.range len.toNat).find? (matchesAt m sig SIG_LEN ∘ slot m table width) with
  | none =>
    simp only [Function.comp_def] at hfind
    rw [hfind]
    rfl
  | some i =>
    simp only [Function.comp_def] at hfind
    rw [hfind]
    rfl

theorem acpiGetXsdtEntry_eq : acpiGetXsdtEntry m xsdt sig =
    ((slots m xsdt 8 ((field m xsdt 4 4 - 36) / 4)).find? fun p => Starts m sig p).getD 0 := by
  rw [← toNat_entryCount, ← findEntry_eq hsig]
  rfl

theorem acpiGetRsdtEntry_eq : acpiGetRsdtEntry m rsdt sig =
    ((slots m rsdt 4 ((field m rsdt 4 4 - 36) / 4)).find? fun p => Starts m sig p).getD 0 := by
  rw [← toNat_entryCount, ← findEntry_eq hsig]
  rfl

/-- A scan gets to no entry behind the first one that has the signature. -/
theorem reaches_le {len : Int} (hi : Reaches m table width len sig i)
    (hk : Starts m sig (slot m table width k)) : i ≤ k := by
  by_contra hlt
  exact hi.2 k (by omega) (hsig ▸ matchesAt_iff.mpr hk)

/-- It gets to every entry of the list when none has the signature. -/
theorem reaches_of_none {len : Int} (hlen : (i : Int) < len)
    (hnone : (slots m table width i).find? (fun p => Starts m sig p) = none) :
    Reaches m table width len sig i := by
  refine ⟨hlen, fun j hj hmatch => ?_⟩
  have hstarts := matchesAt_iff.mp (hsig ▸ hmatch)
  have := List.find?_eq_none.mp hnone _ (List.mem_map.mpr ⟨j, List.mem_range.mpr hj, rfl⟩)
  exact this (decide_eq_true hstarts)

omit hsig in
/-- The first entry that has the signature stays the first in a longer list. -/
theorem find_slots_mono {n' : Nat} (hle : n ≤ n')
    (hfind : (slots m table width n).find? (fun p => Starts m sig p) = some p) :
    (slots m table width n').find? (fun p => Starts m sig p) = some p := by
  obtain ⟨d, rfl⟩ := Nat.exists_eq_add_of_le hle
  rw [slots, List.range_add, List.map_append, List.find?_append]
  rw [slots] at hfind
  rw [hfind]
  rfl

end

/-! ### Both lists -/

/-- What the RSDT has to offer. -/
def fromRsdt (m : Memory) (rsdt : Nat) (sig : CString) : Nat :=
  ((listed m rsdt 4).find? fun p => Starts m sig p).getD 0

theorem lookup_some (h : (listed m xsdt 8).find? (fun p => Starts m sig p) = some p) :
    lookup m rsdt xsdt sig = p := by
  rw [lookup, List.find?_append, h]
  rfl

theorem lookup_none (h : (listed m xsdt 8).find? (fun p => Starts m sig p) = none) :
    lookup m rsdt xsdt sig = fromRsdt m rsdt sig := by
  rw [lookup, List.find?_append, h]
  rfl

theorem acpiGetEntry_absent (hsig : strlen sig = SIG_LEN)
    (h : xsdt ≠ 0 → acpiGetXsdtEntry m xsdt sig = 0) :
    acpiGetEntry m rsdt xsdt sig = fromRsdt m rsdt sig := by
  have hp : (if xsdt ≠ 0 then acpiGetXsdtEntry m xsdt sig else 0) = 0 := by
    split
    · next hx => exact h hx
    · rfl
  rw [acpiGetEntry, hp, fromRsdt, listed]
  by_cases hrsdt : rsdt = 0
  · rw [if_neg (fun h => h.2 hrsdt), if_pos hrsdt]
    rfl
  · rw [if_pos ⟨rfl, hrsdt⟩, if_neg hrsdt, acpiGetRsdtEntry_eq hsig]

theorem acpiGetEntry_present (hx : xsdt ≠ 0) (h : acpiGetXsdtEntry m xsdt sig = p) (hp : p ≠ 0) :
    acpiGetEntry m rsdt xsdt sig = p := by
  rw [acpiGetEntry, if_pos hx, h, if_neg fun hand => hp hand.1]

/-- The entries of the RSDT are counted right. -/
theorem inside_rsdt (hi : Reaches m rsdt 4 (entryCount m rsdt) sig i) :
    36 + 4 * (i + 1) ≤ field m rsdt 4 4 := by
  have := (lt_entryCount m rsdt i).mp hi.1
  omega

/-- Without an XSDT only the RSDT is searched. -/
theorem finds_rsdt (hsig : strlen sig = SIG_LEN) : Finds m rsdt 0 sig := by
  refine ⟨?_, fun hne => absurd rfl hne, fun _ _ _ => inside_rsdt⟩
  rw [acpiGetEntry_absent hsig fun hne => absurd rfl hne, lookup_none]
  rfl

/-- An XSDT that ends before the fourth byte of an entry has none. -/
theorem finds_short (hsig : strlen sig = SIG_LEN) (hshort : field m xsdt 4 4 < 40) :
    Finds m rsdt xsdt sig := by
  have hnone : acpiGetXsdtEntry m xsdt sig = 0 := by
    rw [acpiGetXsdtEntry_eq hsig, Nat.div_eq_of_lt (by omega)]
    rfl
  refine ⟨?_, fun _ i hi => ?_, fun _ _ _ => inside_rsdt⟩
  · rw [acpiGetEntry_absent hsig fun _ => hnone, lookup_none]
    rw [listed, Nat.div_eq_of_lt (by omega)]
    split <;> rfl
  · have := (lt_entryCount m xsdt i).mp hi.1
    omega

/-- The table that is first in the XSDT is the one that the search of the XSDT gives. -/
theorem acpiGetXsdtEntry_listed (hsig : strlen sig = SIG_LEN) (hx : xsdt ≠ 0)
    (hfind : (listed m xsdt 8).find? (fun p => Starts m sig p) = some p) :
    acpiGetXsdtEntry m xsdt sig = p := by
  rw [listed, if_neg hx] at hfind
  rw [acpiGetXsdtEntry_eq hsig, find_slots_mono (by omega) hfind]
  rfl

/-- A table at address 0 counts as none, so that the RSDT is searched after all. -/
theorem finds_of_listed (hsig : strlen sig = SIG_LEN) (hx : xsdt ≠ 0)
    (hfind : (listed m xsdt 8).find? (fun p => Starts m sig p) = some p)
    (hp : p ≠ 0 ∨ fromRsdt m rsdt sig = 0) : Finds m rsdt xsdt sig := by
  have hfound := acpiGetXsdtEntry_listed hsig hx hfind
  refine ⟨?_, fun _ i hi => ?_, fun _ _ _ => inside_rsdt⟩
  · rw [lookup_some hfind]
    by_cases hzero : p = 0
    · rw [acpiGetEntry_absent hsig fun _ => hfound.trans hzero, hzero]
      exact or_iff_not_imp_left.mp hp (not_not.mpr hzero)
    · exact acpiGetEntry_present hx hfound hzero
  · have hmem := List.mem_of_find?_eq_some hfind
    rw [listed, if_neg hx] at hmem
    obtain ⟨k, hk, hslot⟩ := List.mem_map.mp hmem
    have hk := List.mem_range.mp hk
    have hstarts := List.find?_some hfind
    rw [← hslot] at hstarts
    have := reaches_le hsig hi (of_decide_eq_true hstarts)
    omega

/-- When no table of a long enough XSDT has the signature, the entry behind the last one is read. -/
theorem listed_of_finds (h : Finds m rsdt xsdt sig) (hsig : strlen sig = SIG_LEN) (hx : xsdt ≠ 0)
    (hlong : ¬ field m xsdt 4 4 < 40) :
    ∃ p, (listed m xsdt 8).find? (fun p => Starts m sig p) = some p ∧
      (p ≠ 0 ∨ fromRsdt m rsdt sig = 0) := by
  cases hfind : (listed m xsdt 8).find? fun p => Starts m sig p with
  | none =>
    rw [listed, if_neg hx] at hfind
    have hover := h.inXsdt hx _ (reaches_of_none hsig ((lt_entryCount ..).mpr (by omega)) hfind)
    omega
  | some p =>
    refine ⟨p, rfl, or_iff_not_imp_left.mpr fun hp => ?_⟩
    obtain rfl := not_not.mp hp
    rw [← acpiGetEntry_absent hsig fun _ => acpiGetXsdtEntry_listed hsig hx hfind, h.result,
      lookup_some hfind]

/-- The lookup is right exactly when there is no XSDT, or one of less than 40 bytes, or the table is
in it; and then not at address 0, or else the RSDT has no other one. -/
theorem finds_iff (rsdt xsdt : Nat) (hsig : strlen sig = SIG_LEN) :
    Finds m rsdt xsdt sig ↔ xsdt = 0 ∨ field m xsdt 4 4 < 40 ∨
      ∃ p, (listed m xsdt 8).find? (fun p => Starts m sig p) = some p ∧
        (p ≠ 0 ∨ fromRsdt m rsdt sig = 0) := by
  by_cases hx : xsdt = 0
  · subst hx
    exact iff_of_true (finds_rsdt hsig) (.inl rfl)
  rw [or_iff_right hx]
  by_cases hshort : field m xsdt 4 4 < 40
  · exact iff_of_true (finds_short hsig hshort) (.inl hshort)
  rw [or_iff_right hshort]
  constructor
  · intro h
    exact listed_of_finds h hsig hx hshort
  · intro h
    obtain ⟨p, hfind, hp⟩ := h
    exact finds_of_listed hsig hx hfind hp

/-- An XSDT at 0x2000 with one entry, a pointer behind it, and a MADT at 0x4000. -/
def oneListed (entry behind : Nat) : Memory :=
  let m : Memory := fun _ => 0
  let m := m.store 0x2004 4 44
  let m := (m.store 0x2024 8 entry).store 0x202c 8 behind
  m.store 0x4000 4 0x43495041

theorem finds_listed : Finds (oneListed 0x4000 0) 0 0x2000 MADT_SIG :=
  (finds_iff 0 0x2000 (by decide)).mpr
    (.inr (.inr ⟨0x4000, by decide +kernel, .inl (by decide)⟩))

/-- The table is not in the list, and the pointer behind it is taken for an entry. -/
theorem finds_behind : field (oneListed 0x3000 0x4000) 0x2000 4 4 = 44 ∧
    lookup (oneListed 0x3000 0x4000) 0 0x2000 MADT_SIG = 0 ∧
    acpiGetEntry (oneListed 0x3000 0x4000) 0 0x2000 MADT_SIG = 0x4000 := by
  refine ⟨by decide +kernel, by decide +kernel, ?_⟩
  apply acpiGetEntry_present (by decide) _ (by decide)
  decide +kernel

end Kvi.Acpi
