import Kvi.Acpi.RootPointer

/-! The bytes behind a root pointer of revision 0.

A root pointer of revision 0 ends after 20 bytes, and what is behind it is no
part of it. `acpi_get_xsdt` does not look at the revision: it takes eight of the
next 16 bytes for the address of an XSDT, which is then searched before the RSDT.
Two images that differ in these 16 bytes only are compared. What a lookup reads
is a set of bytes of memory (`LooksAt`), and its result depends on no others
(`acpiGetEntry_congr`). -/
namespace Kvi.Acpi
open Init

/-! ### What is found -/

/-- The tables with these signatures, or the failure at the first that is missing. -/
def seek (m : Memory) (rsdt xsdt : Nat) : List (CString × Failure) → Except Failure (List Nat)
  | [] => .ok []
  | (sig, e) :: rest =>
    let p := acpiGetEntry m rsdt xsdt sig
    if p = 0 then .error e else (seek m rsdt xsdt rest).map (p :: ·)

def sought : List (CString × Failure) := [(FADT_SIG, .fadt), (MADT_SIG, .madt), (HPET_SIG, .hpet)]

/-- The three tables that `acpi_init` finds, or the failure that it reports. -/
def outcome (m : Memory) : Except Failure (List Nat) :=
  let rsdp := acpiGetRsdp m
  if rsdp = 0 then .error .rsdp
  else if acpiGetRsdt m rsdp = 0 ∧ acpiGetXsdt m rsdp = 0 then .error .lists
  else seek m (acpiGetRsdt m rsdp) (acpiGetXsdt m rsdp) sought

/-- What `acpi_init` leaves when it returns. -/
def Reports (s : Globals) (e : Option Failure) : Except Failure (List Nat) → Prop
  | .error f => e = some f
  | .ok ps => e = none ∧ [s.fadt, s.madt, s.hpet] = ps

/-! ### What is read -/

/-- The bytes that a search of one list reads: the length in its header, the entries it gets to and the
signatures of their tables. -/
inductive Scanned (m : Memory) (table width : Nat) (sig : CString) : Nat → Prop where
  | length {k : Nat} (hk : k < 4) : Scanned m table width sig (u64 (table + 4) + k)
  | entry {i k : Nat} (hi : Reaches m table width (entryCount m table) sig i) (hk : k < width) :
      Scanned m table width sig (u64 (table + (36 + width * i)) + k)
  | signature {i k : Nat} (hi : Reaches m table width (entryCount m table) sig i) (hk : k < SIG_LEN) :
      Scanned m table width sig (u64 (slot m table width i + k))

/-- The bytes that `acpi_get_entry` reads. -/
def LooksAt (m : Memory) (rsdt xsdt : Nat) (sig : CString) (a : Nat) : Prop :=
  (xsdt ≠ 0 ∧ Scanned m xsdt 8 sig a) ∨
    ((xsdt ≠ 0 → acpiGetXsdtEntry m xsdt sig = 0) ∧ rsdt ≠ 0 ∧ Scanned m rsdt 4 sig a)

/-- The lookups read none of the bytes of `tail`. -/
def Unread (m : Memory) (rsdt xsdt : Nat) (tail : Nat → Prop) : List (CString × Failure) → Prop
  | [] => True
  | (sig, _) :: rest => (∀ a, LooksAt m rsdt xsdt sig a → ¬ tail a) ∧
      (acpiGetEntry m rsdt xsdt sig ≠ 0 → Unread m rsdt xsdt tail rest)

/-- The 16 bytes behind a root pointer of 20 bytes. -/
def Behind (rsdp a : Nat) : Prop := rsdp + 20 ≤ a ∧ a < rsdp + 36

/-- The root pointer has revision 0. -/
structure Revision0 (m : Memory) (rsdp : Nat) : Prop where
  found : acpiGetRsdp m = rsdp
  present : rsdp ≠ 0
  revision : field m rsdp 15 1 = 0

variable {m m' : Memory} {sig : CString} {p rsdp rsdt xsdt table width n : Nat} {tail : Nat → Prop}
  {s s' : Globals} {e : Option Failure}

theorem acpiInit_reports (hnow : acpiInit m s = some (s', e)) : Reports s' e (outcome m) := by
  rw [acpiInit] at hnow
  dsimp only at hnow
  rw [outcome]
  by_cases hrsdp : acpiGetRsdp m = 0
  · rw [if_pos hrsdp] at hnow ⊢
    obtain ⟨-, rfl⟩ := Prod.mk.inj (Option.some.inj hnow)
    exact rfl
  by_cases hlists : acpiGetRsdt m (acpiGetRsdp m) = 0 ∧ acpiGetXsdt m (acpiGetRsdp m) = 0
  · rw [if_neg hrsdp, if_pos hlists] at hnow ⊢
    obtain ⟨-, rfl⟩ := Prod.mk.inj (Option.some.inj hnow)
    exact rfl
  rw [if_neg hrsdp, if_neg hlists] at hnow ⊢
  by_cases hfadt : acpiGetEntry m (acpiGetRsdt m (acpiGetRsdp m)) (acpiGetXsdt m (acpiGetRsdp m)) FADT_SIG = 0
  · rw [if_pos hfadt] at hnow
    rw [sought, seek, if_pos hfadt]
    obtain ⟨-, rfl⟩ := Prod.mk.inj (Option.some.inj hnow)
    exact rfl
  by_cases hmadt : acpiGetEntry m (acpiGetRsdt m (acpiGetRsdp m)) (acpiGetXsdt m (acpiGetRsdp m)) MADT_SIG = 0
  · rw [if_neg hfadt, if_pos hmadt] at hnow
    rw [sought, seek, if_neg hfadt, seek, if_pos hmadt]
    obtain ⟨-, rfl⟩ := Prod.mk.inj (Option.some.inj hnow)
    exact rfl
  by_cases hhpet : acpiGetEntry m (acpiGetRsdt m (acpiGetRsdp m)) (acpiGetXsdt m (acpiGetRsdp m)) HPET_SIG = 0
  · rw [if_neg hfadt, if_neg hmadt, if_pos hhpet] at hnow
    rw [sought, seek, if_neg hfadt, seek, if_neg hmadt, seek, if_pos hhpet]
    obtain ⟨-, rfl⟩ := Prod.mk.inj (Option.some.inj hnow)
    exact rfl
  rw [if_neg hfadt, if_neg hmadt, if_neg hhpet] at hnow
  rw [sought, seek, if_neg hfadt, seek, if_neg hmadt, seek, if_neg hhpet]
  obtain ⟨l, _, heq⟩ := Option.bind_eq_some_iff.mp hnow
  obtain ⟨rfl, rfl⟩ := Prod.mk.inj (Option.some.inj heq)
  exact ⟨rfl, rfl⟩

/-! ### A lookup and the bytes it reads -/

theorem chars_congr (h : ∀ k < n, m' (u64 (p + k)) = m (u64 (p + k))) : chars m' p n = chars m p n := by
  apply List.map_congr_left
  intro k hk
  rw [h k (List.mem_range.mp hk)]

theorem field_congr {off : Nat} (h : ∀ k, k < n → m' (u64 (p + off) + k) = m (u64 (p + off) + k)) :
    field m' p off n = field m p off n :=
  Memory.load_eq_of_bytes h

/-- A search depends on the tests that it gets to. -/
theorem find_range_congr {f g : Nat → Bool} (h : ∀ i < n, (∀ j < i, ¬ f j) → g i = f i) :
    (List.range n).find? g = (List.range n).find? f := by
  cases hf : (List.range n).find? f with
  | none =>
    rw [List.find?_range_eq_none] at hf ⊢
    intro i hi
    rw [h i hi fun j hj => by simpa using hf j (by omega)]
    exact hf i hi
  | some i =>
    rw [List.find?_range_eq_some] at hf ⊢
    obtain ⟨hfi, hi, hbelow⟩ := hf
    have hi := List.mem_range.mp hi
    refine ⟨?_, List.mem_range.mpr hi, fun j hj => ?_⟩
    · rw [h i hi fun j hj => by simpa using hbelow j hj]
      exact hfi
    · rw [h j (by omega) fun k hk => by simpa using hbelow k (by omega)]
      exact hbelow j hj

section Scanned
variable (h : ∀ a, Scanned m table width sig a → m' a = m a)
include h

theorem entryCount_congr : entryCount m' table = entryCount m table := by
  rw [entryCount, entryCount, field_congr fun _ hk => h _ (.length hk)]

theorem slot_congr {i : Nat} (hi : Reaches m table width (entryCount m table) sig i) :
    slot m' table width i = slot m table width i :=
  field_congr fun _ hk => h _ (.entry hi hk)

theorem matchesAt_congr {i : Nat} (hi : Reaches m table width (entryCount m table) sig i) :
    matchesAt m' sig SIG_LEN (slot m' table width i) =
      matchesAt m sig SIG_LEN (slot m table width i) := by
  rw [slot_congr h hi, matchesAt, matchesAt, chars_congr fun k hk => h _ (.signature hi hk)]

theorem findEntry_congr : findEntry m' (slot m' table width) (entryCount m' table) sig =
    findEntry m (slot m table width) (entryCount m table) sig := by
  have hfind := find_range_congr (n := (entryCount m table).toNat)
    (g := fun i => matchesAt m' sig SIG_LEN (slot m' table width i))
    (f := fun i => matchesAt m sig SIG_LEN (slot m table width i))
    fun i hi hbelow => matchesAt_congr h ⟨Int.lt_toNat.mp hi, hbelow⟩
  rw [entryCount_congr h, findEntry, findEntry, hfind]
  cases hf : (List.range (entryCount m table).toNat).find? fun i =>
      matchesAt m sig SIG_LEN (slot m table width i) with
  | none => rfl
  | some i =>
    obtain ⟨_, hi, hbelow⟩ := List.find?_range_eq_some.mp hf
    exact slot_congr h ⟨Int.lt_toNat.mp (List.mem_range.mp hi), fun j hj => by
      simpa using hbelow j hj⟩

end Scanned

/-- The result of a lookup depends on the bytes that it reads. -/
theorem acpiGetEntry_congr (h : ∀ a, LooksAt m rsdt xsdt sig a → m' a = m a) :
    acpiGetEntry m' rsdt xsdt sig = acpiGetEntry m rsdt xsdt sig := by
  have hxsdt : xsdt ≠ 0 → acpiGetXsdtEntry m' xsdt sig = acpiGetXsdtEntry m xsdt sig :=
    fun hx => findEntry_congr fun a ha => h a (.inl ⟨hx, ha⟩)
  have hp : (if xsdt ≠ 0 then acpiGetXsdtEntry m' xsdt sig else 0) =
      if xsdt ≠ 0 then acpiGetXsdtEntry m xsdt sig else 0 := ite_congr rfl hxsdt fun _ => rfl
  rw [acpiGetEntry, acpiGetEntry, hp]
  by_cases hnone : (if xsdt ≠ 0 then acpiGetXsdtEntry m xsdt sig else 0) = 0 ∧ rsdt ≠ 0
  · rw [if_pos hnone, if_pos hnone]
    refine findEntry_congr fun a ha => h a (.inr ⟨fun hx => ?_, hnone.2, ha⟩)
    rw [← hnone.1, if_pos hx]
  · rw [if_neg hnone, if_neg hnone]

theorem seek_congr (h : ∀ a, ¬ tail a → m' a = m a) {sigs : List (CString × Failure)}
    (hunread : Unread m rsdt xsdt tail sigs) : seek m' rsdt xsdt sigs = seek m rsdt xsdt sigs := by
  induction sigs with
  | nil => rfl
  | cons sig rest ih =>
    obtain ⟨hfirst, hrest⟩ := hunread
    rw [seek, seek, acpiGetEntry_congr fun a ha => h a (hfirst a ha)]
    split
    · rfl
    · next hne => rw [ih (hrest hne)]

/-- No lookup at all reads them. -/
theorem unread_of_all (h : ∀ sig a, LooksAt m rsdt xsdt sig a → ¬ tail a)
    (sigs : List (CString × Failure)) : Unread m rsdt xsdt tail sigs := by
  induction sigs with
  | nil => exact trivial
  | cons sig rest ih => exact ⟨h sig.1, fun _ => ih⟩

/-! ### The root pointer -/

theorem starts_congr (h : ∀ k < strlen sig, m' (u64 (p + k)) = m (u64 (p + k))) :
    Starts m' sig p ↔ Starts m sig p := by
  rw [Starts, Starts, chars_congr h]

/-- The root pointer that is found is in the BIOS area. -/
theorem acpiGetRsdp_eq (hne : rsdp ≠ 0) : acpiGetRsdp m = rsdp ↔
    Nowhere m (searched m) (searched m + 0x3ff) ∧ Lowest m 0xe0000 0xfffff rsdp := by
  constructor
  · intro heq
    by_cases hsearched : Nowhere m (searched m) (searched m + 0x3ff)
    · rcases nowhere_or_lowest m 0xe0000 0xfffff with hbios | ⟨p, hp⟩
      · exact absurd ((acpiGetRsdp_none hsearched hbios).symm.trans heq).symm hne
      · obtain rfl := (acpiGetRsdp_lowest hsearched hp).symm.trans heq
        exact ⟨hsearched, hp⟩
    · exact absurd ((acpiGetRsdp_found hsearched).symm.trans heq).symm hne
  · intro h
    exact acpiGetRsdp_lowest h.1 h.2

/-- Bytes behind the root pointer do not matter for where it is found. -/
theorem acpiGetRsdp_congr (h : ∀ a, ¬ Behind rsdp a → m' a = m a) (hne : rsdp ≠ 0)
    (hfound : acpiGetRsdp m = rsdp) : acpiGetRsdp m' = rsdp := by
  obtain ⟨hsearched, hlowest⟩ := (acpiGetRsdp_eq hne).mp hfound
  have hle := hlowest.le
  have hlt := hlowest.lt
  have hlow : ∀ a < rsdp + 20, m' a = m a := fun a ha => h a fun hb => by
    have := hb.1
    omega
  have hstarts : ∀ j ≤ rsdp, Starts m' RSDT_SIG j ↔ Starts m RSDT_SIG j := by
    intro j hj
    apply starts_congr
    intro k hk
    have hk : k < 7 := hk
    rw [u64_of_lt (by omega)]
    exact hlow _ (by omega)
  have hsegment : searched m' = searched m := by
    rw [searched, searched, Memory.load_congr fun a _ ha => hlow a (by omega)]
  have hend : searched m < 0x40000 := by
    have := Memory.load_lt m 0x40e 2
    rw [searched]
    omega
  refine (acpiGetRsdp_eq hne).mpr ⟨?_, hle, hlt, (hstarts rsdp (Nat.le_refl _)).mpr hlowest.starts, ?_⟩
  · rw [hsegment]
    intro j hj hjlt hj'
    exact hsearched j hj hjlt ((hstarts j (by omega)).mp hj')
  · intro j hj hjlt hj'
    exact hlowest.below j hj hjlt ((hstarts j (by omega)).mp hj')

/-- The 16 bytes do not matter if they give the same address of an XSDT and are read for nothing else. -/
theorem outcome_congr (hrev : Revision0 m rsdp) (h : ∀ a, ¬ Behind rsdp a → m' a = m a)
    (hxsdt : acpiGetXsdt m' rsdp = acpiGetXsdt m rsdp)
    (hunread : Unread m (acpiGetRsdt m rsdp) (acpiGetXsdt m rsdp) (Behind rsdp) sought) :
    outcome m' = outcome m := by
  have hle := ((acpiGetRsdp_eq hrev.present).mp hrev.found).2.lt
  have hrsdt : acpiGetRsdt m' rsdp = acpiGetRsdt m rsdp := by
    apply field_congr
    intro k hk
    rw [u64_of_lt (by omega)]
    exact h _ fun hb => by
      have := hb.1
      omega
  rw [outcome, outcome, hrev.found, acpiGetRsdp_congr h hrev.present hrev.found, hrsdt, hxsdt,
    seek_congr h hunread]

end Kvi.Acpi
