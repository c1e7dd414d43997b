import Kvi.Acpi.Revision

/-! What the bytes behind a root pointer of revision 0 do.

Whatever the rest of memory is, the 16 bytes do not matter exactly if they give the
same address of an XSDT (`harmless_iff`). For two addresses there is an image in
which one is the address of a list with a FADT and no other table, and the other
is not the address of any list. -/
namespace Kvi.Acpi
open Init

/-- The bytes behind the root pointer are those of `c`. -/
def FollowedBy (m : Memory) (rsdp : Nat) (c : Memory) : Prop := ∀ k < 16, m (rsdp + 20 + k) = c k

/-- In every image, the bytes of `c` and those of `c'` lead to the same tables or the same failure. -/
def Harmless (c c' : Memory) : Prop := ∀ m m' rsdp, Revision0 m rsdp → Revision0 m' rsdp →
  FollowedBy m rsdp c → FollowedBy m' rsdp c' → (∀ a, ¬ Behind rsdp a → m' a = m a) →
  Unread m (acpiGetRsdt m rsdp) (acpiGetXsdt m rsdp) (Behind rsdp) sought →
  Unread m' (acpiGetRsdt m' rsdp) (acpiGetXsdt m' rsdp) (Behind rsdp) sought → outcome m' = outcome m

def rootBytes : List UInt8 := [0x52, 0x53, 0x44, 0x20, 0x50, 0x54, 0x52]
def fadtBytes : List UInt8 := [0x46, 0x41, 0x43, 0x50]

/-- A list of 40 bytes at `xsdt`, with one entry, and a FADT at `p`. -/
def tables (xsdt p : Nat) : Memory :=
  let m : Memory := fun _ => 0
  let m := m.write p fadtBytes
  let m := m.write (u64 (xsdt + 4)) [40]
  m.write (u64 (xsdt + 36)) [UInt8.ofNat p]

/-- With a root pointer at `rsdp` that is followed by `c`. -/
def image (rsdp xsdt p : Nat) (c : Memory) : Memory :=
  ((tables xsdt p).write rsdp rootBytes).write (rsdp + 20) ((List.range 16).map c)

/-- Far enough from each other. -/
def Clear (d a x : Nat) : Prop := a + d ≤ x ∨ x + d ≤ a

/-- The parts of an image do not overlap, and nothing is where a list at `other` would have its
length. -/
structure Placed (rsdp xsdt p other : Nat) : Prop where
  bios : 0xe0000 ≤ rsdp ∧ rsdp < 0xfff00
  low : 0x30 ≤ p ∧ p < 0x100 ∧ UInt8.ofNat p ≠ 0x52
  rsdpLength : Clear 64 (u64 (xsdt + 4)) rsdp
  rsdpEntry : Clear 64 (u64 (xsdt + 36)) rsdp
  rsdpOther : Clear 64 (u64 (other + 4)) rsdp
  tableLength : Clear 16 (u64 (xsdt + 4)) p
  tableEntry : Clear 16 (u64 (xsdt + 36)) p
  tableOther : Clear 16 (u64 (other + 4)) p
  other : other = 0 ∨ ∀ k < 4, u64 (other + 4) + k ≠ u64 (xsdt + 4) ∧ u64 (other + 4) + k ≠ u64 (xsdt + 36)

variable {m m' c c' : Memory} {rsdp xsdt p other k a x y : Nat} {sig : CString}

/-- Eight of the bytes are the address of the XSDT. -/
theorem acpiGetXsdt_followedBy (hc : FollowedBy m rsdp c) (hlt : rsdp < 0xfffff) :
    acpiGetXsdt m rsdp = c.load 4 8 := by
  rw [acpiGetXsdt, field, u64_of_lt (by omega)]
  apply Memory.load_eq_of_bytes
  intro i hi
  have hbyte := hc (4 + i) (by omega)
  rwa [← Nat.add_assoc, Nat.add_assoc rsdp] at hbyte

/-- Of four places that are far from each other one is clear of three addresses. -/
theorem exists_clear {d x₀ step : Nat} (hstep : 2 * d ≤ step) (a b e : Nat) :
    ∃ i < 4, Clear d a (x₀ + i * step) ∧ Clear d b (x₀ + i * step) ∧ Clear d e (x₀ + i * step) := by
  by_contra hnone
  have h : ∀ i < 4, ¬ (Clear d a (x₀ + i * step) ∧ Clear d b (x₀ + i * step) ∧
      Clear d e (x₀ + i * step)) := fun i hi hc => hnone ⟨i, hi, hc⟩
  have h0 := h 0 (by decide)
  have h1 := h 1 (by decide)
  have h2 := h 2 (by decide)
  have h3 := h 3 (by decide)
  unfold Clear at h0 h1 h2 h3
  omega

theorem other_or {x y : Nat} (hx : x < 2 ^ 64) (hy : y < 2 ^ 64) (hne : x ≠ y) :
    (∀ k < 4, u64 (y + 4) + k ≠ u64 (x + 4) ∧ u64 (y + 4) + k ≠ u64 (x + 36)) ∨
      ∀ k < 4, u64 (x + 4) + k ≠ u64 (y + 4) ∧ u64 (x + 4) + k ≠ u64 (y + 36) := by
  by_contra h
  rw [not_or] at h
  obtain ⟨h₁, h₂⟩ := h
  simp only [not_forall] at h₁ h₂
  obtain ⟨k, hk, h₁⟩ := h₁
  obtain ⟨l, hl, h₂⟩ := h₂
  unfold u64 at h₁ h₂
  omega

/-! ### The bytes of an image -/

@[simp] theorem length_rootBytes : rootBytes.length = 7 := rfl

@[simp] theorem length_fadtBytes : fadtBytes.length = 4 := rfl

theorem followedBy_image : FollowedBy (image rsdp xsdt p c) rsdp c := by
  intro k hk
  rw [image, Memory.write_inside (by simpa using hk)]
  simp [hk]

/-- Outside of the 16 bytes all images with the same parts agree. -/
theorem image_congr (ha : ¬ Behind rsdp a) : image rsdp xsdt p c' a = image rsdp xsdt p c a := by
  have hout : a < rsdp + 20 ∨ rsdp + 20 + 16 ≤ a := by
    unfold Behind at ha
    omega
  rw [image, Memory.write_outside (by simpa using hout)]
  exact (Memory.write_outside (by simpa using hout)).symm

theorem image_root (hk : k < 7) : image rsdp xsdt p c (rsdp + k) = rootBytes.getD k 0 := by
  rw [image, Memory.write_outside (.inl (by omega))]
  exact Memory.write_inside hk

/-- The rest of the root pointer is zero, as far as the tables are away from it. -/
theorem image_rest (hlo : rsdp + 7 ≤ a) (hhi : a < rsdp + 20) :
    image rsdp xsdt p c a = tables xsdt p a := by
  rw [image, Memory.write_outside (.inl hhi), Memory.write_outside (.inr hlo)]

theorem image_away (ha : a < rsdp ∨ rsdp + 36 ≤ a) : image rsdp xsdt p c a = tables xsdt p a := by
  rw [image, Memory.write_outside (by simp; omega), Memory.write_outside (by simp; omega)]

theorem tables_zero (hp : a < p ∨ p + 4 ≤ a) (hlength : a ≠ u64 (xsdt + 4))
    (hentry : a ≠ u64 (xsdt + 36)) : tables xsdt p a = 0 := by
  rw [tables, Memory.write_outside (by simp; omega), Memory.write_outside (by simp; omega),
    Memory.write_outside (by simpa using hp)]

theorem tables_length : tables xsdt p (u64 (xsdt + 4)) = 40 := by
  have hne : u64 (xsdt + 4) ≠ u64 (xsdt + 36) := by
    unfold u64
    omega
  rw [tables, Memory.write_outside (by simp; omega)]
  exact Memory.write_inside (i := 0) Nat.zero_lt_one

theorem tables_entry : tables xsdt p (u64 (xsdt + 36)) = UInt8.ofNat p :=
  Memory.write_inside (i := 0) Nat.zero_lt_one

theorem chars_of_bytes {bs : List UInt8} (h : ∀ k < bs.length, m (u64 (p + k)) = bs.getD k 0) :
    chars m p bs.length = bs.map UInt8.toInt8 := by
  apply List.ext_getElem
  · rw [chars, List.length_map, List.length_map, List.length_range]
  · intro k _ hk
    rw [List.length_map] at hk
    simp only [chars, List.getElem_map, List.getElem_range]
    rw [h k hk, List.getD_eq_getElem?_getD, List.getElem?_eq_getElem hk]
    rfl

section Placed
variable (h : Placed rsdp xsdt p other)
include h

theorem tables_fadt (hk : k < 4) : tables xsdt p (p + k) = fadtBytes.getD k 0 := by
  have hlength := h.tableLength
  have hentry := h.tableEntry
  unfold Clear at hlength hentry
  rw [tables, Memory.write_outside (by simp; omega), Memory.write_outside (by simp; omega)]
  exact Memory.write_inside hk

/-- No root pointer begins below the one of the image. -/
theorem image_below (ha : a < rsdp) : image rsdp xsdt p c a ≠ 0x52 := by
  rw [image_away (.inl ha)]
  by_cases hentry : a = u64 (xsdt + 36)
  · rw [hentry, tables_entry]
    exact h.low.2.2
  by_cases hlength : a = u64 (xsdt + 4)
  · rw [hlength, tables_length]
    decide
  by_cases hp : a < p ∨ p + 4 ≤ a
  · rw [tables_zero hp hlength hentry]
    decide
  · obtain ⟨k, rfl⟩ := Nat.exists_eq_add_of_le (show p ≤ a by omega)
    rw [tables_fadt h (by omega)]
    have hk : k < 4 := by omega
    interval_cases k <;> decide

/-- The tables are away from the root pointer and from the bytes behind it. -/
theorem tables_near (hlo : rsdp ≤ a) (hhi : a < rsdp + 36) : tables xsdt p a = 0 := by
  have hbios := h.bios
  have hlow := h.low
  have hlength := h.rsdpLength
  have hentry := h.rsdpEntry
  unfold Clear at hlength hentry
  exact tables_zero (by omega) (by omega) (by omega)

/-! ### Its root pointer -/

theorem image_field {off n : Nat} (hlo : 7 ≤ off) (hhi : off + n ≤ 20) :
    field (image rsdp xsdt p c) rsdp off n = 0 := by
  have hbios := h.bios
  rw [field, u64_of_lt (by omega)]
  apply Memory.load_zero
  intro i hi
  rw [image_rest (by omega) (by omega)]
  exact tables_near h (by omega) (by omega)

theorem image_xsdt : acpiGetXsdt (image rsdp xsdt p c) rsdp = c.load 4 8 := by
  have hbios := h.bios
  exact acpiGetXsdt_followedBy followedBy_image (by omega)

theorem image_rsdt : acpiGetRsdt (image rsdp xsdt p c) rsdp = 0 :=
  image_field h (by decide) (by decide)

theorem image_revision0 : Revision0 (image rsdp xsdt p c) rsdp := by
  have hbios := h.bios
  have hbelow : ∀ j < rsdp, ¬ Starts (image rsdp xsdt p c) RSDT_SIG j := by
    intro j hj hstarts
    have hbyte := byte_of_starts hstarts
    rw [u64_of_lt (by omega)] at hbyte
    exact image_below h hj hbyte
  have hstarts : Starts (image rsdp xsdt p c) RSDT_SIG rsdp := by
    refine @chars_of_bytes _ _ rootBytes fun k hk => ?_
    have hk : k < 7 := hk
    rw [u64_of_lt (by omega)]
    exact image_root hk
  have hsearched : searched (image rsdp xsdt p c) < 0x40000 := by
    have := Memory.load_lt (image rsdp xsdt p c) 0x40e 2
    rw [searched]
    omega
  refine ⟨(acpiGetRsdp_eq (by omega)).mpr ⟨fun j _ hj => hbelow j (by omega), by omega, by omega,
    hstarts, fun j _ hj => hbelow j hj⟩, by omega, image_field h (by decide) (by decide)⟩

/-! ### Its tables -/

theorem image_length : field (image rsdp xsdt p c) xsdt 4 4 = 40 := by
  have hrsdp := h.rsdpLength
  have htable := h.tableLength
  unfold Clear at hrsdp htable
  apply Memory.load_byte (n := 3) (by decide)
  · rw [image_away (by omega), tables_length]
    rfl
  · intro i hi hi4
    have hentry : u64 (xsdt + 4) + i ≠ u64 (xsdt + 36) := by
      unfold u64
      omega
    rw [image_away (by omega), tables_zero (by omega) (by omega) hentry]

theorem image_slot : slot (image rsdp xsdt p c) xsdt 8 0 = p := by
  have hrsdp := h.rsdpEntry
  have htable := h.tableEntry
  have hlow := h.low
  unfold Clear at hrsdp htable
  show (image rsdp xsdt p c).load (u64 (xsdt + 36)) 8 = p
  apply Memory.load_byte (n := 7) hlow.2.1
  · rw [image_away (by omega)]
    exact tables_entry
  · intro i hi hi8
    have hlength : u64 (xsdt + 36) + i ≠ u64 (xsdt + 4) := by
      unfold u64
      omega
    rw [image_away (by omega), tables_zero (by omega) hlength (by omega)]

theorem image_chars : chars (image rsdp xsdt p c) p 4 = FADT_SIG.chars := by
  have hbios := h.bios
  have hlow := h.low
  refine @chars_of_bytes _ _ fadtBytes fun k hk => ?_
  have hk : k < 4 := hk
  rw [u64_of_lt (by omega), image_away (by omega)]
  exact tables_fadt h hk

/-- There is no list at the other address. -/
theorem image_other (hne : other ≠ 0) : field (image rsdp xsdt p c) other 4 4 = 0 := by
  have hrsdp := h.rsdpOther
  have htable := h.tableOther
  have hother := h.other.resolve_left hne
  unfold Clear at hrsdp htable
  apply Memory.load_zero
  intro i hi
  rw [image_away (by omega), tables_zero (by omega) (hother i hi).1 (hother i hi).2]

theorem image_starts (hsig : strlen sig = 4) :
    Starts (image rsdp xsdt p c) sig p ↔ FADT_SIG.chars = sig.chars := by
  rw [Starts, hsig, image_chars h]

theorem image_xsdtEntry (hsig : strlen sig = SIG_LEN) :
    acpiGetXsdtEntry (image rsdp xsdt p c) xsdt sig = if FADT_SIG.chars = sig.chars then p else 0 := by
  have hslots : slots (image rsdp xsdt p c) xsdt 8 1 = [p] := by
    rw [slots, List.range_one, List.map_singleton, image_slot h]
  rw [acpiGetXsdtEntry_eq hsig, image_length h, show (40 - 36) / 4 = 1 from rfl, hslots, List.find?_singleton]
  by_cases hchars : FADT_SIG.chars = sig.chars
  · rw [if_pos hchars, if_pos (decide_eq_true ((image_starts h hsig).mpr hchars))]
    rfl
  · rw [if_neg hchars, if_neg (mt of_decide_eq_true (mt (image_starts h hsig).mp hchars))]
    rfl

omit h in
theorem fromRsdt_zero : fromRsdt m 0 sig = 0 := by
  rw [fromRsdt, listed, if_pos rfl]
  rfl

theorem outcome_image (hc : c.load 4 8 = xsdt) (hne : xsdt ≠ 0) :
    outcome (image rsdp xsdt p c) = .error .madt := by
  have hroot := image_revision0 (c := c) h
  have hlow := h.low
  have hfadt : acpiGetEntry (image rsdp xsdt p c) 0 xsdt FADT_SIG = p :=
    acpiGetEntry_present hne (image_xsdtEntry h rfl) (by omega)
  have hmadt : acpiGetEntry (image rsdp xsdt p c) 0 xsdt MADT_SIG = 0 := by
    rw [acpiGetEntry_absent rfl fun _ => image_xsdtEntry h rfl]
    exact fromRsdt_zero
  rw [outcome, hroot.found, if_neg hroot.present, image_rsdt h, image_xsdt h, hc,
    if_neg fun hand => hne hand.2, sought, seek, hfadt, if_neg (by omega), seek, if_pos hmadt]
  rfl

theorem outcome_other (hc : c.load 4 8 = other) :
    outcome (image rsdp xsdt p c) = .error .lists ∨ outcome (image rsdp xsdt p c) = .error .fadt := by
  have hroot := image_revision0 (c := c) h
  rw [outcome, hroot.found, if_neg hroot.present, image_rsdt h, image_xsdt h, hc]
  by_cases hzero : other = 0
  · rw [if_pos ⟨rfl, hzero⟩]
    exact .inl rfl
  · have hnone : acpiGetXsdtEntry (image rsdp xsdt p c) other FADT_SIG = 0 := by
      rw [acpiGetXsdtEntry_eq rfl, image_other h hzero]
      rfl
    have hfadt : acpiGetEntry (image rsdp xsdt p c) 0 other FADT_SIG = 0 := by
      rw [acpiGetEntry_absent rfl fun _ => hnone]
      exact fromRsdt_zero
    rw [if_neg fun hand => hzero hand.2, sought, seek, if_pos hfadt]
    exact .inr rfl

/-! ### What the lookups read -/

omit h in
theorem not_behind {x : Nat} (hx : Clear 64 x rsdp) (hk : k < 8) : ¬ Behind rsdp (x + k) := by
  unfold Clear at hx
  unfold Behind
  omega

theorem unread_image (hc : c.load 4 8 = xsdt) : Unread (image rsdp xsdt p c)
    (acpiGetRsdt (image rsdp xsdt p c) rsdp) (acpiGetXsdt (image rsdp xsdt p c) rsdp)
    (Behind rsdp) sought := by
  have hbios := h.bios
  have hlow := h.low
  rw [image_rsdt h, image_xsdt h, hc]
  apply unread_of_all
  intro sig a hlook
  have hscanned := (hlook.resolve_right fun hr => hr.2.1 rfl).2
  have hfirst : ∀ i, Reaches (image rsdp xsdt p c) xsdt 8 (entryCount (image rsdp xsdt p c) xsdt) sig i →
      i = 0 := by
    intro i hi
    have hlt := (lt_entryCount _ _ _).mp hi.1
    rw [image_length h] at hlt
    omega
  cases hscanned with
  | length hk => exact not_behind h.rsdpLength (by omega)
  | entry hi hk =>
    rw [hfirst _ hi]
    exact not_behind h.rsdpEntry hk
  | signature hi hk =>
    rename_i k
    have hk : k < 4 := hk
    rw [hfirst _ hi, image_slot h, u64_of_lt (by omega)]
    intro hbehind
    have := hbehind.1
    omega

theorem unread_other (hc : c.load 4 8 = other) : Unread (image rsdp xsdt p c)
    (acpiGetRsdt (image rsdp xsdt p c) rsdp) (acpiGetXsdt (image rsdp xsdt p c) rsdp)
    (Behind rsdp) sought := by
  rw [image_rsdt h, image_xsdt h, hc]
  apply unread_of_all
  intro sig a hlook
  obtain ⟨hne, hscanned⟩ := hlook.resolve_right fun hr => hr.2.1 rfl
  have hnone : ∀ i, ¬ Reaches (image rsdp xsdt p c) other 8 (entryCount (image rsdp xsdt p c) other) sig i := by
    intro i hi
    have hlt := (lt_entryCount _ _ _).mp hi.1
    rw [image_other h hne] at hlt
    omega
  cases hscanned with
  | length hk => exact not_behind h.rsdpOther (by omega)
  | entry hi hk => exact absurd hi (hnone _)
  | signature hi hk => exact absurd hi (hnone _)

/-- The address of the list and the other one lead to different failures. -/
theorem not_harmless (hc : c.load 4 8 = xsdt) (hc' : c'.load 4 8 = other) (hne : xsdt ≠ 0) :
    ¬ Harmless c c' := by
  intro hsame
  have heq := hsame (image rsdp xsdt p c) (image rsdp xsdt p c') rsdp (image_revision0 h)
    (image_revision0 h) followedBy_image followedBy_image (fun a ha => image_congr ha)
    (unread_image h hc) (unread_other h hc')
  rw [outcome_image h hc hne] at heq
  rcases outcome_other h hc' with hother | hother
  · rw [hother] at heq
    cases heq
  · rw [hother] at heq
    cases heq

end Placed

/-! ### The bytes that matter -/

theorem Harmless.symm (h : Harmless c c') : Harmless c' c := by
  intro m m' rsdp hm hm' hc hc' hsame hunread hunread'
  exact (h m' m rsdp hm' hm hc' hc (fun a ha => (hsame a ha).symm) hunread' hunread).symm

/-- There are places for the parts. -/
theorem exists_placed (hother : other = 0 ∨ ∀ k < 4, u64 (other + 4) + k ≠ u64 (xsdt + 4) ∧
    u64 (other + 4) + k ≠ u64 (xsdt + 36)) : ∃ rsdp p, Placed rsdp xsdt p other := by
  obtain ⟨i, hi, hi₁, hi₂, hi₃⟩ := @exists_clear 64 0xe0000 0x1000 (by decide) (u64 (xsdt + 4))
    (u64 (xsdt + 36)) (u64 (other + 4))
  obtain ⟨j, hj, hj₁, hj₂, hj₃⟩ := @exists_clear 16 0x30 0x30 (by decide) (u64 (xsdt + 4))
    (u64 (xsdt + 36)) (u64 (other + 4))
  refine ⟨_, _, ⟨by omega, by omega⟩, ⟨by omega, by omega, ?_⟩, hi₁, hi₂, hi₃, hj₁, hj₂, hj₃, hother⟩
  interval_cases j <;> decide

/-- The 16 bytes are harmless, whatever the images are, if and only if the eight that are taken for
the address of an XSDT are the same. -/
theorem harmless_iff (c c' : Memory) : Harmless c c' ↔ c.load 4 8 = c'.load 4 8 := by
  constructor
  · intro hsame
    by_contra hne
    have hc := Memory.load_lt c 4 8
    have hc' := Memory.load_lt c' 4 8
    by_cases hzero : c.load 4 8 = 0
    · obtain ⟨rsdp, p, hplaced⟩ := @exists_placed (c'.load 4 8) (c.load 4 8) (.inl hzero)
      exact not_harmless hplaced rfl rfl (by omega) hsame.symm
    by_cases hzero' : c'.load 4 8 = 0
    · obtain ⟨rsdp, p, hplaced⟩ := @exists_placed (c.load 4 8) (c'.load 4 8) (.inl hzero')
      exact not_harmless hplaced rfl rfl hzero hsame
    rcases other_or (by omega) (by omega) hne with hother | hother
    · obtain ⟨rsdp, p, hplaced⟩ := exists_placed (.inr hother)
      exact not_harmless hplaced rfl rfl hzero hsame
    · obtain ⟨rsdp, p, hplaced⟩ := exists_placed (.inr hother)
      exact not_harmless hplaced rfl rfl hzero' hsame.symm
  · intro heq m m' rsdp hm hm' hc hc' hsame hunread _
    have hlt := ((acpiGetRsdp_eq hm.present).mp hm.found).2.lt
    refine outcome_congr hm hsame ?_ hunread
    rw [acpiGetXsdt_followedBy hc' hlt, acpiGetXsdt_followedBy hc hlt, heq]

/-- An RSDT with three tables, and an XSDT at 0x5000 that nobody uses. The root pointer has revision 0,
and eight of the bytes behind it are those of `stale`. -/
def leftOver (stale : Nat) : Memory :=
  let m : Memory := fun _ => 0
  let m := ((m.store 0x1004 4 48).store 0x1024 4 0x2000).store 0x1028 4 0x3000
  let m := (m.store 0x102c 4 0x4000).store 0x2000 4 0x50434146
  let m := (m.store 0x3000 4 0x43495041).store 0x4000 4 0x54455048
  let m := ((m.store 0x5004 4 44).store 0x5024 8 0x6000).store 0x6000 4 0x50434146
  let m := (m.store 0xe0000 7 0x52545020445352).store 0xe0010 4 0x1000
  m.store 0xe0018 8 stale

theorem leftOver_zero {stale : Nat} (ha : a < 0x1000 ∨ 0x7000 ≤ a ∧ a < 0xe0000) :
    leftOver stale a = 0 := by
  simp (disch := omega) only [leftOver, Memory.store_outside]

theorem leftOver_revision0 {stale : Nat} (hstarts : Starts (leftOver stale) RSDT_SIG 0xe0000)
    (hrevision : field (leftOver stale) 0xe0000 15 1 = 0) : Revision0 (leftOver stale) 0xe0000 := by
  have hsearched : searched (leftOver stale) = 0 := by
    rw [searched, Memory.load_zero fun i hi => leftOver_zero (.inl (by omega))]
  refine ⟨(acpiGetRsdp_eq (by decide)).mpr ⟨fun j _ hj hj' => ?_, by decide, by decide, hstarts,
    fun j hlo hj => absurd hlo (by omega)⟩, by decide, hrevision⟩
  rw [hsearched] at hj
  have hbyte := byte_of_starts hj'
  rw [u64_of_lt (by omega), leftOver_zero (.inl (by omega))] at hbyte
  exact absurd hbyte (by decide)

theorem outcome_of_entries (rsdt xsdt : Nat) {fadt madt hpet : Nat} (hrev : Revision0 m rsdp)
    (hrsdt : acpiGetRsdt m rsdp = rsdt) (hxsdt : acpiGetXsdt m rsdp = xsdt) (hne : rsdt ≠ 0)
    (hfadt : acpiGetEntry m rsdt xsdt FADT_SIG = fadt) (hmadt : acpiGetEntry m rsdt xsdt MADT_SIG = madt)
    (hhpet : acpiGetEntry m rsdt xsdt HPET_SIG = hpet) (hfound : fadt ≠ 0 ∧ madt ≠ 0 ∧ hpet ≠ 0) :
    outcome m = .ok [fadt, madt, hpet] := by
  rw [outcome, hrev.found, if_neg hrev.present, hrsdt, hxsdt, if_neg fun hand => hne hand.1, sought,
    seek, hfadt, if_neg hfound.1, seek, hmadt, if_neg hfound.2.1, seek, hhpet, if_neg hfound.2.2]
  rfl

/-- The list that nobody uses is searched first. -/
theorem leftOver_found : outcome (leftOver 0) = .ok [0x2000, 0x3000, 0x4000] ∧
    outcome (leftOver 0x5000) = .ok [0x6000, 0x3000, 0x4000] ∧
    ¬ ∀ m m' rsdp, Revision0 m rsdp → Revision0 m' rsdp → (∀ a, ¬ Behind rsdp a → m' a = m a) →
      outcome m' = outcome m := by
  have hunused : Revision0 (leftOver 0) 0xe0000 :=
    leftOver_revision0 (by decide +kernel) (by decide +kernel)
  have hused : Revision0 (leftOver 0x5000) 0xe0000 :=
    leftOver_revision0 (by decide +kernel) (by decide +kernel)
  have hright : outcome (leftOver 0) = .ok [0x2000, 0x3000, 0x4000] := by
    apply outcome_of_entries 0x1000 0 hunused (by decide +kernel) (by decide +kernel) (by decide)
    · exact (acpiGetEntry_absent rfl fun hne => absurd rfl hne).trans (by decide +kernel)
    · exact (acpiGetEntry_absent rfl fun hne => absurd rfl hne).trans (by decide +kernel)
    · exact (acpiGetEntry_absent rfl fun hne => absurd rfl hne).trans (by decide +kernel)
    · decide
  have hwrong : outcome (leftOver 0x5000) = .ok [0x6000, 0x3000, 0x4000] := by
    apply outcome_of_entries 0x1000 0x5000 hused (by decide +kernel) (by decide +kernel) (by decide)
    · exact acpiGetEntry_present (by decide) (by decide +kernel) (by decide)
    · exact (acpiGetEntry_absent rfl fun _ => by decide +kernel).trans (by decide +kernel)
    · exact (acpiGetEntry_absent rfl fun _ => by decide +kernel).trans (by decide +kernel)
    · decide
  refine ⟨hright, hwrong, fun hall => ?_⟩
  have hsame := hall _ _ _ hunused hused fun a ha => ?_
  · rw [hright, hwrong] at hsame
    cases hsame
  · unfold Behind at ha
    exact (Memory.store_outside (by omega)).trans (Memory.store_outside (by omega)).symm

end Kvi.Acpi
