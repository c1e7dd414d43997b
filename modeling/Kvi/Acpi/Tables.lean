import Kvi.Init.Order
import Kvi.Library.Memory
import Kvi.Library.Word

/-! The tables of the firmware.

`acpi_init` looks for the root pointer in memory, follows it to the two lists of
tables, finds three tables in them by their signatures, and takes the processors
and two addresses from those. It returns as soon as something is missing, and
leaves the rest of its variables as they were. All of it is read from memory as
the firmware left it; the structures are packed, so that a field is a number of
bytes behind the pointer. -/
namespace Kvi.Acpi
open Init

def RSDT_SIG : CString := cstring ['R', 'S', 'D', ' ', 'P', 'T', 'R'] (by decide)
def FADT_SIG : CString := cstring ['F', 'A', 'C', 'P'] (by decide)
def MADT_SIG : CString := cstring ['A', 'P', 'I', 'C'] (by decide)
def HPET_SIG : CString := cstring ['H', 'P', 'E', 'T'] (by decide)
def SIG_LEN : Nat := 4
def ADDRESS_SPACE_ID_IO : Nat := 1

/-- `struct cpuinfo` -/
structure CpuInfo where
  procId : UInt8
  apicId : UInt8
  deriving DecidableEq, Repr

/-- `struct cpulist`, with all the elements of `info` that were written. -/
structure CpuList where
  num : Nat
  info : List CpuInfo
  deriving DecidableEq, Repr

/-- The variables of the module. The pointer to the processors is `NULL` or the list created. -/
structure Globals where
  rsdp : Nat
  rsdt : Nat
  xsdt : Nat
  madt : Nat
  fadt : Nat
  hpet : Nat
  cpulist : Option CpuList
  pmtIobase : Nat
  hpetMmiobase : Nat
  deriving DecidableEq, Repr

/-- Before the first call. -/
def Globals.zero : Globals := ⟨0, 0, 0, 0, 0, 0, none, 0, 0⟩

/-- Where `acpi_init` returns early. -/
inductive Failure where
  | rsdp
  | lists
  | fadt
  | madt
  | hpet
  deriving DecidableEq, Repr

/-- What it prints there. -/
def Failure.text : Failure → String
  | .rsdp => "ACPI: RSDP not found.\n"
  | .lists => "ACPI: Neither RSDT nor XSDT not found.\n"
  | .fadt => "ACPI: FADT not found.\n"
  | .madt => "ACPI: MADT not found.\n"
  | .hpet => "ACPI: HPET not found.\n"

/-! ### The search -/

/-- The field of `n` bytes, `off` bytes behind the pointer `p`. -/
def field (m : Memory) (p off n : Nat) : Nat := m.load (u64 (p + off)) n

/-- `n` characters from `p` on. -/
def chars (m : Memory) (p n : Nat) : List Int8 := (List.range n).map fun k => (m (u64 (p + k))).toInt8

/-- `!memcmp (p, sig, len)` -/
def matchesAt (m : Memory) (sig : CString) (len p : Nat) : Bool :=
  memcmp (chars m p len) sig.chars len = 0

/-- `for (i = begin; i < end; i++)`, until the signature of the root pointer is found. -/
def scan (m : Memory) (first last : Nat) : Option Nat :=
  (List.range' first (last - first)).find? (matchesAt m RSDT_SIG (strlen RSDT_SIG))

@[irreducible] def acpiGetRsdp (m : Memory) : Nat :=
  let first := u32 (u32 (m.load 0x40e 2) <<< 2)
  let last := u32 (first + 0x3ff)
  match scan m first last with
  | some _ => 0
  | none =>
    match scan m 0xe0000 0xfffff with
    | some i => i
    | none => 0

def acpiGetRsdt (m : Memory) (rsdp : Nat) : Nat := field m rsdp 16 4

def acpiGetXsdt (m : Memory) (rsdp : Nat) : Nat := field m rsdp 24 8

/-- The loop over the `len` entries, which are pointers. -/
def findEntry (m : Memory) (entry : Nat → Nat) (len : Int) (sig : CString) : Nat :=
  match (List.range len.toNat).find? fun i => matchesAt m sig SIG_LEN (entry i) with
  | some i => entry i
  | none => 0

/-- The bytes of a table behind its header, divided by four, as an `int`. -/
def entryCount (m : Memory) (table : Nat) : Int := s32 (sub64 (field m table 4 4) 36 / 4)

def acpiGetXsdtEntry (m : Memory) (xsdt : Nat) (sig : CString) : Nat :=
  findEntry m (fun i => field m xsdt (36 + 8 * i) 8) (entryCount m xsdt) sig

def acpiGetRsdtEntry (m : Memory) (rsdt : Nat) (sig : CString) : Nat :=
  findEntry m (fun i => field m rsdt (36 + 4 * i) 4) (entryCount m rsdt) sig

@[irreducible] def acpiGetEntry (m : Memory) (rsdt xsdt : Nat) (sig : CString) : Nat :=
  let p := if xsdt ≠ 0 then acpiGetXsdtEntry m xsdt sig else 0
  if p = 0 ∧ rsdt ≠ 0 then acpiGetRsdtEntry m rsdt sig else p

end Kvi.Acpi

namespace Kvi.Memory
open Acpi

/-! ### What the tables say -/

/-- The first loop of `acpi_create_cpulist`: the enabled processors. -/
def countCpus (m : Memory) (last e cpunum : Nat) : Option Nat :=
  if e = last then some cpunum
  else do
    let cpunum := if field m e 0 1 = 0 ∧ field m e 4 4 &&& 1 ≠ 0 then cpunum + 1 else cpunum
    m |>.countCpus last (u64 (e + field m e 1 1)) cpunum
partial_fixpoint

/-- The second loop: all processors. -/
def fillCpus (m : Memory) (last e : Nat) (info : List CpuInfo) : Option (List CpuInfo) :=
  if e = last then some info
  else do
    let info := if field m e 0 1 = 0 then info ++ [⟨m (u64 (e + 2)), m (u64 (e + 3))⟩] else info
    m |>.fillCpus last (u64 (e + field m e 1 1)) info
partial_fixpoint

end Kvi.Memory

namespace Kvi.Acpi
open Init
export Memory (countCpus fillCpus)

/-- `none` is for a walk that does not end. -/
def acpiCreateCpulist (m : Memory) (madt : Nat) : Option CpuList := do
  let first := u64 (madt + 44)
  let last := u64 (madt + field m madt 4 4)
  let cpunum ← countCpus m last first 0
  let info ← fillCpus m last first []
  some ⟨u16 cpunum, info⟩

/-- The port of the power management timer, `0` where there is none. -/
def acpiPmtInit (m : Memory) (fadt : Nat) : Nat :=
  let length := field m fadt 4 4
  if 208 + 12 < length ∧ field m fadt 208 1 = ADDRESS_SPACE_ID_IO ∧ field m fadt 212 8 ≤ 0xfff then
    u16 (field m fadt 212 8)
  else if 64 + 4 < length then u16 (field m fadt 64 4)
  else 0

/-- `hpet->hpet.address` -/
def acpiHpetInit (m : Memory) (hpet : Nat) : Nat := field m hpet 44 8

/-- `acpi_init`, and where it gave up. -/
def acpiInit (m : Memory) (s : Globals) : Option (Globals × Option Failure) := do
  let s := {s with rsdp := acpiGetRsdp m}
  if s.rsdp = 0 then
    return (s, some .rsdp)
  let s := {s with rsdt := acpiGetRsdt m s.rsdp, xsdt := acpiGetXsdt m s.rsdp}
  if s.rsdt = 0 ∧ s.xsdt = 0 then
    return (s, some .lists)
  let s := {s with fadt := acpiGetEntry m s.rsdt s.xsdt FADT_SIG}
  if s.fadt = 0 then
    return (s, some .fadt)
  let s := {s with madt := acpiGetEntry m s.rsdt s.xsdt MADT_SIG}
  if s.madt = 0 then
    return (s, some .madt)
  let s := {s with hpet := acpiGetEntry m s.rsdt s.xsdt HPET_SIG}
  if s.hpet = 0 then
    return (s, some .hpet)
  let cpulist ← acpiCreateCpulist m s.madt
  let s := {s with cpulist := some cpulist}
  let s := {s with pmtIobase := acpiPmtInit m s.fadt}
  return ({s with hpetMmiobase := acpiHpetInit m s.hpet}, none)

variable {m : Memory} {s s' : Globals} {e : Option Failure} {madt p : Nat}

/-! ### Early returns -/

/-- The root pointer, a list of tables and the three tables are found. -/
structure Found (m : Memory) : Prop where
  rsdp : acpiGetRsdp m ≠ 0
  lists : acpiGetRsdt m (acpiGetRsdp m) ≠ 0 ∨ acpiGetXsdt m (acpiGetRsdp m) ≠ 0
  tables : ∀ sig ∈ [FADT_SIG, MADT_SIG, HPET_SIG],
    acpiGetEntry m (acpiGetRsdt m (acpiGetRsdp m)) (acpiGetXsdt m (acpiGetRsdp m)) sig ≠ 0

/-- The variables when `acpi_init` has given up. -/
structure GaveUp (s s' : Globals) : Prop where
  hpet : s'.hpet = s.hpet ∨ s'.hpet = 0
  cpulist : s'.cpulist = s.cpulist
  hpetMmiobase : s'.hpetMmiobase = s.hpetMmiobase

theorem acpiInit_gaveUp (s : Globals) (h : ¬ Found m) :
    ∃ s' e, acpiInit m s = some (s', some e) ∧ GaveUp s s' := by
  rw [acpiInit]
  dsimp only
  by_cases hrsdp : acpiGetRsdp m = 0
  · rw [if_pos hrsdp]
    exact ⟨_, _, rfl, .inl rfl, rfl, rfl⟩
  by_cases hlists : acpiGetRsdt m (acpiGetRsdp m) = 0 ∧ acpiGetXsdt m (acpiGetRsdp m) = 0
  · rw [if_neg hrsdp, if_pos hlists]
    exact ⟨_, _, rfl, .inl rfl, rfl, rfl⟩
  rw [if_neg hrsdp, if_neg hlists]
  by_cases hfadt : acpiGetEntry m (acpiGetRsdt m (acpiGetRsdp m)) (acpiGetXsdt m (acpiGetRsdp m)) FADT_SIG = 0
  · rw [if_pos hfadt]
    exact ⟨_, _, rfl, .inl rfl, rfl, rfl⟩
  by_cases hmadt : acpiGetEntry m (acpiGetRsdt m (acpiGetRsdp m)) (acpiGetXsdt m (acpiGetRsdp m)) MADT_SIG = 0
  · rw [if_neg hfadt, if_pos hmadt]
    exact ⟨_, _, rfl, .inl rfl, rfl, rfl⟩
  by_cases hhpet : acpiGetEntry m (acpiGetRsdt m (acpiGetRsdp m)) (acpiGetXsdt m (acpiGetRsdp m)) HPET_SIG = 0
  · rw [if_neg hfadt, if_neg hmadt, if_pos hhpet]
    refine ⟨_, _, rfl, ?_⟩
    exact ⟨.inr hhpet, rfl, rfl⟩
  -- nothing is missing
  refine absurd ⟨hrsdp, not_and_or.mp hlists, ?_⟩ h
  · intro sig hsig
    simp only [List.mem_cons, List.not_mem_nil, or_false] at hsig
    rcases hsig with rfl | rfl | rfl
    · exact hfadt
    · exact hmadt
    · exact hhpet

/-- The variables when `acpi_init` has come to its end. -/
structure Complete (m : Memory) (s : Globals) : Prop where
  hpet : s.hpet ≠ 0
  hpetMmiobase : s.hpetMmiobase = acpiHpetInit m s.hpet
  cpulist : s.cpulist ≠ none

theorem acpiInit_complete (h : Found m) (hnow : acpiInit m s = some (s', e)) :
    e = none ∧ Complete m s' := by
  have hlists := not_and_or.mpr h.lists
  have hfadt := h.tables FADT_SIG (by decide)
  have hmadt := h.tables MADT_SIG (by decide)
  have hhpet := h.tables HPET_SIG (by decide)
  rw [acpiInit] at hnow
  dsimp only at hnow
  rw [if_neg h.rsdp, if_neg hlists, if_neg hfadt, if_neg hmadt, if_neg hhpet] at hnow
  obtain ⟨l, _, heq⟩ := Option.bind_eq_some_iff.mp hnow
  obtain ⟨rfl, rfl⟩ := Prod.mk.inj (Option.some.inj heq)
  exact ⟨rfl, hhpet, rfl, Option.some_ne_none l⟩

end Kvi.Acpi
