import Kvi.Acpi.Tables
import Kvi.Drivers.Binding
import Kvi.Init.Shutdown
import Kvi.Timer.Hpet

/-! What the other stages make of the tables.

`acpi_init` reports a missing table and returns; nobody asks whether it did. The
stages after it take the processors and the address of the HPET from the
variables it has left. They run in the order of their ids, whatever the order of
the linker; at the end those of the second table run, and those whose id begins
with the string at address 0 run once more. What is kept of a stage is each use
it makes of the list of processors and of a register of the HPET. -/
namespace Kvi.Acpi
open Init

/-! ### The modules -/

def pageModule : Module :=
  ⟨cstring ['p', 'a', 'g', 'e', '.', 'c'] (by decide), cstring ['b', 's', 'p', '0'] (by decide), 1, 2⟩

def acpiModule : Module :=
  ⟨cstring ['a', 'c', 'p', 'i', '.', 'c'] (by decide), cstring ['b', 's', 'p', '1'] (by decide), 3, 4⟩

def hpetModule : Module :=
  ⟨cstring ['d', 'r', 'i', 'v', 'e', 'r', 's', '/', 'h', 'p', 'e', 't', '.', 'c'] (by decide),
    cstring ['b', 's', 'p', '2'] (by decide), 5, 6⟩

def ixgbeModule : Module :=
  ⟨cstring ['d', 'r', 'i', 'v', 'e', 'r', 's', '/', 'i', 'x', 'g', 'b', 'e', '.', 'c'] (by decide),
    Drivers.driver1, 7, 8⟩

def pciModule : Module :=
  ⟨cstring ['d', 'r', 'i', 'v', 'e', 'r', 's', '/', 'p', 'c', 'i', '.', 'c'] (by decide),
    Drivers.driver99, 9, 10⟩

def apicModule : Module :=
  ⟨cstring ['a', 'p', 'i', 'c', '.', 'c'] (by decide), Drivers.ap0, 11, 12⟩

/-- In the order of their ids. The numbers stand for the addresses of the functions. -/
def modules : List Module := [apicModule, pageModule, acpiModule, hpetModule, ixgbeModule, pciModule]

/-! ### The stages -/

inductive Use where
  | cpulist (p : Option CpuList)
  | hpet (base : Nat) (access : Timer.Access)
  deriving DecidableEq, Repr

/-- `struct cpulist` at address 0, which is memory like any other. -/
def nullList (m : Memory) : CpuList :=
  let info := m.load 8 8
  ⟨m.load 0 2, (List.range (m.load 0 2)).map fun i => ⟨m (u64 (info + 2 * i)), m (u64 (info + 2 * i + 1))⟩⟩

def deref (m : Memory) : Option CpuList → CpuList
  | some l => l
  | none => nullList m

/-- The loop over `cpulist->info`: `num` is read for each test, and `info` for each turn. -/
def loopUses (p : Option CpuList) : Nat → List Use
  | 0 => [.cpulist p]
  | n + 1 => .cpulist p :: .cpulist p :: loopUses p n

/-- `apic_init` reads `num` once more, for the size of its table. -/
def apicInitUses (m : Memory) (p : Option CpuList) : List Use := .cpulist p :: loopUses p (deref m p).num

def apicDeinitUses (m : Memory) (p : Option CpuList) : List Use := loopUses p (deref m p).num

def hpetInitUses (answer : Nat → Nat → Nat) (base : Nat) : List Use :=
  (Timer.hpetInit answer base).2.map (.hpet base)

/-- The variables of `acpi.c`, and the uses made so far. -/
structure Run where
  globals : Globals
  uses : List Use

/-- The functions of the other modules use neither. -/
def call (m : Memory) (answer : Nat → Nat → Nat) (r : Run) (data : InitData) : Option Run :=
  if data.func = acpiModule.init then do
    let (s, _) ← acpiInit m r.globals
    some {r with globals := s}
  else if data.func = hpetModule.init then
    some {r with uses := r.uses ++ hpetInitUses answer r.globals.hpetMmiobase}
  else if data.func = apicModule.init then
    some {r with uses := r.uses ++ apicInitUses m r.globals.cpulist}
  else if data.func = apicModule.deinit then
    some {r with uses := r.uses ++ apicDeinitUses m r.globals.cpulist}
  else some r

def calls (m : Memory) (answer : Nat → Nat → Nat) : List InitData → Run → Option Run
  | [], r => some r
  | data :: rest, r => do
    let r ← call m answer r data
    calls m answer rest r

/-- From `init` to its end, unless `acpi_init` never returns. -/
def run {n k : Nat} (m : Memory) (answer : Nat → Nat → Nat) (low : CString) (t : Tables n k) : Option Run :=
  calls m answer ((init low t).1 ++ (init low t).2.calls) ⟨Globals.zero, []⟩

/-- A list that was created, or an address that is in a table. -/
def Use.Contained (m : Memory) (s : Globals) : Use → Prop
  | .cpulist p => p ≠ none
  | .hpet base _ => s.hpet ≠ 0 ∧ base = acpiHpetInit m s.hpet

def Contained {n k : Nat} (m : Memory) (answer : Nat → Nat → Nat) (low : CString) (t : Tables n k) : Prop :=
  ∀ r, run m answer low t = some r → ∀ u ∈ r.uses, u.Contained m r.globals

variable {m : Memory} {answer : Nat → Nat → Nat} {low : CString} {n k : Nat} {t : Tables n k} {s : Globals}
  {p : Option CpuList} {r r' : Run} {u : Use} {data : InitData} {rest : List InitData} {base : Nat}

/-! ### The order -/

instance (p q : InitData) : Decidable (Ascending p q) := inferInstanceAs (Decidable (_ ∨ _))

theorem modules_sorted : (modules.map Module.initData).Pairwise Ascending := by decide

/-- The calls after that of `hpet_init`. -/
def later (low : CString) : List InitData :=
  [ixgbeModule, pciModule, apicModule].map Module.initData ++
    ((stage low modules).reverse ++ (staged modules).reverse).map Module.deinitData

/-- The order of the calls does not depend on the linker. -/
theorem run_eq (h : Registered modules t) : run m answer low t = calls m answer
    (pageModule.initData :: acpiModule.initData :: hpetModule.initData :: later low)
    ⟨Globals.zero, []⟩ := by
  obtain ⟨hinit, hdeinit⟩ := h.sorted_eq modules_sorted
  obtain ⟨hup, hdown⟩ := init_calls low hinit hdeinit
  rw [run, hup, hdown, ← List.map_append]
  rfl

/-! ### After `acpi_init` -/

/-- A use of what the variables hold. -/
def Use.From (s : Globals) : Use → Prop
  | .cpulist p => p = s.cpulist
  | .hpet base _ => base = s.hpetMmiobase

theorem mem_loopUses (h : u ∈ loopUses p n) : u = .cpulist p := by
  induction n with
  | zero => exact List.mem_singleton.mp h
  | succ n ih =>
    rcases List.mem_cons.mp h with rfl | h
    · rfl
    · rcases List.mem_cons.mp h with rfl | h
      · rfl
      · exact ih h

/-- What one of the other functions leaves. -/
structure After (r r' : Run) : Prop where
  globals : r'.globals = r.globals
  kept : r.uses ⊆ r'.uses
  uses : ∀ u ∈ r'.uses, u ∈ r.uses ∨ u.From r.globals

theorem After.refl (r : Run) : After r r := ⟨rfl, List.Subset.refl _, fun _ hu => .inl hu⟩

theorem After.trans {r'' : Run} (h : After r r') (h' : After r' r'') : After r r'' := by
  refine ⟨h'.globals.trans h.globals, List.Subset.trans h.kept h'.kept, fun u hu => ?_⟩
  rcases h'.uses u hu with hu | hu
  · exact h.uses u hu
  · rw [h.globals] at hu
    exact .inr hu

/-- Uses of the variables alone are added. -/
theorem After.append {us : List Use} (h : ∀ u ∈ us, u.From r.globals) :
    After r {r with uses := r.uses ++ us} := by
  refine ⟨rfl, List.subset_append_left .., fun u hu => ?_⟩
  exact (List.mem_append.mp hu).imp_right (h u)

theorem call_after (hdata : data.func ≠ acpiModule.init) :
    ∃ r', call m answer r data = some r' ∧ After r r' := by
  rw [call, if_neg hdata]
  by_cases hhpet : data.func = hpetModule.init
  · rw [if_pos hhpet]
    refine ⟨_, rfl, .append fun u hu => ?_⟩
    obtain ⟨access, _, rfl⟩ := List.mem_map.mp hu
    rfl
  by_cases hinit : data.func = apicModule.init
  · rw [if_neg hhpet, if_pos hinit]
    refine ⟨_, rfl, .append fun u hu => ?_⟩
    rcases List.mem_cons.mp hu with rfl | hu
    · rfl
    · rw [mem_loopUses hu]
      rfl
  by_cases hdeinit : data.func = apicModule.deinit
  · rw [if_neg hhpet, if_neg hinit, if_pos hdeinit]
    refine ⟨_, rfl, .append fun u hu => ?_⟩
    rw [mem_loopUses hu]
    rfl
  · rw [if_neg hhpet, if_neg hinit, if_neg hdeinit]
    exact ⟨r, rfl, .refl r⟩

theorem calls_after (h : ∀ data ∈ rest, data.func ≠ acpiModule.init) (r : Run) :
    ∃ r', calls m answer rest r = some r' ∧ After r r' := by
  induction rest generalizing r with
  | nil => exact ⟨r, rfl, .refl r⟩
  | cons data rest ih =>
    obtain ⟨r₁, hcall, h₁⟩ := call_after (h data (List.mem_cons_self ..))
    obtain ⟨r', hcalls, h'⟩ := ih (fun data hdata => h data (List.mem_cons_of_mem _ hdata)) r₁
    refine ⟨r', ?_, h₁.trans h'⟩
    rw [calls, hcall]
    exact hcalls

/-- None of the functions for the shutdown is `acpi_init`. -/
theorem deinit_ne {ms : List Module} (h : ms ⊆ modules) :
    ∀ data ∈ ms.map Module.deinitData, data.func ≠ acpiModule.init := by
  intro data hdata
  obtain ⟨a, ha, rfl⟩ := List.mem_map.mp hdata
  have hall : ∀ a ∈ modules, a.deinit ≠ acpiModule.init := by decide
  exact hall a (h ha)

theorem later_ne (low : CString) : ∀ data ∈ later low, data.func ≠ acpiModule.init := by
  intro data hdata
  rcases List.mem_append.mp hdata with hdata | hdata
  · have hall : ∀ data ∈ [ixgbeModule, pciModule, apicModule].map Module.initData,
        data.func ≠ acpiModule.init := by decide
    exact hall data hdata
  · refine deinit_ne (fun a ha => ?_) data hdata
    rcases List.mem_append.mp ha with ha | ha
    · exact List.mem_of_mem_filter (List.mem_reverse.mp ha)
    · exact List.mem_of_mem_filter ((staged_perm modules).subset (List.mem_reverse.mp ha))

theorem calls_cons : calls m answer (data :: rest) r = (call m answer r data).bind (calls m answer rest) := rfl

/-- `hpet_init` runs with what `acpi_init` has left, and so do the others. -/
theorem run_later (h : Registered modules t) : run m answer low t =
    (acpiInit m Globals.zero).bind fun left =>
      calls m answer (later low) ⟨left.1, hpetInitUses answer left.1.hpetMmiobase⟩ := by
  have hpage : call m answer ⟨Globals.zero, []⟩ pageModule.initData = some ⟨Globals.zero, []⟩ := by
    rw [call, if_neg (by decide), if_neg (by decide), if_neg (by decide), if_neg (by decide)]
  have hacpi : call m answer ⟨Globals.zero, []⟩ acpiModule.initData =
      (acpiInit m Globals.zero).bind fun left => some ⟨left.1, []⟩ := by
    rw [call, if_pos (by decide)]
    rfl
  have hhpet : ∀ s, call m answer ⟨s, []⟩ hpetModule.initData =
      some ⟨s, hpetInitUses answer s.hpetMmiobase⟩ := by
    intro s
    rw [call, if_neg (by decide), if_pos (by decide)]
    rfl
  rw [run_eq h, calls_cons, hpage, Option.bind_some, calls_cons, hacpi, Option.bind_assoc]
  refine congrArg _ (funext fun left => ?_)
  rw [Option.bind_some, calls_cons, hhpet, Option.bind_some]

/-- What a run uses, by what `acpi_init` has left. -/
structure Used (answer : Nat → Nat → Nat) (s : Globals) (r : Run) : Prop where
  globals : r.globals = s
  all : ∀ u ∈ r.uses, u.From s
  hpet : hpetInitUses answer s.hpetMmiobase ⊆ r.uses

theorem run_used (h : Registered modules t) {e : Option Failure}
    (hinit : acpiInit m Globals.zero = some (s, e)) :
    ∃ r, run m answer low t = some r ∧ Used answer s r := by
  obtain ⟨r, hcalls, hafter⟩ := calls_after (m := m) (later_ne low) ⟨s, hpetInitUses answer s.hpetMmiobase⟩
  refine ⟨r, ?_, hafter.globals, fun u hu => ?_, hafter.kept⟩
  · rw [run_later h, hinit]
    exact hcalls
  · rcases hafter.uses u hu with hu | hu
    · obtain ⟨access, _, rfl⟩ := List.mem_map.mp hu
      rfl
    · exact hu

theorem used_of_run (h : Registered modules t) (hrun : run m answer low t = some r) :
    ∃ e, acpiInit m Globals.zero = some (r.globals, e) ∧ Used answer r.globals r := by
  obtain ⟨⟨s, e⟩, hinit, _⟩ := Option.bind_eq_some_iff.mp (run_later h ▸ hrun)
  obtain ⟨r', hrun', hused⟩ := run_used h hinit
  obtain rfl := Option.some.inj (hrun.symm.trans hrun')
  rw [hused.globals]
  exact ⟨e, hinit, hused⟩

/-- Registers at address 0 are used whenever the base is 0, be it that no table was found or that the
table has no address, which `acpi_hpet_init` reports too. -/
theorem null_used_iff (h : Registered modules t) (hrun : run m answer low t = some r) :
    (∃ access, .hpet 0 access ∈ r.uses) ↔ r.globals.hpetMmiobase = 0 := by
  obtain ⟨e, _, hused⟩ := used_of_run h hrun
  constructor
  · intro ⟨access, hin⟩
    exact (hused.all _ hin).symm
  · intro hnull
    have hfirst := hused.hpet (List.mem_cons_self ..)
    rw [hnull] at hfirst
    exact ⟨_, hfirst⟩

/-- Without one of the tables, `hpet_init` uses an address that is in none. -/
theorem not_contained (h : Registered modules t) (hfound : ¬ Found m) : ¬ Contained m answer low t := by
  intro hcontained
  obtain ⟨s, e, hinit, hgave⟩ := acpiInit_gaveUp Globals.zero hfound
  obtain ⟨r, hrun, hused⟩ := run_used h hinit
  have huse := hcontained r hrun _ (hused.hpet (List.mem_cons_self ..))
  rw [hused.globals] at huse
  exact huse.1 (hgave.hpet.elim id id)

/-- Nothing goes wrong exactly when `acpi_init` does not fail. -/
theorem contained_iff_found (h : Registered modules t) : Contained m answer low t ↔ Found m := by
  refine ⟨fun hcontained => not_not.mp fun hfound => not_contained h hfound hcontained, ?_⟩
  intro hfound r hrun u hu
  obtain ⟨e, hinit, hused⟩ := used_of_run h hrun
  have hcomplete := (acpiInit_complete hfound hinit).2
  have hfrom := hused.all u hu
  cases u with
  | cpulist p =>
    obtain rfl : p = r.globals.cpulist := hfrom
    exact hcomplete.cpulist
  | hpet base access =>
    obtain rfl : base = r.globals.hpetMmiobase := hfrom
    exact ⟨hcomplete.hpet, hcomplete.hpetMmiobase⟩

/-! ### Two memories -/

/-- The modules as the linker may have put them. -/
def linked : Tables 6 6 where
  initData := ⟨(modules.map Module.initData).toArray, rfl⟩
  deinitData := ⟨(modules.map Module.deinitData).toArray, rfl⟩

theorem linked_registered : Registered modules linked := ⟨.refl _, .refl _, by decide⟩

def bytes (s : List Char) : List UInt8 := s.map fun c => UInt8.ofNat c.toNat

/-- A root pointer at 0xe0000, a list of three tables behind it, and the tables. -/
def firmware : Memory :=
  let m : Memory := fun _ => 0
  let m := m.write 0xe0000 (bytes ['R', 'S', 'D', ' ', 'P', 'T', 'R', ' '])
  let m := m.store 0xe0010 4 0xe0100
  let m := m.write 0xe0100 (bytes ['R', 'S', 'D', 'T'])
  let m := m.store 0xe0104 4 48
  let m := ((m.store 0xe0124 4 0xe0200).store 0xe0128 4 0xe0300).store 0xe012c 4 0xe0400
  let m := m.write 0xe0200 (bytes ['F', 'A', 'C', 'P'])
  let m := m.store 0xe0204 4 116
  let m := m.write 0xe0300 (bytes ['A', 'P', 'I', 'C'])
  -- one processor
  let m := (m.store 0xe0304 4 52).store 0xe032c 8 0x100000800
  let m := m.write 0xe0400 (bytes ['H', 'P', 'E', 'T'])
  (m.store 0xe0404 4 56).store 0xe042c 8 0xfed00000

theorem firmware_found : Found firmware := by
  have hrsdp : acpiGetRsdp firmware = 0xe0000 := by decide +kernel
  refine ⟨?_, ?_, ?_⟩
  · rw [hrsdp]
    decide
  · rw [hrsdp]
    exact .inl (by decide)
  · rw [hrsdp]
    decide +kernel

theorem contained_firmware : Contained firmware (fun _ _ => 0) ⟨[], nofun⟩ linked :=
  (contained_iff_found linked_registered).mpr firmware_found

theorem nothing_found : ¬ Found fun _ => 0 := by
  have hnone : ∀ first last, scan (fun _ => 0) first last = none :=
    fun first last => List.find?_eq_none.mpr fun i _ hi => Bool.false_ne_true hi
  intro hfound
  refine hfound.rsdp ?_
  rw [acpiGetRsdp, hnone, hnone]

/-- Memory without a root pointer. -/
theorem failure_not_contained : Registered modules linked ∧
    ¬ Contained (fun _ => 0) (fun _ _ => 0) ⟨[], nofun⟩ linked :=
  ⟨linked_registered, not_contained linked_registered nothing_found⟩

end Kvi.Acpi
