import Kvi.Library.Word

/-! The bus and its functions.

`pci_probe` asks every function of every device on every bus for its id, makes a
`struct pci` of each one that answers, puts it in front of `pci_list` and offers
it to the drivers. Both lists grow at their heads and are Lean lists here, a
fresh cell being a `cons`. What is kept of a call of a driver is the driver and
the function it was called for.

The configuration space is read through two ports. The address is written right
before the data is read, so that a read is a function of the address alone. -/
namespace Kvi.Drivers

/-- The dwords that each function of each device has, by bus, device, function and number. -/
abbrev Space := Nat → Nat → Nat → Nat → UInt32

/-- What is read from `PCI_DATA_PORT` when `PCI_ADDR_PORT` holds `address`. -/
def dataPort (space : Space) (address : Nat) : Nat :=
  if address / 2 ^ 31 % 2 = 1 then
    (space (address / 2 ^ 16 % 2 ^ 8) (address / 2 ^ 11 % 2 ^ 5) (address / 2 ^ 8 % 2 ^ 3)
      (address / 2 ^ 2 % 2 ^ 6)).toNat
  else 0xffffffff

inductive BarType where
  | io
  | mem
  deriving DecidableEq, Repr

structure Bar where
  e : Bool
  type : BarType
  addr : Nat
  deriving DecidableEq, Repr

/-- `struct pci`, without the `handle` that belongs to the driver. -/
structure Pci where
  bus : Nat
  dev : Nat
  func : Nat
  vendorid : Nat
  deviceid : Nat
  revid : Nat
  classcode : Nat
  /-- Six of them. -/
  bar : Nat → Bar

def PCIID_END : Nat := 0

/-- `struct pci_driver` at `addr`. The array of ids goes on behind its end as memory does. -/
structure PciDriver where
  addr : Nat
  id : List Nat
  ended : PCIID_END ∈ id
  deriving DecidableEq

structure State where
  /-- The static record that `pci_new` probes with. -/
  probe : Pci
  devices : List Pci
  drivers : List PciDriver
  called : List (PciDriver × Pci)

/-! ### The configuration ports -/

def pciAddr (pci : Pci) (reg : Nat) : Nat :=
  u32 (reg <<< 2) ||| u32 (pci.func <<< 8) ||| u32 (pci.dev <<< 11) ||| u32 (pci.bus <<< 16) ||| 2 ^ 31

def pciConfigRead (space : Space) (pci : Pci) (reg : Nat) : Nat :=
  let value := dataPort space (pciAddr pci (reg >>> 2))
  value >>> ((reg &&& 3) * 8)

def pciConfigRead8 (space : Space) (pci : Pci) (reg : Nat) : Nat :=
  u8 (pciConfigRead space pci reg) &&& 0xff

def pciConfigRead32 (space : Space) (pci : Pci) (reg : Nat) : Nat := u32 (pciConfigRead space pci reg)

/-! ### Drivers -/

def pciRegister (pci : Pci) (s : State) : State := {s with devices := pci :: s.devices}

def pciDriverRegister (driver : PciDriver) (s : State) : State := {s with drivers := driver :: s.drivers}

/-- The loop of `pci_match`, from an element of the array on. -/
def matchLoop (id : Nat) : List Nat → Bool
  | [] => false
  | x :: xs => if x = PCIID_END then false else if id = x then true else matchLoop id xs

def pciMatch (pci : Pci) (driver : PciDriver) : Bool :=
  matchLoop (u32 (pci.vendorid <<< 16) ||| pci.deviceid) driver.id

/-- Each driver of the list whose ids match has its `new` called. -/
def pciLoadDriver (pci : Pci) (s : State) : State :=
  s.drivers.foldl
    (fun s driver => if pciMatch pci driver then {s with called := s.called ++ [(driver, pci)]} else s) s

/-! ### Functions -/

def Pci.setBar (p : Pci) (j : Nat) (bar : Bar) : Pci := {p with bar := Function.update p.bar j bar}

/-- The loop over the base address registers. -/
def barLoop (space : Space) (i j : Nat) (p : Pci) : Pci :=
  if i ≤ 0x24 then
    let bar := pciConfigRead32 space p i
    let type := if bar &&& 1 ≠ 0 then BarType.io else BarType.mem
    if bar = 0 then barLoop space (i + 4) (j + 1) (p.setBar j {p.bar j with e := false})
    else
      let addr := if type = .io then bar &&& 0xfffc else bar &&& 0xfffffff0
      if bar &&& 6 = 4 then
        -- the upper half; `e` is set and cleared again
        let high := pciConfigRead32 space p (i + 4)
        let addr := addr ||| u64 (high <<< 32)
        barLoop space (i + 4 + 4) (j + 1) ((p.setBar j ⟨true, type, addr⟩).setBar j ⟨false, type, addr⟩)
      else barLoop space (i + 4) (j + 1) (p.setBar j ⟨true, type, addr⟩)
  else p
termination_by 0x28 - i

/-- What `memset` makes of the new record. -/
def zeroed : Pci := ⟨0, 0, 0, 0, 0, 0, 0, fun _ => ⟨false, .io, 0⟩⟩

/-- `pci_new`: `none` is `NULL`. -/
def pciNew (space : Space) (bus dev func : Nat) (s : State) : Option Pci × State :=
  let s := {s with probe := {s.probe with bus := bus, dev := dev, func := func}}
  let id := pciConfigRead32 space s.probe 0
  if id = 0xffffffff then (none, s)
  else
    let p := {zeroed with bus := bus, dev := dev, func := func, deviceid := u16 ((id >>> 16) &&& 0xffff),
                          vendorid := u16 (id &&& 0xffff)}
    let p := {p with revid := pciConfigRead8 space p 8}
    let p := {p with classcode := pciConfigRead32 space p 9}
    (some (barLoop space 0x10 0 p), s)

/-- The body of the three loops of `pci_probe`. -/
def probeFunc (space : Space) (bus dev func : Nat) (s : State) : State :=
  match pciNew space bus dev func s with
  | (none, s) => s
  | (some pci, s) => pciLoadDriver pci (pciRegister pci s)

def PCI_BUS_MAX : Nat := 256
def PCI_DEV_MAX : Nat := 32
def PCI_FUNC_MAX : Nat := 8

def pciProbe (space : Space) (s : State) : State :=
  (List.range PCI_BUS_MAX).foldl (fun s bus =>
    (List.range PCI_DEV_MAX).foldl (fun s dev =>
      (List.range PCI_FUNC_MAX).foldl (fun s func => probeFunc space bus dev func s) s) s) s

/-! ### What a function is -/

structure Place where
  bus : Nat
  dev : Nat
  func : Nat
  deriving DecidableEq, Repr

def Pci.place (p : Pci) : Place := ⟨p.bus, p.dev, p.func⟩

namespace Place

/-- The bus has such a function. -/
def InRange (f : Place) : Prop := f.bus < PCI_BUS_MAX ∧ f.dev < PCI_DEV_MAX ∧ f.func < PCI_FUNC_MAX

instance (f : Place) : Decidable f.InRange := inferInstanceAs (Decidable (_ ∧ _ ∧ _))

variable (space : Space) (f : Place)

def idDword : Nat := (space f.bus f.dev f.func 0).toNat

def vendor : Nat := f.idDword space % 2 ^ 16

def device : Nat := f.idDword space / 2 ^ 16

def Present : Prop := f.idDword space ≠ 0xffffffff

instance : Decidable (f.Present space) := inferInstanceAs (Decidable (_ ≠ _))

/-- The id of the function is among those of the driver. -/
def Claimed (d : PciDriver) : Prop :=
  (f.vendor space <<< 16 ||| f.device space) ∈ d.id.takeWhile (· ≠ PCIID_END)

instance (d : PciDriver) : Decidable (f.Claimed space d) := inferInstanceAs (Decidable (_ ∈ _))

end Place

variable {space : Space} {f : Place} {p : Pci} {d : PciDriver} {s : State} {reg i j : Nat}

/-! ### The configuration ports decode the address -/

/-- Fields that do not overlap are added. -/
theorem or_shiftLeft {a n : Nat} (h : a < 2 ^ n) (b : Nat) : a ||| b <<< n = a + b * 2 ^ n := by
  rw [Nat.or_comm, ← Nat.shiftLeft_add_eq_or_of_lt h, Nat.shiftLeft_eq, Nat.add_comm]

theorem pciAddr_eq (h : p.place.InRange) (hreg : reg < 64) :
    pciAddr p reg = reg * 2 ^ 2 + p.func * 2 ^ 8 + p.dev * 2 ^ 11 + p.bus * 2 ^ 16 + 2 ^ 31 := by
  obtain ⟨hbus, hdev, hfunc⟩ := h
  simp only [Pci.place, PCI_BUS_MAX, PCI_DEV_MAX, PCI_FUNC_MAX] at hbus hdev hfunc
  have hsmall : ∀ {a n : Nat}, a * 2 ^ n < 2 ^ 32 → u32 (a <<< n) = a <<< n := by
    intro a n ha
    rw [u32_of_lt]
    rwa [Nat.shiftLeft_eq]
  have hlow : reg <<< 2 ||| p.func <<< 8 = reg * 2 ^ 2 + p.func * 2 ^ 8 := by
    rw [Nat.shiftLeft_eq reg, or_shiftLeft (by omega)]
  rw [pciAddr, hsmall (by omega), hsmall (by omega), hsmall (by omega), hsmall (by omega), hlow,
    or_shiftLeft (by omega) p.dev, or_shiftLeft (by omega) p.bus, Nat.or_two_pow_eq_add_of_lt (by omega)]

/-- A read reaches the dword of its function. -/
theorem dataPort_pciAddr (h : p.place.InRange) (hreg : reg < 64) :
    dataPort space (pciAddr p reg) = (space p.bus p.dev p.func reg).toNat := by
  rw [pciAddr_eq h hreg, dataPort]
  obtain ⟨hbus, hdev, hfunc⟩ := h
  simp only [Pci.place, PCI_BUS_MAX, PCI_DEV_MAX, PCI_FUNC_MAX] at hbus hdev hfunc
  rw [if_pos (by omega)]
  congr 2 <;> omega

theorem pciConfigRead32_id (h : p.place.InRange) :
    pciConfigRead32 space p 0 = p.place.idDword space := by
  have hlt := (space p.bus p.dev p.func 0).toNat_lt
  rw [pciConfigRead32, pciConfigRead, dataPort_pciAddr h (by decide), u32_of_lt]
  · rfl
  · exact hlt

/-! ### A new function -/

/-- What is kept of a record as its base address registers are read. -/
structure Same (p p' : Pci) : Prop where
  place : p'.place = p.place
  vendorid : p'.vendorid = p.vendorid
  deviceid : p'.deviceid = p.deviceid

theorem barLoop_same (space : Space) (i j : Nat) (p : Pci) : Same p (barLoop space i j p) := by
  fun_induction barLoop space i j p with
  | case1 i j p hi bar hzero ih => exact ⟨ih.place, ih.vendorid, ih.deviceid⟩
  | case2 i j p hi bar type hne addr hwide high addr' ih => exact ⟨ih.place, ih.vendorid, ih.deviceid⟩
  | case3 i j p hi bar type hne addr hnarrow ih => exact ⟨ih.place, ih.vendorid, ih.deviceid⟩
  | case4 i j p hi => exact ⟨rfl, rfl, rfl⟩

/-- A record that describes its function. -/
structure Describes (space : Space) (p : Pci) : Prop where
  vendorid : p.vendorid = p.place.vendor space
  deviceid : p.deviceid = p.place.device space

/-- The id that a probe reads. -/
theorem read_id (h : f.InRange) (hp : p.place = f) : pciConfigRead32 space p 0 = f.idDword space := by
  subst hp
  exact pciConfigRead32_id h

theorem pciNew_absent (h : f.InRange) (hf : ¬ f.Present space) :
    pciNew space f.bus f.dev f.func s =
      (none, {s with probe := {s.probe with bus := f.bus, dev := f.dev, func := f.func}}) := by
  have hid : f.idDword space = 0xffffffff := not_not.mp hf
  rw [pciNew]
  dsimp only
  rw [read_id h rfl, if_pos hid]

theorem pciNew_present (h : f.InRange) (hf : f.Present space) :
    ∃ p, p.place = f ∧ Describes space p ∧ pciNew space f.bus f.dev f.func s =
      (some p, {s with probe := {s.probe with bus := f.bus, dev := f.dev, func := f.func}}) := by
  rw [pciNew]
  dsimp only
  rw [read_id h rfl, if_neg hf]
  have hlt : f.idDword space < 2 ^ 32 := (space f.bus f.dev f.func 0).toNat_lt
  have hsame := barLoop_same space 0x10 0
  refine ⟨_, (hsame _).place, ⟨?_, ?_⟩, rfl⟩
  · rw [(hsame _).vendorid, (hsame _).place]
    show u16 (f.idDword space &&& 0xffff) = f.idDword space % 2 ^ 16
    rw [Nat.and_two_pow_sub_one_eq_mod _ 16]
    exact Nat.mod_mod ..
  · rw [(hsame _).deviceid, (hsame _).place]
    show u16 (f.idDword space >>> 16 &&& 0xffff) = f.idDword space / 2 ^ 16
    rw [Nat.and_two_pow_sub_one_eq_mod _ 16, Nat.shiftRight_eq_div_pow]
    unfold u16
    omega

/-! ### Drivers -/

theorem matchLoop_iff {id : Nat} {ids : List Nat} :
    matchLoop id ids = true ↔ id ∈ ids.takeWhile (· ≠ PCIID_END) := by
  induction ids with
  | nil => simp [matchLoop]
  | cons x xs ih =>
    rw [matchLoop, List.takeWhile_cons]
    by_cases hx : x = PCIID_END
    · simp [hx]
    · by_cases hid : id = x
      · simp [hx, hid]
      · simp [hx, hid, ih]

theorem pciMatch_iff (hp : Describes space p) :
    pciMatch p d = true ↔ p.place.Claimed space d := by
  have hlt : p.place.vendor space < 2 ^ 16 := Nat.mod_lt _ (by decide)
  rw [pciMatch, matchLoop_iff, hp.vendorid, hp.deviceid, u32_of_lt]
  · rfl
  · rw [Nat.shiftLeft_eq]
    omega

theorem pciLoadDriver_eq (p : Pci) (s : State) : pciLoadDriver p s =
    {s with called := s.called ++ (s.drivers.filter (pciMatch p)).map fun d => (d, p)} := by
  have hfold : ∀ (ds : List PciDriver) (s : State), ds.foldl (fun s d =>
      if pciMatch p d then {s with called := s.called ++ [(d, p)]} else s) s =
        {s with called := s.called ++ (ds.filter (pciMatch p)).map fun d => (d, p)} := by
    intro ds
    induction ds with
    | nil =>
      intro s
      simp
    | cons d ds ih =>
      intro s
      rw [List.foldl_cons, ih, List.filter_cons]
      by_cases hd : pciMatch p d = true
      · rw [if_pos hd, if_pos hd, List.map_cons, List.append_assoc, List.singleton_append]
      · rw [if_neg hd, if_neg hd]
  exact hfold s.drivers s

/-! ### One function -/

/-- What is kept of `pci_list` and of the calls. -/
def State.listed (s : State) : List Place := s.devices.map Pci.place

def State.calls (s : State) : List (PciDriver × Place) := s.called.map fun e => (e.1, e.2.place)

/-- What probing one function adds. -/
structure Probed (space : Space) (f : Place) (s s' : State) : Prop where
  drivers : s'.drivers = s.drivers
  listed : s'.listed = (if f.Present space then [f] else []) ++ s.listed
  calls : s'.calls = s.calls ++
    if f.Present space then (s.drivers.filter fun d => f.Claimed space d).map fun d => (d, f) else []
  described : (∀ p ∈ s.devices, Describes space p) → ∀ p ∈ s'.devices, Describes space p
  known : (∀ e ∈ s.called, e.2 ∈ s.devices) → ∀ e ∈ s'.called, e.2 ∈ s'.devices

theorem probeFunc_probed (space : Space) (h : f.InRange) (s : State) :
    Probed space f s (probeFunc space f.bus f.dev f.func s) := by
  rw [probeFunc]
  by_cases hf : f.Present space
  · obtain ⟨p, rfl, hp, hnew⟩ := pciNew_present (s := s) h hf
    rw [hnew]
    dsimp only
    rw [pciLoadDriver_eq, pciRegister]
    have hmatch : s.drivers.filter (pciMatch p) = s.drivers.filter fun d => p.place.Claimed space d :=
      List.filter_congr fun d _ => Bool.eq_iff_iff.mpr ((pciMatch_iff hp).trans decide_eq_true_iff.symm)
    refine ⟨rfl, ?_, ?_, fun hall q hq => ?_, fun hall e he => ?_⟩
    · rw [if_pos hf]
      rfl
    · rw [if_pos hf]
      show (s.called ++ _).map _ = _
      rw [List.map_append, hmatch, List.map_map]
      rfl
    · rcases List.mem_cons.mp hq with rfl | hq
      · exact hp
      · exact hall q hq
    · rcases List.mem_append.mp he with he | he
      · exact List.mem_cons_of_mem _ (hall e he)
      · obtain ⟨d, _, rfl⟩ := List.mem_map.mp he
        exact List.mem_cons_self ..
  · rw [pciNew_absent h hf]
    refine ⟨rfl, ?_, ?_, fun hall => hall, fun hall => hall⟩
    · rw [if_neg hf]
      rfl
    · rw [if_neg hf, List.append_nil]
      rfl

/-! ### All of them -/

/-- The functions in the order of the three loops. -/
def functions : List Place :=
  (List.range PCI_BUS_MAX).flatMap fun bus => (List.range PCI_DEV_MAX).flatMap fun dev =>
    (List.range PCI_FUNC_MAX).map fun func => ⟨bus, dev, func⟩

theorem mem_functions : f ∈ functions ↔ f.InRange := by
  obtain ⟨bus, dev, func⟩ := f
  simp [functions, Place.InRange]

theorem nodup_functions : functions.Nodup := by
  rw [functions, List.nodup_flatMap]
  refine ⟨fun bus _ => ?_, ?_⟩
  · rw [List.nodup_flatMap]
    refine ⟨fun dev _ => ?_, ?_⟩
    · exact List.nodup_range.map fun _ _ heq => congrArg Place.func heq
    · refine List.nodup_range.imp fun {dev dev'} hne f hf hf' => ?_
      obtain ⟨func, _, rfl⟩ := List.mem_map.mp hf
      obtain ⟨func', _, heq⟩ := List.mem_map.mp hf'
      exact hne (congrArg Place.dev heq).symm
  · refine List.nodup_range.imp fun {bus bus'} hne f hf hf' => ?_
    obtain ⟨dev, _, hf⟩ := List.mem_flatMap.mp hf
    obtain ⟨func, _, rfl⟩ := List.mem_map.mp hf
    obtain ⟨dev', _, hf'⟩ := List.mem_flatMap.mp hf'
    obtain ⟨func', _, heq⟩ := List.mem_map.mp hf'
    exact hne (congrArg Place.bus heq).symm

theorem pciProbe_eq (space : Space) (s : State) :
    pciProbe space s = functions.foldl (fun s f => probeFunc space f.bus f.dev f.func s) s := by
  rw [functions, List.foldl_flatMap]
  simp only [List.foldl_flatMap, List.foldl_map]
  rfl

/-- What probing the functions `fs` one after the other adds. -/
structure ProbedAll (space : Space) (fs : List Place) (s s' : State) : Prop where
  drivers : s'.drivers = s.drivers
  listed : s'.listed = (fs.filter fun f => f.Present space).reverse ++ s.listed
  calls : s'.calls = s.calls ++ (fs.filter fun f => f.Present space).flatMap fun f =>
    (s.drivers.filter fun d => f.Claimed space d).map fun d => (d, f)
  described : (∀ p ∈ s.devices, Describes space p) → ∀ p ∈ s'.devices, Describes space p
  known : (∀ e ∈ s.called, e.2 ∈ s.devices) → ∀ e ∈ s'.called, e.2 ∈ s'.devices

theorem probedAll (space : Space) (fs : List Place) (h : ∀ f ∈ fs, f.InRange) (s : State) :
    ProbedAll space fs s (fs.foldl (fun s f => probeFunc space f.bus f.dev f.func s) s) := by
  induction fs generalizing s with
  | nil => exact ⟨rfl, rfl, (List.append_nil _).symm, fun hall => hall, fun hall => hall⟩
  | cons f fs ih =>
    have hone := probeFunc_probed space (h f (List.mem_cons_self ..)) s
    have hrest := ih (fun g hg => h g (List.mem_cons_of_mem _ hg)) (probeFunc space f.bus f.dev f.func s)
    rw [List.foldl_cons]
    refine ⟨hrest.drivers.trans hone.drivers, ?_, ?_, fun hall => hrest.described (hone.described hall),
      fun hall => hrest.known (hone.known hall)⟩
    · rw [hrest.listed, hone.listed, List.filter_cons]
      by_cases hf : f.Present space
      · simp [hf]
      · simp [hf]
    · rw [hrest.calls, hone.calls, hone.drivers, List.filter_cons]
      by_cases hf : f.Present space
      · simp [hf]
      · simp [hf]

end Kvi.Drivers
