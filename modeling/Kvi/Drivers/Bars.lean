import Kvi.Drivers.Pci

/-! The base address registers.

`pci_new` reads six registers and describes each in `bar`. A 64-bit one takes two
registers; the loop skips the second but not its place in `bar`, and marks the
first as missing. It also takes an I/O register for a 64-bit one when the
address has the bits for it. So the descriptions are right as long as no register
has these bits. -/
namespace Kvi.Drivers

/-- The register at `0x10 + 4 * k`. -/
def Place.register (space : Space) (f : Place) (k : Nat) : Nat := (space f.bus f.dev f.func (4 + k)).toNat

/-- The bits of a 64-bit memory register. -/
def wide (dword : Nat) : Bool := dword &&& 1 = 0 ∧ dword &&& 6 = 4

/-- Register `k` is the upper half of the one before it. -/
def upperHalf (dword : Nat → Nat) : Nat → Bool
  | 0 => false
  | k + 1 => !upperHalf dword k && wide (dword k)

/-- The address that register `k` stands for. -/
def address (dword : Nat → Nat) (k : Nat) : Nat :=
  if dword k &&& 1 ≠ 0 then dword k &&& 0xfffc
  else if wide (dword k) then (dword k &&& 0xfffffff0) ||| dword (k + 1) <<< 32
  else dword k &&& 0xfffffff0

/-- `bar` describes register `k`. -/
structure Decodes (dword : Nat → Nat) (k : Nat) (bar : Bar) : Prop where
  e : bar.e = true ↔ dword k ≠ 0 ∧ upperHalf dword k = false
  type : bar.e = true → bar.type = if dword k &&& 1 ≠ 0 then .io else .mem
  addr : bar.e = true → bar.addr = address dword k

/-- What the loop makes of a register without the bits of a 64-bit one. -/
def narrowBar (dword : Nat) (bar : Bar) : Bar :=
  if dword = 0 then {bar with e := false}
  else if dword &&& 1 ≠ 0 then ⟨true, .io, dword &&& 0xfffc⟩
  else ⟨true, .mem, dword &&& 0xfffffff0⟩

variable {space : Space} {f : Place} {p : Pci} {s : State} {dword : Nat → Nat} {i j k n : Nat}

/-! ### One register -/

theorem read_register (h : p.place.InRange) (hk : k < 7) :
    pciConfigRead32 space p (0x10 + 4 * k) = p.place.register space k := by
  have hlt := (space p.bus p.dev p.func (4 + k)).toNat_lt
  have hreg : (0x10 + 4 * k) >>> 2 = 4 + k := by
    rw [Nat.shiftRight_eq_div_pow]
    omega
  have hbyte : (0x10 + 4 * k) &&& 3 = 0 := by
    rw [Nat.and_two_pow_sub_one_eq_mod _ 2]
    omega
  rw [pciConfigRead32, pciConfigRead, hreg, hbyte, dataPort_pciAddr h (by omega), u32_of_lt]
  · rfl
  · exact hlt

theorem setBar_self (p : Pci) (j : Nat) (bar : Bar) : (p.setBar j bar).bar j = bar :=
  Function.update_self ..

theorem setBar_of_ne (p : Pci) (bar : Bar) (h : k < j) : (p.setBar j bar).bar k = p.bar k :=
  Function.update_of_ne (Nat.ne_of_lt h) ..

/-- What is before place `j` is left alone. -/
theorem barLoop_below (hk : k < j) : (barLoop space i j p).bar k = p.bar k := by
  fun_induction barLoop space i j p with
  | case1 i j p hi bar hzero ih =>
    exact (ih (Nat.lt_succ_of_lt hk)).trans (setBar_of_ne _ _ hk)
  | case2 i j p hi bar type hne addr hwide high addr' ih =>
    exact (ih (Nat.lt_succ_of_lt hk)).trans ((setBar_of_ne _ _ hk).trans (setBar_of_ne _ _ hk))
  | case3 i j p hi bar type hne addr hnarrow ih =>
    exact (ih (Nat.lt_succ_of_lt hk)).trans (setBar_of_ne _ _ hk)
  | case4 i j p hi => rfl

theorem barLoop_narrow (h : p.place.InRange) (hk : k < 6)
    (hnarrow : p.place.register space k &&& 6 ≠ 4) :
    barLoop space (0x10 + 4 * k) j p = barLoop space (0x10 + 4 * (k + 1)) (j + 1)
      (p.setBar j (narrowBar (p.place.register space k) (p.bar j))) := by
  have hnext : 0x10 + 4 * (k + 1) = 0x10 + 4 * k + 4 := by omega
  rw [barLoop, if_pos (by omega), hnext]
  dsimp only
  rw [read_register h (by omega), if_neg hnarrow, narrowBar]
  by_cases hzero : p.place.register space k = 0
  · rw [if_pos hzero, if_pos hzero]
  · rw [if_neg hzero, if_neg hzero]
    by_cases hio : p.place.register space k &&& 1 ≠ 0
    · rw [if_pos hio, if_pos hio, if_pos rfl]
    · rw [if_neg hio, if_neg hio, if_neg nofun]

/-- With the bits of a 64-bit one it is marked as missing, and the next register is skipped. -/
theorem barLoop_wide (h : p.place.InRange) (hk : k < 6)
    (hwide : p.place.register space k &&& 6 = 4) :
    ∃ bar, bar.e = false ∧ barLoop space (0x10 + 4 * k) j p =
      barLoop space (0x10 + 4 * (k + 2)) (j + 1) (p.setBar j bar) := by
  have hzero : p.place.register space k ≠ 0 := by
    intro hzero
    rw [hzero] at hwide
    exact absurd hwide (by decide)
  have hnext : 0x10 + 4 * (k + 2) = 0x10 + 4 * k + 4 + 4 := by omega
  rw [barLoop, if_pos (by omega), hnext]
  dsimp only
  rw [read_register h (by omega), if_neg hzero, if_pos hwide]
  refine ⟨_, ?_, congrArg _ (congrArg (Pci.mk _ _ _ _ _ _ _) (Function.update_idem ..))⟩
  rfl

/-! ### All of them -/

theorem upperHalf_eq (h : ∀ i < k, dword i &&& 6 ≠ 4) : upperHalf dword k = false := by
  cases k with
  | zero => rfl
  | succ k =>
    have hk : wide (dword k) = false :=
      decide_eq_false fun hwide => h k (Nat.lt_succ_self k) hwide.2
    rw [upperHalf, hk, Bool.and_false]

theorem decodes_narrow (h : ∀ i ≤ k, dword i &&& 6 ≠ 4) (bar : Bar) :
    Decodes dword k (narrowBar (dword k) bar) := by
  have hupper : upperHalf dword k = false := upperHalf_eq fun i hi => h i (Nat.le_of_lt hi)
  have hwide : wide (dword k) = false := decide_eq_false fun hwide => h k (Nat.le_refl k) hwide.2
  rw [narrowBar]
  by_cases hzero : dword k = 0
  · rw [if_pos hzero]
    exact ⟨iff_of_false nofun fun hand => hand.1 hzero, nofun, nofun⟩
  · rw [if_neg hzero]
    by_cases hio : dword k &&& 1 ≠ 0
    · rw [if_pos hio]
      refine ⟨iff_of_true rfl ⟨hzero, hupper⟩, fun _ => ?_, fun _ => ?_⟩
      · rw [if_pos hio]
      · rw [address, if_pos hio]
    · rw [if_neg hio]
      refine ⟨iff_of_true rfl ⟨hzero, hupper⟩, fun _ => ?_, fun _ => ?_⟩
      · rw [if_neg hio]
      · rw [address, if_neg hio, if_neg (by rw [hwide]; exact Bool.false_ne_true)]

/-- The loop comes to register `n` as long as none before it is wide. -/
theorem barLoop_reaches (h : p.place.InRange) (hn : n ≤ 6)
    (hnarrow : ∀ i < n, p.place.register space i &&& 6 ≠ 4) :
    ∃ p', p'.place = p.place ∧
      barLoop space 0x10 0 p = barLoop space (0x10 + 4 * n) n p' := by
  induction n with
  | zero => exact ⟨p, rfl, rfl⟩
  | succ n ih =>
    obtain ⟨p', hp', heq⟩ := ih (by omega) fun i hi => hnarrow i (Nat.lt_succ_of_lt hi)
    have hhere := hnarrow n (Nat.lt_succ_self n)
    rw [← hp'] at hhere
    refine ⟨_, ?_, heq.trans (barLoop_narrow (by rwa [hp']) (by omega) hhere)⟩
    exact hp'

theorem barLoop_decodes_iff (h : p.place.InRange) :
    (∀ k < 6, Decodes (p.place.register space) k ((barLoop space 0x10 0 p).bar k)) ↔
      ∀ k < 6, p.place.register space k &&& 6 ≠ 4 := by
  constructor
  · intro hall k
    -- the first wide register is marked as missing
    induction k using Nat.strong_induction_on with
    | _ k ih =>
      intro hk hwide
      have hbefore : ∀ i < k, p.place.register space i &&& 6 ≠ 4 := fun i hi => ih i hi (by omega)
      obtain ⟨p', hp', heq⟩ := barLoop_reaches h (by omega) hbefore
      obtain ⟨bar, hmissing, hskip⟩ := barLoop_wide (j := k) (by rwa [hp']) hk (by rwa [hp'])
      have he := (hall k hk).e.mpr ⟨fun hzero => ?_, upperHalf_eq hbefore⟩
      · rw [heq, hskip, barLoop_below (Nat.lt_succ_self k), setBar_self, hmissing] at he
        exact Bool.false_ne_true he
      · rw [hzero] at hwide
        exact absurd hwide (by decide)
  · intro hnarrow k hk
    obtain ⟨p', hp', heq⟩ := barLoop_reaches (n := k) h (by omega) fun i hi => hnarrow i (by omega)
    have hhere := hnarrow k hk
    rw [← hp'] at hhere
    rw [heq, barLoop_narrow (by rwa [hp']) hk hhere, barLoop_below (Nat.lt_succ_self k), setBar_self, hp']
    exact decodes_narrow (fun i hi => hnarrow i (by omega)) _

/-- The loop runs on a record of the function. -/
theorem pciNew_loop (hnew : (pciNew space f.bus f.dev f.func s).1 = some p) :
    ∃ p₀, p₀.place = f ∧ p = barLoop space 0x10 0 p₀ := by
  rw [pciNew] at hnew
  dsimp only at hnew
  split at hnew
  · cases hnew
  · exact ⟨_, rfl, (Option.some.inj hnew).symm⟩

/-- Every register is described right exactly when none has the bits of a 64-bit one. -/
theorem bars_decoded_iff (h : f.InRange) (hnew : (pciNew space f.bus f.dev f.func s).1 = some p) :
    (∀ k < 6, Decodes (f.register space) k (p.bar k)) ↔ ∀ k < 6, f.register space k &&& 6 ≠ 4 := by
  obtain ⟨p₀, rfl, rfl⟩ := pciNew_loop hnew
  exact barLoop_decodes_iff h

/-- One function on the bus. -/
def oneFunction (dword : Nat → UInt32) : Space := fun bus dev func reg =>
  if bus = 0 ∧ dev = 0 ∧ func = 0 then dword reg else 0xffffffff

def idle : State := ⟨zeroed, [], [], []⟩

theorem bars_decoded_narrow : ∃ p, (pciNew (oneFunction fun _ => 0x1000) 0 0 0 idle).1 = some p ∧
    ∀ k < 6, Decodes (Place.register (oneFunction fun _ => 0x1000) ⟨0, 0, 0⟩) k (p.bar k) := by
  obtain ⟨p, _, _, hnew⟩ := pciNew_present (f := ⟨0, 0, 0⟩) (s := idle)
    (show Place.InRange ⟨0, 0, 0⟩ by decide)
    (show Place.Present (oneFunction fun _ => 0x1000) ⟨0, 0, 0⟩ by decide)
  have hnew := congrArg Prod.fst hnew
  exact ⟨p, hnew, (bars_decoded_iff (by decide) hnew).mpr (by decide)⟩

/-- A 64-bit register in front and an I/O register behind it. -/
def wideFirst : Space := oneFunction fun reg => if reg = 4 then 0xdf20000c else if reg = 6 then 0x3001 else 0

/-- The first is marked as missing, and the other is described in the place before its own. -/
theorem wide_missing : ∃ p, (pciNew wideFirst 0 0 0 idle).1 = some p ∧ (p.bar 0).e = false ∧
    p.bar 1 = ⟨true, .io, 0x3000⟩ ∧
    ¬ ∀ k < 6, Decodes (Place.register wideFirst ⟨0, 0, 0⟩) k (p.bar k) := by
  obtain ⟨p, _, _, hnew⟩ := pciNew_present (f := ⟨0, 0, 0⟩) (s := idle)
    (show Place.InRange ⟨0, 0, 0⟩ by decide) (show Place.Present wideFirst ⟨0, 0, 0⟩ by decide)
  have hnew := congrArg Prod.fst hnew
  have hnot := mt (bars_decoded_iff (by decide) hnew).mp fun hall => hall 0 (by decide) (by decide)
  obtain ⟨p₀, hp₀, hloop⟩ := pciNew_loop hnew
  have hin : p₀.place.InRange := by
    rw [hp₀]
    decide
  have hwide : p₀.place.register wideFirst 0 &&& 6 = 4 := by
    rw [hp₀]
    decide
  have hio : p₀.place.register wideFirst 2 = 0x3001 := by
    rw [hp₀]
    rfl
  obtain ⟨bar, hmissing, hskip⟩ := barLoop_wide (j := 0) hin (by decide) hwide
  have hskip : barLoop wideFirst 0x10 0 p₀ = barLoop wideFirst (0x10 + 4 * 2) 1 (p₀.setBar 0 bar) := hskip
  have hnarrow := @barLoop_narrow wideFirst (p₀.setBar 0 bar) 1 2 hin (by decide)
    (by show p₀.place.register wideFirst 2 &&& 6 ≠ 4; rw [hio]; decide)
  refine ⟨p, hnew, ?_, ?_, hnot⟩
  · rw [hloop, hskip, barLoop_below (by decide), setBar_self, hmissing]
  · rw [hloop, hskip, hnarrow, barLoop_below (by decide), setBar_self]
    show narrowBar (p₀.place.register wideFirst 2) _ = _
    rw [hio]
    rfl

end Kvi.Drivers
