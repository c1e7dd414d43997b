import Kvi.Timer.Usleep

/-! The program the kernel runs.

`main` prints five texts with a second's sleep between them, two by `usleep` and two by
`nsleep`, which use the same counter. `hpet_init` has stopped it, set it to
zero and started it again, so that the readings are the ticks made since then, whatever the
device did before (`Clock.count_started`). A program of such sleeps is right to the reading, until
the counter comes to its 33rd bit (`program_paced`). -/
namespace Kvi.Timer

/-- The device: what its registers hold. -/
structure Clock where
  cap : Nat
  period : Nat
  config : Nat
  counter : Nat
  period_lt : period < 2 ^ 32

namespace Clock

def width (c : Clock) : Nat := if c.cap &&& HPET_REG_CAP_64W ≠ 0 then 64 else 32

def running (c : Clock) : Bool := decide (c.config &&& HPET_REG_CONFIG_ENABLE ≠ 0)

def tick (c : Clock) : Clock := if c.running then {c with counter := (c.counter + 1) % 2 ^ c.width} else c

def reg (base addr : Nat) (c : Clock) : Nat :=
  if addr = base + HPET_REG_CAP then c.cap
  else if addr = base + HPET_REG_PERIOD then c.period
  else if addr = base + HPET_REG_CONFIG then c.config
  else if addr = base + HPET_REG_COUNTER_LOW then c.counter % 2 ^ 32
  else if addr = base + HPET_REG_COUNTER_HIGH then c.counter / 2 ^ 32
  else 0

def setReg (base addr value : Nat) (c : Clock) : Clock :=
  if addr = base + HPET_REG_CONFIG then {c with config := value}
  else if addr = base + HPET_REG_COUNTER_LOW then {c with counter := c.counter / 2 ^ 32 * 2 ^ 32 + value}
  else if addr = base + HPET_REG_COUNTER_HIGH then
    {c with counter := (value * 2 ^ 32 + c.counter % 2 ^ 32) % 2 ^ c.width}
  else c

/-- What the device answers to reads, and its state at the end; before access `i` it has time for
`waits i` ticks. -/
def serve (base : Nat) (waits : Nat → Nat) : List Access → Nat → Clock → List Nat × Clock
  | [], _, c => ([], c)
  | .read addr :: as, i, c =>
    let c := tick^[waits i] c
    let (answers, c') := serve base waits as (i + 1) c
    (c.reg base addr :: answers, c')
  | .write addr value :: as, i, c => serve base waits as (i + 1) ((tick^[waits i] c).setReg base addr value)

/-- `hpet_get_count` -/
def count (h : Hpet) (c : Clock) : Nat := if h.counterWidth = 64 then c.counter else c.counter % 2 ^ 32

/-- What `hpet_init` was answered is what the device answers. -/
def Answers (base : Nat) (waits : Nat → Nat) (answer : Nat → Nat → Nat) (c : Clock) : Prop :=
  (c.serve base waits (hpetInit answer base).2 0).1 =
    [answer 0 (base + HPET_REG_CAP), answer 1 (base + HPET_REG_CONFIG), answer 2 (base + HPET_REG_PERIOD),
      answer 3 (base + HPET_REG_CONFIG)]

/-- The device when `hpet_init` returns. -/
def started (base : Nat) (waits : Nat → Nat) (answer : Nat → Nat → Nat) (c : Clock) : Clock :=
  (c.serve base waits (hpetInit answer base).2 0).2

end Clock

/-- What a program does. -/
inductive Act where
  | print (text : String)
  | usleep (usec : Nat)
  | nsleep (nsec : Nat)
  deriving DecidableEq, Repr

/-- What is seen of it: a text, or a sleep with its first and its last reading of the counter. -/
inductive Event where
  | printed (text : String)
  | slept (first last : Nat)
  deriving DecidableEq, Repr

/-- The program, with reading `k` next. -/
def run (h : Hpet) (count : Nat → Nat) : List Act → Nat → Option (List Event)
  | [], _ => some []
  | .print text :: acts, k => do
    let es ← run h count acts k
    some (.printed text :: es)
  | .usleep usec :: acts, k => do
    let r ← usleep h usec fun i => count (k + i)
    let es ← run h count acts (k + r + 1)
    some (.slept k (k + r) :: es)
  | .nsleep nsec :: acts, k => do
    let r ← nsleep h nsec fun i => count (k + i)
    let es ← run h count acts (k + r + 1)
    some (.slept k (k + r) :: es)

def main : List Act :=
  [.print "KVI 3.0\n", .usleep (1 * 1000 * 1000), .print "1 ", .nsleep (1 * 1000 * 1000 * 1000), .print "2 ",
    .usleep (1 * 1000 * 1000), .print "3 ", .nsleep (1 * 1000 * 1000 * 1000), .print "\n"]

/-- What a program should do: every sleep ends with the first reading at which its time is up. -/
inductive Paced (h : Hpet) (ticks : Nat → Nat) : List Act → Nat → List Event → Prop where
  | nil {k : Nat} : Paced h ticks [] k []
  | print {text : String} {acts : List Act} {k : Nat} {es : List Event} (rest : Paced h ticks acts k es) :
      Paced h ticks (.print text :: acts) k (.printed text :: es)
  | usleep {usec k r : Nat} {acts : List Act} {es : List Event}
      (first : First h (1000 * usec) (fun i => ticks (k + i)) r) (rest : Paced h ticks acts (k + r + 1) es) :
      Paced h ticks (.usleep usec :: acts) k (.slept k (k + r) :: es)
  | nsleep {nsec k r : Nat} {acts : List Act} {es : List Event}
      (first : First h nsec (fun i => ticks (k + i)) r) (rest : Paced h ticks acts (k + r + 1) es) :
      Paced h ticks (.nsleep nsec :: acts) k (.slept k (k + r) :: es)

/-- The nanoseconds a program sleeps. -/
def nanoseconds : List Act → Nat
  | [] => 0
  | .print _ :: acts => nanoseconds acts
  | .usleep usec :: acts => 1000 * usec + nanoseconds acts
  | .nsleep nsec :: acts => nsec + nanoseconds acts

/-- The last reading of a program that starts with reading `k`. -/
def lastReading : Nat → List Event → Nat
  | k, [] => k
  | k, .printed _ :: es => lastReading k es
  | _, .slept _ last :: es => lastReading last es

variable {h : Hpet} {c : Clock} {base nsec usec k r n : Nat} {waits ticks f : Nat → Nat}
  {answer : Nat → Nat → Nat} {acts : List Act} {es : List Event}

/-! ### The device is started -/

namespace Clock

theorem running_enabled (h : c.config = enabled n) : c.running = true := by
  rw [running, h, enabled, HPET_REG_CONFIG_ENABLE, decide_eq_true_iff, Nat.and_or_distrib_right]
  intro h0
  have hbit := (Nat.or_eq_zero_iff.mp h0).2
  exact absurd hbit (by decide)

theorem running_disabled (h : c.config = disabled n) : c.running = false := by
  have hbits : (2 ^ 32 - 1 - HPET_REG_CONFIG_ENABLE) &&& HPET_REG_CONFIG_ENABLE = 0 := by decide
  rw [running, h, disabled, Nat.and_assoc, hbits, Nat.and_zero]
  rfl

/-- Time changes the counter only. -/
theorem ticks_eq (c : Clock) (n : Nat) : ∃ counter, tick^[n] c = {c with counter := counter} := by
  induction n with
  | zero => exact ⟨c.counter, rfl⟩
  | succ n ih =>
    obtain ⟨counter, heq⟩ := ih
    rw [Function.iterate_succ_apply', heq, tick]
    split
    · exact ⟨_, rfl⟩
    · exact ⟨_, rfl⟩

theorem ticks_halted (h : c.running = false) (n : Nat) : tick^[n] c = c :=
  Function.iterate_fixed (by rw [tick, h]; rfl) n

theorem ticks_running (h : c.running = true) (h0 : c.counter = 0) (n : Nat) :
    tick^[n] c = {c with counter := n % 2 ^ c.width} := by
  induction n with
  | zero =>
    have hzero : 0 % 2 ^ c.width = c.counter := by rw [h0, Nat.zero_mod]
    rw [hzero]
    rfl
  | succ n ih =>
    rw [Function.iterate_succ_apply', ih]
    show (if c.running then _ else _) = _
    rw [h, if_pos rfl]
    show {c with counter := (n % 2 ^ c.width + 1) % 2 ^ c.width} = _
    rw [Nat.mod_add_mod]

@[simp] theorem reg_cap : c.reg base (base + HPET_REG_CAP) = c.cap := if_pos rfl

@[simp] theorem reg_period : c.reg base (base + HPET_REG_PERIOD) = c.period := by
  simp [reg, HPET_REG_CAP, HPET_REG_PERIOD]

@[simp] theorem reg_config : c.reg base (base + HPET_REG_CONFIG) = c.config := by
  simp [reg, HPET_REG_CAP, HPET_REG_PERIOD, HPET_REG_CONFIG]

@[simp] theorem setReg_config : c.setReg base (base + HPET_REG_CONFIG) n = {c with config := n} := if_pos rfl

@[simp] theorem setReg_low : c.setReg base (base + HPET_REG_COUNTER_LOW) n =
    {c with counter := c.counter / 2 ^ 32 * 2 ^ 32 + n} := by
  simp [setReg, HPET_REG_CONFIG, HPET_REG_COUNTER_LOW]

@[simp] theorem setReg_high : c.setReg base (base + HPET_REG_COUNTER_HIGH) n =
    {c with counter := (n * 2 ^ 32 + c.counter % 2 ^ 32) % 2 ^ c.width} := by
  simp [setReg, HPET_REG_CONFIG, HPET_REG_COUNTER_LOW, HPET_REG_COUNTER_HIGH]

/-- The device counts from zero, and the driver knows it. -/
theorem started_eq (h : c.Answers base waits answer) :
    (hpetInit answer base).1 = ⟨c.width, c.period⟩ ∧
      c.started base waits answer = {c with config := enabled (disabled c.config), counter := 0} := by
  obtain ⟨n₀, h₀⟩ := c.ticks_eq (waits 0)
  obtain ⟨n₁, h₁⟩ := Clock.ticks_eq {c with counter := n₀} (waits 1)
  obtain ⟨n₂, h₂⟩ := Clock.ticks_eq {c with counter := n₁} (waits 2)
  -- from the third access to the last the counter stands
  have hhalted : ∀ counter n, tick^[n] {c with config := disabled c.config, counter := counter} =
      {c with config := disabled c.config, counter := counter} :=
    fun _ n => ticks_halted (running_disabled rfl) n
  have hanswers := h
  simp only [Answers, hpetInit, serve, h₀, h₁, h₂, reg_cap, reg_config, setReg_config, List.cons.injEq] at hanswers
  obtain ⟨hcap, hconfig, hanswers⟩ := hanswers
  rw [← hconfig] at hanswers
  simp only [hhalted, reg_period, setReg_low, setReg_high] at hanswers
  obtain ⟨hperiod, hconfig', _⟩ := hanswers
  constructor
  · rw [hpetInit, ← hcap, ← hperiod]
    rfl
  · simp only [started, hpetInit, serve, h₀, h₁, h₂, setReg_config, ← hconfig, ← hconfig', hhalted, setReg_low,
      setReg_high]
    simp

theorem width_eq (c : Clock) : c.width = 32 ∨ c.width = 64 := by
  rw [width]
  split
  · exact .inr rfl
  · exact .inl rfl

/-- What `hpet_get_count` reads are the ticks made since `hpet_init`. -/
theorem count_started (h : c.Answers base waits answer) (n : Nat) :
    (tick^[n] (c.started base waits answer)).count (hpetInit answer base).1 =
      hpetGetCount (hpetInit answer base).1 n := by
  obtain ⟨hinit, hstarted⟩ := started_eq h
  rw [hinit, hstarted, ticks_running (running_enabled rfl) rfl, count, hpetGetCount]
  have hwidth : ({c with config := enabled (disabled c.config), counter := 0} : Clock).width = c.width := rfl
  rw [hwidth]
  rcases c.width_eq with hw | hw
  · rw [hw, if_neg (show ¬ (32 : Nat) = 64 by decide), if_neg (show ¬ (32 : Nat) = 64 by decide)]
    exact Nat.mod_mod _ _
  · rw [hw, if_pos rfl, if_pos rfl]
    rfl

end Clock

/-! ### One sleep -/

section
variable (hw : h.counterWidth = 32 ∨ h.counterWidth = 64) (hp : h.period < 2 ^ 32)
  (hmono : ∀ k, ticks k ≤ ticks (k + 1)) (hlast : ticks r < 2 ^ 32)
include hmono hlast

theorem ticks_small (hk : k ≤ r) : ticks 0 ≤ ticks k ∧ ticks k < 2 ^ 32 :=
  ⟨monotone_nat_of_le_succ hmono (Nat.zero_le k), Nat.lt_of_le_of_lt (monotone_nat_of_le_succ hmono hk) hlast⟩

omit hmono hlast in
theorem hpetGetCount_small (h : Hpet) (hn : n < 2 ^ 32) : hpetGetCount h n = n := by
  rw [hpetGetCount]
  split
  · exact u64_of_lt (by omega)
  · exact u32_of_lt hn

/-- The total of `nsleep` is right. -/
theorem total_ticks (hk : k ≤ r) : total (fun i => hpetGetCount h (ticks i)) k = ticks k - ticks 0 := by
  induction k with
  | zero => rw [total, Nat.sub_self]
  | succ k ih =>
    obtain ⟨h0, hlt⟩ := ticks_small hmono hlast (Nat.le_of_succ_le hk)
    obtain ⟨_, hlt'⟩ := ticks_small hmono hlast hk
    have hnext := hmono k
    rw [total, ih (Nat.le_of_succ_le hk), hpetGetCount_small h hlt, hpetGetCount_small h hlt', gain, if_pos hnext,
      u64_of_lt (by omega)]
    omega

/-- So is that of `usleep`. -/
theorem total32_ticks (hk : k ≤ r) : total32 (fun i => hpetGetCount h (ticks i)) k = ticks k - ticks 0 := by
  induction k with
  | zero => rw [total32, Nat.sub_self]
  | succ k ih =>
    obtain ⟨h0, hlt⟩ := ticks_small hmono hlast (Nat.le_of_succ_le hk)
    obtain ⟨_, hlt'⟩ := ticks_small hmono hlast hk
    have hnext := hmono k
    rw [total32, ih (Nat.le_of_succ_le hk), hpetGetCount_small h hlt, hpetGetCount_small h hlt', u32_of_lt hlt,
      u32_of_lt hlt', gain32, if_pos hnext, u64_of_lt (by omega)]
    omega

include hp

/-- The first reading at which a right total says that the time is up. -/
theorem poll_first (hf : ∀ k ≤ r, f k = ticks k - ticks 0) :
    poll (fun k => timeUp h nsec (f k)) 1 = some r ↔ First h nsec ticks r := by
  have hup : ∀ k ≤ r, timeUp h nsec (f k) = true ↔ Passed h nsec ticks k := by
    intro k hk
    obtain ⟨_, hlt⟩ := ticks_small hmono hlast hk
    have hfits : (ticks k - ticks 0) * h.period < 2 ^ 32 * 2 ^ 32 := Nat.mul_lt_mul'' (by omega) hp
    rw [hf k hk, timeUp, decide_eq_true_iff, hpetConvertToNsec, u64_of_lt (by omega), Passed]
  rw [poll_eq_some, First]
  refine and_congr_right fun _ => and_congr (hup r le_rfl) ?_
  refine forall_congr' fun k => forall_congr' fun _ => forall_congr' fun hk => ?_
  rw [hup k (Nat.le_of_lt hk)]

include hw

theorem nsleep_iff : nsleep h nsec (fun i => hpetGetCount h (ticks i)) = some r ↔ First h nsec ticks r := by
  have hloop : nsleep h nsec (fun i => hpetGetCount h (ticks i)) = poll _ (0 + 1) :=
    nsleepLoop_eq hw fun k => hpetGetCount_lt h (ticks k)
  rw [hloop]
  exact poll_first hp hmono hlast fun k hk => total_ticks hmono hlast hk

theorem usleep_iff :
    usleep h usec (fun i => hpetGetCount h (ticks i)) = some r ↔ First h (1000 * usec) ticks r := by
  have hloop : usleep h usec (fun i => hpetGetCount h (ticks i)) = poll _ (0 + 1) := usleepLoop_eq hw
  rw [hloop]
  exact poll_first hp hmono hlast fun k hk => total32_ticks hmono hlast hk

end

/-! ### The whole program -/

section
variable (hmono : ∀ k, ticks k ≤ ticks (k + 1)) (hw : h.counterWidth = 32 ∨ h.counterWidth = 64)
  (hp : h.period < 2 ^ 32)
include hmono

omit hmono in
/-- Two spans of time, one after the other. -/
theorem spans_add {a b t₀ t₁ t₂ p : Nat} (h01 : t₀ ≤ t₁) (h12 : t₁ ≤ t₂) (ha : a ≤ (t₁ - t₀) * p / 1000000)
    (hb : b * 1000000 ≤ (t₂ - t₁) * p) : (a + b) * 1000000 ≤ (t₂ - t₀) * p := by
  have ha' := (Nat.le_div_iff_mul_le (by decide)).mp ha
  have hsum : (t₂ - t₀) * p = (t₁ - t₀) * p + (t₂ - t₁) * p := by
    rw [← Nat.add_mul]
    congr 1
    omega
  rw [hsum, Nat.add_mul]
  exact Nat.add_le_add ha' hb

/-- The sleeps of a program together take their time. -/
theorem Paced.takes {j : Nat} (hpaced : Paced h ticks acts k es) (hj : j ≤ k) : j ≤ lastReading j es ∧
    nanoseconds acts * 1000000 ≤ (ticks (lastReading j es) - ticks j) * h.period := by
  have hle : ∀ {i j}, i ≤ j → ticks i ≤ ticks j := fun hij => monotone_nat_of_le_succ hmono hij
  induction hpaced generalizing j with
  | nil => exact ⟨le_rfl, by rw [nanoseconds, Nat.zero_mul]; exact Nat.zero_le _⟩
  | print _ ih => exact ih hj
  | @usleep usec k r acts es first _ ih =>
    obtain ⟨hlast, hrest⟩ := ih (Nat.le_succ (k + r))
    have hpassed := spans_add (hle (Nat.le_add_right k r)) (hle hlast) first.2.1 hrest
    exact ⟨by show j ≤ lastReading (k + r) es; omega,
      hpassed.trans (Nat.mul_le_mul_right _ (Nat.sub_le_sub_left (hle hj) _))⟩
  | @nsleep nsec k r acts es first _ ih =>
    obtain ⟨hlast, hrest⟩ := ih (Nat.le_succ (k + r))
    have hpassed := spans_add (hle (Nat.le_add_right k r)) (hle hlast) first.2.1 hrest
    exact ⟨by show j ≤ lastReading (k + r) es; omega,
      hpassed.trans (Nat.mul_le_mul_right _ (Nat.sub_le_sub_left (hle hj) _))⟩

omit hmono in
/-- A sleep that begins with reading `k`, and then the rest. -/
theorem sleep_iff {sleep : Option Nat} {nsec : Nat} (hsmall : ∀ i j, .slept i j ∈ es → ticks j < 2 ^ 32)
    (hsleep : ∀ r, ticks (k + r) < 2 ^ 32 → (sleep = some r ↔ First h nsec (fun i => ticks (k + i)) r))
    (hrest : ∀ r es', (∀ i j, .slept i j ∈ es' → ticks j < 2 ^ 32) →
      (run h (fun i => hpetGetCount h (ticks i)) acts (k + r + 1) = some es' ↔ Paced h ticks acts (k + r + 1) es')) :
    (sleep.bind fun r => (run h (fun i => hpetGetCount h (ticks i)) acts (k + r + 1)).bind fun es' =>
      some (.slept k (k + r) :: es')) = some es ↔
    ∃ r es', es = .slept k (k + r) :: es' ∧ First h nsec (fun i => ticks (k + i)) r ∧
      Paced h ticks acts (k + r + 1) es' := by
  constructor
  · intro hnow
    obtain ⟨r, hr, hnow⟩ := Option.bind_eq_some_iff.mp hnow
    obtain ⟨es', hes', hnow⟩ := Option.bind_eq_some_iff.mp hnow
    obtain rfl := Option.some.inj hnow
    exact ⟨r, es', rfl, (hsleep r (hsmall _ _ (List.mem_cons_self ..))).mp hr,
      (hrest r es' fun i j hij => hsmall i j (List.mem_cons_of_mem _ hij)).mp hes'⟩
  · intro ⟨r, es', heq, hfirst, hpaced⟩
    subst heq
    rw [(hsleep r (hsmall _ _ (List.mem_cons_self ..))).mpr hfirst, Option.bind_some,
      (hrest r es' fun i j hij => hsmall i j (List.mem_cons_of_mem _ hij)).mpr hpaced, Option.bind_some]

include hw hp

/-- As long as the counter is below `2 ^ 32`, a program runs as it should. -/
theorem run_iff (hsmall : ∀ i j, .slept i j ∈ es → ticks j < 2 ^ 32) :
    run h (fun i => hpetGetCount h (ticks i)) acts k = some es ↔ Paced h ticks acts k es := by
  induction acts generalizing k es with
  | nil =>
    constructor
    · intro hnow
      obtain rfl := Option.some.inj hnow
      exact .nil
    · intro hpaced
      cases hpaced
      rfl
  | cons act acts ih =>
    cases act with
    | print text =>
      constructor
      · intro hnow
        obtain ⟨es', hes', hnow⟩ := Option.bind_eq_some_iff.mp hnow
        obtain rfl := Option.some.inj hnow
        exact .print ((ih fun i j hij => hsmall i j (List.mem_cons_of_mem _ hij)).mp hes')
      · intro hpaced
        cases hpaced with
        | print rest =>
          rw [run, (ih fun i j hij => hsmall i j (List.mem_cons_of_mem _ hij)).mpr rest]
          rfl
    | usleep usec =>
      have hsleep : ∀ r, ticks (k + r) < 2 ^ 32 →
          (Timer.usleep h usec (fun i => hpetGetCount h (ticks (k + i))) = some r ↔
            First h (1000 * usec) (fun i => ticks (k + i)) r) :=
        fun r hr => usleep_iff hw hp (fun i => hmono (k + i)) hr
      refine (sleep_iff hsmall hsleep fun r es' => ih).trans ?_
      constructor
      · intro ⟨r, es', heq, first, rest⟩
        rw [heq]
        exact .usleep first rest
      · intro hpaced
        cases hpaced with
        | usleep first rest => exact ⟨_, _, rfl, first, rest⟩
    | nsleep nsec =>
      have hsleep : ∀ r, ticks (k + r) < 2 ^ 32 →
          (Timer.nsleep h nsec (fun i => hpetGetCount h (ticks (k + i))) = some r ↔
            First h nsec (fun i => ticks (k + i)) r) :=
        fun r hr => nsleep_iff hw hp (fun i => hmono (k + i)) hr
      refine (sleep_iff hsmall hsleep fun r es' => ih).trans ?_
      constructor
      · intro ⟨r, es', heq, first, rest⟩
        rw [heq]
        exact .nsleep first rest
      · intro hpaced
        cases hpaced with
        | nsleep first rest => exact ⟨_, _, rfl, first, rest⟩

end

/-- A program that starts when `hpet_init` is done, on any device and with any time between the accesses,
has each sleep end with the first reading at which its time is up, if no reading is made after
`2 ^ 32` ticks; and then its sleeps together have taken their time. -/
theorem program_paced (h : c.Answers base waits answer) (hmono : ∀ k, ticks k ≤ ticks (k + 1))
    (hsmall : ∀ i j, .slept i j ∈ es → ticks j < 2 ^ 32) :
    (run (hpetInit answer base).1
        (fun k => (Clock.tick^[ticks k] (c.started base waits answer)).count (hpetInit answer base).1) acts 0 = some es ↔
      Paced (hpetInit answer base).1 ticks acts 0 es) ∧
    (Paced (hpetInit answer base).1 ticks acts 0 es →
      nanoseconds acts * 1000000 ≤ (ticks (lastReading 0 es) - ticks 0) * c.period) := by
  obtain ⟨hinit, _⟩ := Clock.started_eq h
  have hw : (hpetInit answer base).1.counterWidth = 32 ∨ (hpetInit answer base).1.counterWidth = 64 := by
    rw [hinit]
    exact c.width_eq
  have hp : (hpetInit answer base).1.period < 2 ^ 32 := by
    rw [hinit]
    exact c.period_lt
  have hcount : (fun k => (Clock.tick^[ticks k] (c.started base waits answer)).count (hpetInit answer base).1) =
      fun k => hpetGetCount (hpetInit answer base).1 (ticks k) := by
    funext k
    exact Clock.count_started h (ticks k)
  rw [hcount]
  refine ⟨run_iff hmono hw hp hsmall, fun hpaced => ?_⟩
  have htakes := (hpaced.takes hmono (Nat.le_refl 0)).2
  rwa [hinit] at htakes

/-- A device that was running, at 14.3 MHz. -/
def beating : Clock := ⟨0, 69841279, 1, 12345, by decide⟩

/-- What it answers to `hpet_init`. -/
def beats (i _ : Nat) : Nat := [0, 1, 69841279, 0].getD i 0

/-- A second is over with the next reading if 20000000 ticks go by between readings. -/
theorem next_beat (k : Nat) (hn : n = 1000000000) :
    First ⟨32, 69841279⟩ n (fun i => 20000000 * (k + i)) 1 := by
  subst hn
  refine ⟨le_rfl, ?_, fun j hj hj1 => absurd hj1 (Nat.not_lt.mpr hj)⟩
  have hspan : 20000000 * (k + 1) - 20000000 * (k + 0) = 20000000 := by omega
  rw [Passed, hspan]
  decide

/-- What is seen of `main` when every sleep ends with its second reading. -/
def seconds : List Event :=
  [.printed "KVI 3.0\n", .slept 0 1, .printed "1 ", .slept 2 3, .printed "2 ", .slept 4 5, .printed "3 ",
    .slept 6 7, .printed "\n"]

theorem seconds_paced : Paced ⟨32, 69841279⟩ (20000000 * ·) main 0 seconds := by
  refine .print (.usleep (r := 1) ?_ (.print (.nsleep (r := 1) ?_ (.print (.usleep (r := 1) ?_ (.print
    (.nsleep (r := 1) ?_ (.print .nil))))))))
  · exact next_beat 0 rfl
  · exact next_beat 2 rfl
  · exact next_beat 4 rfl
  · exact next_beat 6 rfl

theorem program_paced_main : run (hpetInit beats 0xfed00000).1 (fun k =>
    (Clock.tick^[20000000 * k] (beating.started 0xfed00000 (fun _ => 10) beats)).count (hpetInit beats 0xfed00000).1)
      main 0 = some seconds ∧
    4000000000 * 1000000 ≤ (20000000 * 7 - 20000000 * 0) * 69841279 := by
  have hanswers : beating.Answers 0xfed00000 (fun _ => 10) beats := by
    unfold Clock.Answers
    decide +kernel
  have hsmall : ∀ i j, .slept i j ∈ seconds → 20000000 * j < 2 ^ 32 := by
    intro i j hij
    simp only [seconds, List.mem_cons, reduceCtorEq, Event.slept.injEq, List.not_mem_nil, or_false, false_or] at hij
    omega
  have hpaced : (_ ↔ Paced _ (20000000 * ·) main 0 seconds) ∧ (Paced _ (20000000 * ·) main 0 seconds → _) :=
    program_paced hanswers (fun k => by omega) hsmall
  exact ⟨hpaced.1.mpr seconds_paced, hpaced.2 seconds_paced⟩

end Kvi.Timer
