import Kvi.Library.Exclusive

/-! The spin lock of `lock.h`, instruction by instruction.

Any number of processors call `spinlock_lock` and, after it has returned,
`spinlock_unlock`. A step is one instruction of one of them, on its register `d`,
its zero flag and the byte `*l`; between the calls it does something else with
the register and the flag. A processor that finds the lock taken goes back to the
exchange with whatever the exchange before has left in `d`. That is again a 1
(`Good`), since nothing but 0 and 1 is ever put into the byte, so the byte is 1 as
long as one processor has the lock, from its exchange on (`Has`), and no other
processor gets it meanwhile (`one_holds`). Once it is given up, whoever waits gets
it if left alone (`free_returns`). -/
namespace Kvi.Lock

def SPINLOCK_INITIALIZER : UInt8 := 0

/-- The instructions of the `asm` statements, with `d` for `%0` and `*l` for `%1`. A jump has the
line that its label stands before. -/
inductive Instr where
  | xchg
  | test
  | je (target : Nat)
  | pause
  | cmp
  | jmp (target : Nat)
  deriving DecidableEq, Repr

inductive Fn where
  | spinlockLock
  | spinlockUnlock
  deriving DecidableEq, Repr

namespace Fn

def code : Fn → List Instr
  | spinlockLock =>
    -- label 3 is line 0, label 2 is line 3, label 1 is the end
    [.xchg, .test, .je 7, .pause, .cmp, .je 3, .jmp 0]
  | spinlockUnlock => [.xchg]

/-- What `d` is before the first line. -/
def input : Fn → UInt8
  | spinlockLock => 1
  | spinlockUnlock => 0

end Fn

inductive Pc where
  | out
  | run (f : Fn) (line : Nat)
  deriving DecidableEq, Repr

/-- A processor. It `holds` the lock from the return of `spinlock_lock` to that of
`spinlock_unlock`. -/
structure Cpu where
  pc : Pc
  d : UInt8
  zf : Bool
  holds : Bool
  deriving DecidableEq, Repr

/-- One instruction: the next line, the registers and the byte. -/
def Instr.exec (line : Nat) (c : Cpu) (l : UInt8) : Instr → Nat × Cpu × UInt8
  | .xchg => (line + 1, {c with d := l}, c.d)
  | .test => (line + 1, {c with zf := c.d &&& c.d == 0}, l)
  | .je target => (if c.zf then target else line + 1, c, l)
  | .pause => (line + 1, c, l)
  | .cmp => (line + 1, {c with zf := c.d == l}, l)
  | .jmp target => (target, c, l)

namespace Cpu

def call (f : Fn) (c : Cpu) : Cpu := {c with pc := .run f 0, d := f.input}

/-- At the end of the code the function returns. -/
def goto (f : Fn) (line : Nat) (c : Cpu) : Cpu :=
  if line = f.code.length then {c with pc := .out, holds := f = .spinlockLock}
  else {c with pc := .run f line}

def exec (c : Cpu) (l : UInt8) : Option (Cpu × UInt8) :=
  match c.pc with
  | .out => none
  | .run f line => do
    let i ← f.code[line]?
    let (line, c, l) := i.exec line c l
    some (c.goto f line, l)

/-- The value that `spinlock_lock` is about to exchange in. -/
def putsIn (c : Cpu) : Option UInt8 :=
  match c.pc with
  | .run .spinlockLock line => if Fn.spinlockLock.code[line]? = some .xchg then some c.d else none
  | _ => none

/-- `n` instructions. -/
def runs : Nat → Cpu → UInt8 → Option (Cpu × UInt8)
  | 0, c, l => some (c, l)
  | n + 1, c, l => do
    let (c, l) ← c.exec l
    c.runs n l

end Cpu

/-- What a processor does: its own work, a call, or an instruction of the function it is in. It calls
`spinlock_lock` whenever it likes, `spinlock_unlock` only while it holds the lock. -/
inductive Act : Cpu → UInt8 → Cpu → UInt8 → Prop where
  | work {c : Cpu} {l : UInt8} (out : c.pc = .out) (d : UInt8) (zf : Bool) :
      Act c l {c with d := d, zf := zf} l
  | lock {c : Cpu} {l : UInt8} (out : c.pc = .out) : Act c l (c.call .spinlockLock) l
  | unlock {c : Cpu} {l : UInt8} (out : c.pc = .out) (holds : c.holds = true) :
      Act c l (c.call .spinlockUnlock) l
  | instr {c c' : Cpu} {l l' : UInt8} (now : c.exec l = some (c', l')) : Act c l c' l'

/-- The byte that `spinlock_init` leaves, whatever it was. -/
def spinlockInit (c : Cpu) (l : UInt8) : Option UInt8 :=
  ((c.call .spinlockUnlock).exec l).map Prod.snd

/-- A lock is set up by its initializer, or by `spinlock_init`. -/
inductive SetUp : UInt8 → Prop where
  | initializer : SetUp SPINLOCK_INITIALIZER
  | init {c : Cpu} {l l' : UInt8} (now : spinlockInit c l = some l') : SetUp l'

/-- The processors and the lock they share. -/
abbrev State (P : Type*) := Parties P Cpu UInt8

/-- Nobody has called anything yet. -/
structure Start {P : Type*} (x : State P) : Prop where
  setUp : SetUp x.shared
  out : ∀ p, (x.own p).pc = .out
  free : ∀ p, (x.own p).holds = false

def Reachable {P : Type*} [DecidableEq P] (x : State P) : Prop :=
  ∃ x₀ ps, Start x₀ ∧ Steps (Parties.Step Act) x₀ ps x

variable {P : Type*} {x : State P} {c c' : Cpu} {l l' : UInt8} {p q : P}

/-! ### What is known of a processor -/

/-- What `d` and the flag are before each line. -/
def Good (c : Cpu) : Prop :=
  match c.pc with
  | .out => True
  | .run .spinlockLock 1 => c.d = 0 ∨ c.d = 1
  | .run .spinlockLock 2 => c.zf = true ∧ c.d = 0 ∨ c.zf = false ∧ c.d = 1
  | .run .spinlockLock line => line < 7 ∧ c.d = 1
  | .run .spinlockUnlock line => line = 0 ∧ c.d = 0 ∧ c.holds = true

/-- The processor has the lock: it exchanged a 0 out, and no 0 in since. -/
def Has (c : Cpu) : Prop :=
  c.holds = true ∨ c.pc = .run .spinlockLock 1 ∧ c.d = 0 ∨ c.pc = .run .spinlockLock 2 ∧ c.zf = true

/-- What a step comes to. -/
inductive Effect : Cpu → UInt8 → Cpu → UInt8 → Prop where
  | work {d d' : UInt8} {zf zf' b : Bool} {l : UInt8} : Effect ⟨.out, d, zf, b⟩ l ⟨.out, d', zf', b⟩ l
  | lock {d : UInt8} {zf b : Bool} {l : UInt8} :
      Effect ⟨.out, d, zf, b⟩ l ⟨.run .spinlockLock 0, 1, zf, b⟩ l
  | unlock {d : UInt8} {zf : Bool} {l : UInt8} :
      Effect ⟨.out, d, zf, true⟩ l ⟨.run .spinlockUnlock 0, 0, zf, true⟩ l
  | xchg {zf b : Bool} {l : UInt8} :
      Effect ⟨.run .spinlockLock 0, 1, zf, b⟩ l ⟨.run .spinlockLock 1, l, zf, b⟩ 1
  | test {d : UInt8} {zf b : Bool} {l : UInt8} (two : d = 0 ∨ d = 1) :
      Effect ⟨.run .spinlockLock 1, d, zf, b⟩ l ⟨.run .spinlockLock 2, d, d == 0, b⟩ l
  | back {b : Bool} {l : UInt8} :
      Effect ⟨.run .spinlockLock 2, 0, true, b⟩ l ⟨.out, 0, true, true⟩ l
  | wait {b : Bool} {l : UInt8} :
      Effect ⟨.run .spinlockLock 2, 1, false, b⟩ l ⟨.run .spinlockLock 3, 1, false, b⟩ l
  | spin {line line' : Nat} {zf zf' b : Bool} {l : UInt8} (waiting : 3 ≤ line)
      (next : line' = 0 ∨ 3 ≤ line' ∧ line' < 7) :
      Effect ⟨.run .spinlockLock line, 1, zf, b⟩ l ⟨.run .spinlockLock line', 1, zf', b⟩ l
  | give {zf : Bool} {l : UInt8} :
      Effect ⟨.run .spinlockUnlock 0, 0, zf, true⟩ l ⟨.out, l, zf, false⟩ 0

/-- The lines of the waiting loop. -/
theorem exec_waiting {line : Nat} {zf b : Bool} (hlo : 3 ≤ line) (hhi : line < 7)
    (hnow : Cpu.exec ⟨.run .spinlockLock line, 1, zf, b⟩ l = some (c', l')) :
    Effect ⟨.run .spinlockLock line, 1, zf, b⟩ l c' l' := by
  obtain rfl | rfl | rfl | rfl : line = 3 ∨ line = 4 ∨ line = 5 ∨ line = 6 := by omega
  · obtain ⟨rfl, rfl⟩ := Prod.mk.inj (Option.some.inj hnow)
    exact .spin hlo (.inr ⟨by decide, by decide⟩)
  · obtain ⟨rfl, rfl⟩ := Prod.mk.inj (Option.some.inj hnow)
    exact .spin hlo (.inr ⟨by decide, by decide⟩)
  · obtain ⟨rfl, rfl⟩ := Prod.mk.inj (Option.some.inj hnow)
    cases zf with
    | true =>
      show Effect _ _ ⟨.run .spinlockLock 3, 1, true, b⟩ _
      exact .spin hlo (.inr ⟨by decide, by decide⟩)
    | false =>
      show Effect _ _ ⟨.run .spinlockLock 6, 1, false, b⟩ _
      exact .spin hlo (.inr ⟨by decide, by decide⟩)
  · obtain ⟨rfl, rfl⟩ := Prod.mk.inj (Option.some.inj hnow)
    exact .spin hlo (.inl rfl)

theorem exec_effect (h : Good c) (hnow : c.exec l = some (c', l')) : Effect c l c' l' := by
  obtain ⟨pc, d, zf, b⟩ := c
  cases pc with
  | out => cases hnow
  | run f line =>
    cases f with
    | spinlockUnlock =>
      obtain ⟨rfl, rfl, rfl⟩ := h
      obtain ⟨rfl, rfl⟩ := Prod.mk.inj (Option.some.inj hnow)
      exact .give
    | spinlockLock =>
      match line, h with
      | 0, h =>
        obtain ⟨_, rfl⟩ := h
        obtain ⟨rfl, rfl⟩ := Prod.mk.inj (Option.some.inj hnow)
        exact .xchg
      | 1, h =>
        obtain ⟨rfl, rfl⟩ := Prod.mk.inj (Option.some.inj hnow)
        show Effect _ _ ⟨.run .spinlockLock 2, d, d &&& d == 0, b⟩ _
        rw [UInt8.and_self]
        exact .test h
      | 2, h =>
        obtain ⟨rfl, rfl⟩ | ⟨rfl, rfl⟩ := h
        · obtain ⟨rfl, rfl⟩ := Prod.mk.inj (Option.some.inj hnow)
          exact .back
        · obtain ⟨rfl, rfl⟩ := Prod.mk.inj (Option.some.inj hnow)
          exact .wait
      | line + 3, h =>
        obtain ⟨hlt, rfl⟩ := h
        exact exec_waiting (Nat.le_add_left ..) hlt hnow

/-- What a step comes to, from what is known of the processor. -/
theorem Act.effect (h : Act c l c' l') (hgood : Good c) : Effect c l c' l' := by
  obtain ⟨pc, d, zf, b⟩ := c
  cases h with
  | work out =>
    obtain rfl : pc = .out := out
    exact .work
  | lock out =>
    obtain rfl : pc = .out := out
    exact .lock
  | unlock out holds =>
    obtain rfl : pc = .out := out
    obtain rfl : b = true := holds
    exact .unlock
  | instr now => exact exec_effect hgood now

/-! ### The byte and the one that has it -/

theorem Effect.two (h : Effect c l c' l') (hl : l = 0 ∨ l = 1) : l' = 0 ∨ l' = 1 := by
  cases h with
  | xchg => exact .inr rfl
  | give => exact .inl rfl
  | _ => exact hl

theorem Effect.good (h : Effect c l c' l') (hl : l = 0 ∨ l = 1) : Good c' := by
  cases h with
  | work => trivial
  | lock => exact ⟨by decide, rfl⟩
  | unlock => exact ⟨rfl, rfl, rfl⟩
  | xchg => exact hl
  | test two =>
    rcases two with rfl | rfl
    · exact .inl ⟨rfl, rfl⟩
    · exact .inr ⟨rfl, rfl⟩
  | back => trivial
  | wait => exact ⟨by decide, rfl⟩
  | @spin line line' _ _ _ _ waiting next =>
    obtain rfl | rfl | rfl | rfl | rfl :
      line' = 0 ∨ line' = 3 ∨ line' = 4 ∨ line' = 5 ∨ line' = 6 := by omega
    all_goals exact ⟨by decide, rfl⟩
  | give => trivial

/-- The lock is taken by the exchange that gets a 0, and given up by the one that puts a 0 in. -/
theorem Effect.deed (h : Effect c l c' l') (hl : l = 0 ∨ l = 1) (htaken : Has c → l = 1) :
    Parties.Deed (Has c) (Has c') (l = 1) (l' = 1) := by
  cases h with
  | work => exact .leave (by simp [Has]) Iff.rfl
  | lock => exact .leave (by simp [Has]) Iff.rfl
  | unlock => exact .leave (by simp [Has]) Iff.rfl
  | @xchg _ b =>
    cases b with
    | true => exact .leave (by simp [Has]) (iff_of_true rfl (htaken (.inl rfl)))
    | false =>
      rcases hl with rfl | rfl
      · exact .take (by simp [Has]) (by simp [Has]) (by decide) rfl
      · exact .leave (by simp [Has]) Iff.rfl
  | test two => exact .leave (by simp [Has]) Iff.rfl
  | back => exact .leave (by simp [Has]) Iff.rfl
  | wait => exact .leave (by simp [Has]) Iff.rfl
  | @spin line line' _ _ _ _ waiting next =>
    have hline : line ≠ 1 ∧ line ≠ 2 := by omega
    have hline' : line' ≠ 1 ∧ line' ≠ 2 := by omega
    exact .leave (by simp [Has, hline, hline']) Iff.rfl
  | give => exact .give (.inl rfl) (by simp [Has]) (by decide)

theorem handover : Parties.Handover Act (fun l => l = 0 ∨ l = 1) Good Has (fun l => l = 1) where
  sane hnow hl hgood := (hnow.effect hgood).two hl
  good hnow hl hgood := (hnow.effect hgood).good hl
  deed hnow hl hgood htaken := (hnow.effect hgood).deed hl htaken

/-! ### Runs -/

/-- Whatever was there, `spinlock_init` leaves a free lock. -/
theorem SetUp.zero (h : SetUp l) : l = 0 := by
  cases h with
  | initializer => rfl
  | init now => exact (Option.some.inj now).symm

/-- One processor has the lock and the byte is 1, or none has it and the byte is 0. -/
abbrev Owned (x : State P) (o : Option P) : Prop :=
  Parties.Owned (fun l => l = 0 ∨ l = 1) Good Has (fun l => l = 1) x o

theorem Start.owned (h : Start x) : Owned x none := by
  have hzero := h.setUp.zero
  refine .start (.inl hzero) (fun p => ?_) (fun p hp => ?_) ?_
  · rw [Good, h.out p]
    trivial
  · rw [Has, h.out p, h.free p] at hp
    simp at hp
  · rw [hzero]
    decide

variable [DecidableEq P]

/-- The lock passes from one processor to another as a single owner does. -/
theorem Reachable.passes (h : Reachable x) : ∃ qs o, Steps Parties.Pass none qs o ∧ Owned x o := by
  obtain ⟨x₀, ps, hstart, hrun⟩ := h
  obtain ⟨qs, o, hpass, _, howned⟩ := hstart.owned.refines handover hrun
  exact ⟨qs, o, hpass, howned⟩

/-- Only the first line exchanges, and `d` is 1 there. -/
theorem Good.putsIn {v : UInt8} (h : Good c) (hv : c.putsIn = some v) : v = 1 := by
  obtain ⟨pc, d, zf, b⟩ := c
  cases pc with
  | out => cases hv
  | run f line =>
    cases f with
    | spinlockUnlock => cases hv
    | spinlockLock =>
      match line, h with
      | 0, h => exact (Option.some.inj hv).symm.trans h.2
      | 1, _ => cases hv
      | 2, _ => cases hv
      | line + 3, h =>
        obtain rfl | rfl | rfl | rfl : line = 0 ∨ line = 1 ∨ line = 2 ∨ line = 3 := by
          have := h.1
          omega
        all_goals cases hv

/-- One processor alone. -/
theorem steps_of_runs {n : Nat} (h : (x.own p).runs n x.shared = some (c', l')) :
    Steps (Parties.Step Act) x (List.replicate n p) ⟨Function.update x.own p c', l'⟩ := by
  induction n generalizing x with
  | zero =>
    obtain ⟨rfl, rfl⟩ := Prod.mk.inj (Option.some.inj h)
    rw [Function.update_eq_self]
    exact .nil x
  | succ n ih =>
    obtain ⟨⟨c₁, l₁⟩, hnow, hrest⟩ := Option.bind_eq_some_iff.mp h
    have htail := ih (x := ⟨Function.update x.own p c₁, l₁⟩) (by simpa using hrest)
    rw [Function.update_idem] at htail
    exact .cons (.mk (.instr hnow)) htail

/-- One processor alone, from its call on. -/
theorem steps_of_call {n : Nat} (hout : (x.own p).pc = .out)
    (h : ((x.own p).call .spinlockLock).runs n x.shared = some (c', l')) :
    Steps (Parties.Step Act) x (p :: List.replicate n p) ⟨Function.update x.own p c', l'⟩ := by
  obtain ⟨x₁, hx₁⟩ : ∃ x₁ : State P,
    x₁ = ⟨Function.update x.own p ((x.own p).call .spinlockLock), x.shared⟩ := ⟨_, rfl⟩
  have hrun : (x₁.own p).runs n x₁.shared = some (c', l') := by
    rw [hx₁]
    simpa using h
  have htail := steps_of_runs hrun
  simp only [hx₁, Function.update_idem] at htail
  exact .cons (.mk (.lock hout)) htail

/-- At most one processor is between the return of its `spinlock_lock` and its `spinlock_unlock`, and
every exchange of `spinlock_lock` puts a 1 in. -/
theorem one_holds (h : Reachable x) :
    (∀ p q, (x.own p).holds = true → (x.own q).holds = true → p = q) ∧
      ∀ p v, (x.own p).putsIn = some v → v = 1 := by
  obtain ⟨_, _, _, howned⟩ := h.passes
  exact ⟨fun p q hp hq => howned.unique (.inl hp) (.inl hq), fun p v hv => (howned.good p).putsIn hv⟩

/-- The first processor has the lock, and the second one waits for it. -/
theorem one_holds_waiting : ∃ x : State (Fin 2),
    (x.own 0).holds = true ∧ (x.own 1).pc = .run .spinlockLock 3 ∧
      (∀ p q, (x.own p).holds = true → (x.own q).holds = true → p = q) ∧
      ∀ p v, (x.own p).putsIn = some v → v = 1 := by
  obtain ⟨x₀, hx₀⟩ : ∃ x₀ : State (Fin 2), x₀ = ⟨fun _ => ⟨.out, 0, false, false⟩, 0⟩ := ⟨_, rfl⟩
  have hstart : Start x₀ := by
    rw [hx₀]
    exact ⟨.initializer, fun _ => rfl, fun _ => rfl⟩
  have hlock : Steps (Parties.Step Act) x₀ (List.replicate 4 0)
      ⟨Function.update x₀.own 0 ⟨.out, 0, true, true⟩, 1⟩ := by
    rw [hx₀]
    exact steps_of_call rfl rfl
  have hwait : Steps (Parties.Step Act) ⟨Function.update x₀.own 0 ⟨.out, 0, true, true⟩, 1⟩
      (List.replicate 4 1) ⟨Function.update (Function.update x₀.own 0 ⟨.out, 0, true, true⟩) 1
        ⟨.run .spinlockLock 3, 1, false, false⟩, 1⟩ := by
    rw [hx₀]
    exact steps_of_call rfl rfl
  exact ⟨_, rfl, rfl, one_holds ⟨x₀, _, hstart, hlock.append hwait⟩⟩

/-! ### A free lock -/

/-- The instructions until `spinlock_lock` returns, on a free lock and with a 1 in `d`. -/
def Cpu.linesLeft (line : Nat) (zf : Bool) : Nat :=
  match line with
  | 0 => 3
  | 1 => 9
  | 5 => if zf then 8 else 5
  | line => 10 - line

theorem Cpu.linesLeft_le : ∀ line < 7, ∀ zf, linesLeft line zf ≤ 9 := by
  decide

theorem runs_linesLeft : ∀ line < 7, ∀ zf b, (line = 2 → zf = false) →
    Cpu.runs (Cpu.linesLeft line zf) ⟨.run .spinlockLock line, 1, zf, b⟩ 0 =
      some (⟨.out, 0, true, true⟩, 1) := by
  decide

/-- Who has not got the lock and is in `spinlock_lock` has a 1 in `d`. -/
theorem Good.waiting {line : Nat} {d : UInt8} {zf b : Bool}
    (h : Good ⟨.run .spinlockLock line, d, zf, b⟩) (hhas : ¬ Has ⟨.run .spinlockLock line, d, zf, b⟩) :
    line < 7 ∧ d = 1 ∧ (line = 2 → zf = false) := by
  match line, h with
  | 0, h => exact ⟨h.1, h.2, nofun⟩
  | 1, h =>
    have hd : d = 1 := h.resolve_left fun h0 => hhas (.inr (.inl ⟨rfl, h0⟩))
    exact ⟨by decide, hd, nofun⟩
  | 2, h =>
    obtain ⟨hzf, hd⟩ := h.resolve_left fun h0 => hhas (.inr (.inr ⟨rfl, h0.1⟩))
    exact ⟨by decide, hd, fun _ => hzf⟩
  | line + 3, h => exact ⟨h.1, h.2, nofun⟩

/-- Nobody keeps the lock from being taken: who is in `spinlock_lock` when it is free has it after at
most nine instructions of his own. -/
theorem free_returns {line : Nat} (h : Reachable x) (hpc : (x.own p).pc = .run .spinlockLock line)
    (hfree : x.shared = 0) : ∃ n ≤ 9, ∃ x' : State P,
      Steps (Parties.Step Act) x (List.replicate n p) x' ∧ (x'.own p).pc = .out ∧
        (x'.own p).holds = true := by
  obtain ⟨_, o, _, howned⟩ := h.passes
  have hhas : ¬ Has (x.own p) := by
    intro hp
    have hone := howned.taken_of_has hp
    rw [hfree] at hone
    cases hone
  have hgood := howned.good p
  obtain ⟨c, hc⟩ : ∃ c, x.own p = c := ⟨_, rfl⟩
  rw [hc] at hpc hhas hgood
  obtain ⟨pc, d, zf, b⟩ := c
  obtain rfl : pc = .run .spinlockLock line := hpc
  obtain ⟨hline, rfl, hzf⟩ := hgood.waiting hhas
  have hruns := runs_linesLeft line hline zf b hzf
  rw [← hc, ← hfree] at hruns
  refine ⟨_, Cpu.linesLeft_le line hline zf, _, steps_of_runs hruns, ?_, ?_⟩
  · simp
  · simp

end Kvi.Lock
