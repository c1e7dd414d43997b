import Kvi.Library.Turns
import Kvi.Lock.Spinlock

/-! Calls under a lock.

A processor that makes a call of some interface of the kernel calls `spinlock_lock`,
goes through the `Body` of the call, and calls `spinlock_unlock`; `printf`, `malloc`,
`free` and the functions of the network driver are all written that way. Here the
instructions of the two lock functions and the steps of the bodies are those of any
number of processors in any order, and what the data do by themselves comes at any
moment. Whatever the bodies are, such a run is one in which the calls take turns
(`refines`): the exchange that gets a 0 is where the turn begins, the call of
`spinlock_unlock` where it ends. -/
namespace Kvi.Lock

/-- A processor, the call it is in or was in last, as made and as far as it is, and all its calls. -/
structure Caller (C : Type*) where
  cpu : Cpu
  call : Option (C × C)
  made : List C

/-- What a processor does. -/
inductive Does {C D : Type*} (b : Body C D) : Caller C → UInt8 × D → Caller C → UInt8 × D → Prop where
  | work {l : Caller C} {s : UInt8 × D} (out : l.cpu.pc = .out) (d : UInt8) (zf : Bool) :
      Does b l s {l with cpu := {l.cpu with d := d, zf := zf}} s
  | enter {l : Caller C} {s : UInt8 × D} {c : C} {d : D} (out : l.cpu.pc = .out)
      (idle : l.cpu.holds = false) (now : b.enter c s.2 d) :
      Does b l s ⟨l.cpu.call .spinlockLock, some (c, c), l.made ++ [c]⟩ (s.1, d)
  | body {l : Caller C} {s : UInt8 × D} {c₀ c c' : C} {d : D} (out : l.cpu.pc = .out)
      (holds : l.cpu.holds = true) (call : l.call = some (c₀, c)) (now : b.step c s.2 c' d) :
      Does b l s {l with call := some (c₀, c')} (s.1, d)
  | leave {l : Caller C} {s : UInt8 × D} {c₀ c : C} (out : l.cpu.pc = .out)
      (holds : l.cpu.holds = true) (call : l.call = some (c₀, c)) (done : b.done c s.2) :
      Does b l s {l with cpu := l.cpu.call .spinlockUnlock} s
  | instr {l : Caller C} {s : UInt8 × D} {c' : Cpu} {v : UInt8} (now : l.cpu.exec s.1 = some (c', v)) :
      Does b l s {l with cpu := c'} (v, s.2)

/-- The processors, the byte of the lock and the data it protects. -/
abbrev Callers (P C D : Type*) := Parties P (Caller C) (UInt8 × D)

namespace Callers
variable {P C D : Type*}

/-- A processor takes a step, or the data change by themselves. -/
inductive Step [DecidableEq P] (b : Body C D) : Callers P C D → Option P → Callers P C D → Prop where
  | party {x x' : Callers P C D} {p : P} (now : Parties.Step (Does b) x p x') : Step b x (some p) x'
  | env {x : Callers P C D} {d : D} (now : b.env x.shared.2 d) :
      Step b x none ⟨x.own, x.shared.1, d⟩

/-- Nobody has called anything yet, and the data are `d`. -/
structure Start (x : Callers P C D) (d : D) : Prop where
  setUp : SetUp x.shared.1
  out : ∀ p, (x.own p).cpu.pc = .out
  free : ∀ p, (x.own p).cpu.holds = false
  made : ∀ p, (x.own p).made = []
  data : x.shared.2 = d

/-- What the processors reach when the data have been `d`. -/
def Reachable [DecidableEq P] (b : Body C D) (d : D) (x : Callers P C D) : Prop :=
  ∃ x₀ as, Start x₀ d ∧ Steps (Step b) x₀ as x

/-- The processor gets the lock in this step: its exchange finds a 0. -/
def got (p : P) (l : Caller C) (v : UInt8) : List P :=
  if l.cpu.pc = .run .spinlockLock 0 ∧ v = 0 then [p] else []

/-- The processor ends its call in this step, and goes on to `spinlock_unlock`. -/
def ended (p : P) (l l' : Caller C) : List (Turn P C) :=
  if l.cpu.pc = .out ∧ l'.cpu.pc = .run .spinlockUnlock 0 then l.call.toList.map fun e => ⟨p, e.1, e.2⟩
  else []

/-- The same runs, with the processors in the order in which they got the lock, and the calls in the
order in which they ended, each with what it came to. -/
inductive Watched [DecidableEq P] (b : Body C D) (d : D) : List P → List (Turn P C) → Callers P C D → Prop
  where
  | start {x : Callers P C D} (now : Start x d) : Watched b d [] [] x
  | party {ps : List P} {us : List (Turn P C)} {x : Callers P C D} {p : P} {l : Caller C} {s : UInt8 × D}
      (past : Watched b d ps us x) (now : Does b (x.own p) x.shared l s) :
      Watched b d (ps ++ got p (x.own p) x.shared.1) (us ++ ended p (x.own p) l)
        ⟨Function.update x.own p l, s⟩
  | env {ps : List P} {us : List (Turn P C)} {x : Callers P C D} {d' : D} (past : Watched b d ps us x)
      (now : b.env x.shared.2 d') : Watched b d ps us ⟨x.own, x.shared.1, d'⟩

/-- The lock and its processors without the calls. -/
def cpus (x : Callers P C D) : State P := ⟨fun p => (x.own p).cpu, x.shared.1⟩

end Callers

/-- The call that a processor is in: made, and not ended. -/
def Caller.current {C : Type*} (l : Caller C) : List C :=
  match l.cpu.pc with
  | .out => if l.cpu.holds then (l.call.map Prod.fst).toList else []
  | .run .spinlockLock _ => (l.call.map Prod.fst).toList
  | .run .spinlockUnlock _ => []

/-! ### Where a processor is -/

/-- Where a processor is, by the call it waits with and the call whose turn it is. -/
inductive At {C : Type*} : Caller C → Option C → Option C → Prop where
  | outside {l : Caller C} (out : l.cpu.pc = .out) (holds : l.cpu.holds = false) : At l none none
  | waiting {l : Caller C} {line : Nat} {c : C} (pc : l.cpu.pc = .run .spinlockLock line)
      (holds : l.cpu.holds = false) (hasnt : ¬ Has l.cpu) (call : l.call = some (c, c)) : At l (some c) none
  | taking {l : Caller C} {line : Nat} {c : C} (pc : l.cpu.pc = .run .spinlockLock line)
      (holds : l.cpu.holds = false) (has : Has l.cpu) : At l none (some c)
  | inside {l : Caller C} {c : C} (out : l.cpu.pc = .out) (holds : l.cpu.holds = true) :
      At l none (some c)
  | leaving {l : Caller C} {line : Nat} (pc : l.cpu.pc = .run .spinlockUnlock line) : At l none none

variable {P C D : Type*} {b : Body C D} {l l' : Caller C} {s s' : UInt8 × D} {w o : Option C}
  {c₀ c c' : C} {cpu : Cpu} {v v' : UInt8} {line line' : Nat}

theorem At.has (h : At l w (some c)) : Has l.cpu := by
  cases h with
  | taking pc holds has => exact has
  | inside out holds => exact .inl holds

/-- Outside of the two functions. -/
theorem At.out (h : At l w o) (hout : l.cpu.pc = .out) :
    w = none ∧ (l.cpu.holds = false ∧ o = none ∨ l.cpu.holds = true ∧ ∃ c, o = some c) := by
  cases h with
  | outside out holds => exact ⟨rfl, .inl ⟨holds, rfl⟩⟩
  | inside out holds => exact ⟨rfl, .inr ⟨holds, _, rfl⟩⟩
  | waiting pc | taking pc | leaving pc =>
    rw [pc] at hout
    cases hout

/-- In `spinlock_lock`. -/
theorem At.locking (h : At l w o) (hpc : l.cpu.pc = .run .spinlockLock line) :
    l.cpu.holds = false ∧ ((∃ c, w = some c ∧ o = none ∧ ¬ Has l.cpu ∧ l.call = some (c, c)) ∨
      ∃ c, w = none ∧ o = some c ∧ Has l.cpu) := by
  cases h with
  | waiting pc holds hasnt call => exact ⟨holds, .inl ⟨_, rfl, rfl, hasnt, call⟩⟩
  | taking pc holds has => exact ⟨holds, .inr ⟨_, rfl, rfl, has⟩⟩
  | outside out | inside out =>
    rw [out] at hpc
    cases hpc
  | leaving pc =>
    rw [pc] at hpc
    cases hpc

/-- An instruction of `spinlock_lock` that does not get the lock. -/
theorem At.stay (h : At l w o) (hpc : l.cpu.pc = .run .spinlockLock line)
    (hpc' : cpu.pc = .run .spinlockLock line') (hholds : cpu.holds = l.cpu.holds)
    (hhas : Has cpu ↔ Has l.cpu) : At {l with cpu := cpu} w o := by
  obtain ⟨hold, hcase⟩ := h.locking hpc
  rcases hcase with ⟨c, rfl, rfl, hasnt, hcall⟩ | ⟨c, rfl, rfl, has⟩
  · exact .waiting hpc' (hholds.trans hold) (mt hhas.mp hasnt) hcall
  · exact .taking hpc' (hholds.trans hold) (hhas.mpr has)

/-- An instruction gets the lock, from a byte that is 0, or leaves the turn as it is. -/
theorem At.instr (h : At l w o) (hpc : l.cpu.pc ≠ .out) (heff : Effect l.cpu v cpu v') :
    ¬ (l.cpu.pc = .run .spinlockLock 0 ∧ v = 0) ∧ At {l with cpu := cpu} w o ∨
      ∃ c, w = some c ∧ (l.cpu.pc = .run .spinlockLock 0 ∧ v = 0) ∧ l.call = some (c, c) ∧
        At {l with cpu := cpu} none (some c) := by
  obtain ⟨cpu₀, call, made⟩ := l
  dsimp only at hpc heff h ⊢
  cases heff with
  | work => exact absurd rfl hpc
  | lock => exact absurd rfl hpc
  | unlock => exact absurd rfl hpc
  | xchg =>
    obtain ⟨hold, hcase⟩ := h.locking rfl
    obtain rfl : _ = false := hold
    rcases hcase with ⟨c, rfl, rfl, _, hcall⟩ | ⟨c, _, _, has⟩
    · by_cases hv : v = 0
      · exact .inr ⟨c, rfl, ⟨rfl, hv⟩, hcall, .taking rfl rfl (.inr (.inl ⟨rfl, hv⟩))⟩
      · exact .inl ⟨fun hget => hv hget.2, h.stay rfl rfl rfl (by simp [Has, hv])⟩
    · simp [Has] at has
  | test two => exact .inl ⟨by simp, h.stay rfl rfl rfl (by simp [Has])⟩
  | back =>
    obtain ⟨_, hcase⟩ := h.locking rfl
    rcases hcase with ⟨c, _, _, hasnt, _⟩ | ⟨c, rfl, rfl, has⟩
    · exact absurd (.inr (.inr ⟨rfl, rfl⟩)) hasnt
    · exact .inl ⟨by simp, .inside rfl rfl⟩
  | wait => exact .inl ⟨by simp, h.stay rfl rfl rfl (by simp [Has])⟩
  | @spin line line' _ _ _ _ waiting next =>
    have hline : line ≠ 0 ∧ line ≠ 1 ∧ line ≠ 2 := by omega
    have hline' : line' ≠ 1 ∧ line' ≠ 2 := by omega
    exact .inl ⟨by simp [hline], h.stay rfl rfl rfl (by simp [Has, hline, hline'])⟩
  | give =>
    cases h with
    | leaving pc => exact .inl ⟨by simp, .outside rfl rfl⟩
    | waiting pc | taking pc => cases pc
    | outside out | inside out => cases out

/-- Of the lock, a step is what the lock allows. -/
theorem Does.act (h : Does b l s l' s') : Act l.cpu s.1 l'.cpu s'.1 := by
  cases h with
  | work out d zf => exact .work out d zf
  | enter out idle now => exact .lock out
  | body out holds call now => exact .work out l.cpu.d l.cpu.zf
  | leave out holds call done => exact .unlock out holds
  | instr now => exact .instr now

/-! ### The calls take turns -/

open Callers in
/-- The turns as a step of `p` leaves them, which is one of them or none. -/
structure Moved [DecidableEq P] (b : Body C D) (t : Turns P C D) (p : P) (l l' : Caller C) (v : UInt8)
    (t' : Turns P C D) : Prop where
  step : t' = t ∨ Turns.Step b t (some p) t'
  took : t'.took = t.took ++ got p l v
  log : t'.log = t.log ++ ended p l l'

open Callers in
/-- The processors are where the turns are. -/
structure Follows [DecidableEq P] (x : Callers P C D) (t : Turns P C D) : Prop where
  owned : ∃ o, Owned (cpus x) o
  data : x.shared.2 = t.data
  made : ∀ p, (x.own p).made = t.made p
  located : ∀ p, At (x.own p) (t.waiting p) (Turns.own p t.turn)
  call : ∀ u, t.turn = some u → (x.own u.who).call = some (u.call, u.now)

variable [DecidableEq P] {x x' : Callers P C D} {t t' : Turns P C D} {p : P} {a : Option P}
  {as : List (Option P)} {d : D} {u : Turn P C} {ps : List P} {us : List (Turn P C)}

namespace Callers

theorem Start.follows (h : Start x d) : Follows x (Turns.start d) := by
  have hstart : Lock.Start (cpus x) := ⟨h.setUp, h.out, h.free⟩
  exact ⟨⟨none, hstart.owned⟩, h.data, h.made, fun p => .outside (h.out p) (h.free p), nofun⟩

omit [DecidableEq P] in
theorem got_out (h : l.cpu.pc = .out) : got p l v = [] := by
  simp [got, h]

omit [DecidableEq P] in
theorem ended_eq_nil (h : l.cpu.pc ≠ .out ∨ l'.cpu.pc ≠ .run .spinlockUnlock 0) : ended p l l' = [] := by
  rw [ended, if_neg]
  exact fun hend => h.elim (· hend.1) (· hend.2)

theorem cpus_update : cpus ⟨Function.update x.own p l, s⟩ =
    ⟨Function.update (cpus x).own p l.cpu, s.1⟩ := by
  have hown : (fun q => (Function.update x.own p l q).cpu) =
      Function.update (fun q => (x.own q).cpu) p l.cpu := by
    funext q
    by_cases hq : q = p
    · subst hq
      simp
    · simp [hq]
  rw [cpus, hown]
  rfl

end Callers

namespace Follows
open Callers

/-- One processor goes on, and the turns with it. -/
theorem update (h : Follows x t) (howned : ∃ o, Owned (cpus ⟨Function.update x.own p l, s⟩) o)
    (hdata : s.2 = t'.data) (hmade : l.made = t'.made p) (hat : At l (t'.waiting p) (Turns.own p t'.turn))
    (hothers : ∀ q, q ≠ p → t'.made q = t.made q ∧ t'.waiting q = t.waiting q ∧
      Turns.own q t'.turn = Turns.own q t.turn)
    (hcall : ∀ u, t'.turn = some u → (Function.update x.own p l u.who).call = some (u.call, u.now)) :
    Follows ⟨Function.update x.own p l, s⟩ t' := by
  refine ⟨howned, hdata, fun q => ?_, fun q => ?_, hcall⟩
  · by_cases hq : q = p
    · subst hq
      simpa using hmade
    · simpa [hq, (hothers q hq).1] using h.made q
  · by_cases hq : q = p
    · subst hq
      simpa using hat
    · simpa [hq, (hothers q hq).2] using h.located q

/-- The turn is that of the processor in it. -/
theorem turn_of_own (h : Follows x t) (hown : Turns.own p t.turn = some c) :
    ∃ u, t.turn = some u ∧ u.who = p ∧ (x.own p).call = some (u.call, u.now) := by
  obtain ⟨u, hu, _⟩ := Option.map_eq_some_iff.mp hown
  obtain ⟨hturn, hwho⟩ := Option.filter_eq_some_iff.mp hu
  have hwho : u.who = p := by simpa using hwho
  exact ⟨u, hturn, hwho, hwho ▸ h.call u hturn⟩

/-- In a turn the byte is 1. -/
theorem taken (h : Follows x t) (hturn : t.turn = some u) : x.shared.1 = 1 := by
  obtain ⟨o, howned⟩ := h.owned
  have hat := h.located u.who
  rw [hturn, Turns.own_self] at hat
  exact howned.taken_of_has hat.has

/-- While the byte is 0 it is nobody's turn. -/
theorem turn_none (h : Follows x t) (hfree : x.shared.1 = 0) : t.turn = none := by
  cases hturn : t.turn with
  | none => rfl
  | some u =>
    have htaken := h.taken hturn
    rw [hfree] at htaken
    cases htaken

theorem owned_step (h : Follows x t) (hnow : Does b (x.own p) x.shared l s) :
    ∃ o, Owned (cpus ⟨Function.update x.own p l, s⟩) o := by
  obtain ⟨o, howned⟩ := h.owned
  have hstep : Parties.Step Act (cpus x) p (cpus ⟨Function.update x.own p l, s⟩) := by
    rw [cpus_update]
    exact .mk hnow.act
  rcases howned.step handover hstep with h' | ⟨o', _, h'⟩
  · exact ⟨o, h'⟩
  · exact ⟨o', h'⟩

/-- A step that leaves the call as it is. -/
theorem keeps_call (h : Follows x t) (hcall : l.call = (x.own p).call) (u : Turn P C)
    (hu : t.turn = some u) : (Function.update x.own p l u.who).call = some (u.call, u.now) := by
  have hold := h.call u hu
  by_cases hq : u.who = p
  · rw [hq] at hold
    simpa [hq, hcall] using hold
  · simpa [hq] using hold

/-- Between `spinlock_lock` and `spinlock_unlock` it is the processor's turn. -/
theorem turn_of_holds (h : Follows x t) (hout : (x.own p).cpu.pc = .out)
    (hholds : (x.own p).cpu.holds = true) (hcall : (x.own p).call = some (c₀, c)) :
    t.waiting p = none ∧ t.turn = some ⟨p, c₀, c⟩ := by
  obtain ⟨hw, hown⟩ := (h.located p).out hout
  rcases hown with ⟨hidle, _⟩ | ⟨_, c₁, hown⟩
  · rw [hholds] at hidle
    cases hidle
  · obtain ⟨u, hturn, rfl, hcall'⟩ := h.turn_of_own hown
    rw [hcall] at hcall'
    obtain ⟨rfl, rfl⟩ := Prod.mk.inj (Option.some.inj hcall')
    exact ⟨hw, hturn⟩

theorem enters (h : Follows x t) (hnow : Does b (x.own p) x.shared l s)
    (out : (x.own p).cpu.pc = .out) (idle : (x.own p).cpu.holds = false) (now : b.enter c x.shared.2 d)
    (hl : l = ⟨(x.own p).cpu.call .spinlockLock, some (c, c), (x.own p).made ++ [c]⟩)
    (hs : s = (x.shared.1, d)) :
    ∃ t', Moved b t p (x.own p) l x.shared.1 t' ∧ Follows ⟨Function.update x.own p l, s⟩ t' := by
  obtain ⟨hw, hown⟩ := (h.located p).out out
  have hown : Turns.own p t.turn = none := by
    rcases hown with ⟨_, hown⟩ | ⟨hholds, _⟩
    · exact hown
    · rw [idle] at hholds
      cases hholds
  have hended : ended p (x.own p) l = [] := ended_eq_nil (.inr (by simp [hl, Cpu.call]))
  rw [h.data] at now
  refine ⟨_, ⟨.inr (.enter hw hown now), by simp [Turns.took, got_out out], by simp [hended]⟩, h.update (h.owned_step hnow) (by rw [hs]) ?_ ?_ (fun q hq => ?_)
    fun u hu => ?_⟩
  · simp [hl, ← h.made p]
  · simp only [hown, Function.update_self, hl]
    exact .waiting rfl idle (by simp [Has, Cpu.call, idle]) rfl
  · simp [hq]
  · have hq : u.who ≠ p := by
      intro hq
      have hu : t.turn = some u := hu
      rw [hu, ← hq, Turns.own_self] at hown
      cases hown
    simpa [hq] using h.call u hu

theorem goes (h : Follows x t) (hnow : Does b (x.own p) x.shared l s)
    (out : (x.own p).cpu.pc = .out) (holds : (x.own p).cpu.holds = true)
    (call : (x.own p).call = some (c₀, c)) (now : b.step c x.shared.2 c' d)
    (hl : l = {x.own p with call := some (c₀, c')}) (hs : s = (x.shared.1, d)) :
    ∃ t', Moved b t p (x.own p) l x.shared.1 t' ∧ Follows ⟨Function.update x.own p l, s⟩ t' := by
  obtain ⟨hw, hturn⟩ := h.turn_of_holds out holds call
  rw [h.data] at now
  have hown : Turns.own p (some (⟨p, c₀, c'⟩ : Turn P C)) = some c₀ := Turns.own_self (u := ⟨p, c₀, c'⟩)
  have hended : ended p (x.own p) l = [] := ended_eq_nil (.inr (by simp [hl, out]))
  refine ⟨_, ⟨.inr (.go hturn now), by simp [Turns.took, hturn, got_out out], by simp [hended]⟩,
    h.update (h.owned_step hnow) (by rw [hs]) (hl ▸ h.made p) ?_ (fun q hq => ?_) fun v hv => ?_⟩
  · simp only [hw, hown, hl]
    exact .inside out holds
  · simp only [hturn, Turns.own_of_ne (u := ⟨p, c₀, c'⟩) hq, Turns.own_of_ne (u := ⟨p, c₀, c⟩) hq]
    trivial
  · obtain rfl := Option.some.inj hv
    simp [hl]

theorem leaves (h : Follows x t) (hnow : Does b (x.own p) x.shared l s)
    (out : (x.own p).cpu.pc = .out) (holds : (x.own p).cpu.holds = true)
    (call : (x.own p).call = some (c₀, c)) (done : b.done c x.shared.2)
    (hl : l = {x.own p with cpu := (x.own p).cpu.call .spinlockUnlock}) (hs : s = x.shared) :
    ∃ t', Moved b t p (x.own p) l x.shared.1 t' ∧ Follows ⟨Function.update x.own p l, s⟩ t' := by
  obtain ⟨hw, hturn⟩ := h.turn_of_holds out holds call
  have hended : ended p (x.own p) l = [⟨p, c₀, c⟩] := by
    simp [ended, out, hl, call, Cpu.call]
  rw [h.data] at done
  refine ⟨_, ⟨.inr (.give hturn done), by simp [Turns.took, hturn, got_out out], by simp [hended]⟩,
    h.update (h.owned_step hnow) (hs ▸ h.data) (hl ▸ h.made p) ?_ (fun q hq => ?_) nofun⟩
  · simp only [hw, Turns.own_none, hl]
    exact .leaving rfl
  · simp only [hturn, Turns.own_of_ne (u := ⟨p, c₀, c⟩) hq, Turns.own_none]
    trivial

theorem instr (h : Follows x t) (hnow : Does b (x.own p) x.shared l s)
    (now : (x.own p).cpu.exec x.shared.1 = some (cpu, v)) (hl : l = {x.own p with cpu := cpu})
    (hs : s = (v, x.shared.2)) :
    ∃ t', Moved b t p (x.own p) l x.shared.1 t' ∧ Follows ⟨Function.update x.own p l, s⟩ t' := by
  obtain ⟨o, hold⟩ := h.owned
  have hpc : (x.own p).cpu.pc ≠ .out := by
    intro hout
    rw [Cpu.exec, hout] at now
    cases now
  have hdata : s.2 = t.data := hs ▸ h.data
  have hmade : l.made = t.made p := hl ▸ h.made p
  have howned := h.owned_step hnow
  have hended : ended p (x.own p) l = [] := ended_eq_nil (.inl hpc)
  rcases (h.located p).instr hpc (exec_effect (hold.good p) now) with ⟨hget, hat⟩ | ⟨c, hw, hget, hc, hat⟩
  · exact ⟨t, ⟨.inl rfl, by simp [got, hget], by simp [hended]⟩, h.update howned hdata hmade (hl ▸ hat)
      (fun _ _ => ⟨rfl, rfl, rfl⟩) (h.keeps_call (by rw [hl]))⟩
  · have hfree := h.turn_none hget.2
    have hown : Turns.own p (some (⟨p, c, c⟩ : Turn P C)) = some c := Turns.own_self (u := ⟨p, c, c⟩)
    refine ⟨_, ⟨.inr (.take hw hfree), by simp [Turns.took, hfree, got, hget], by simp [hended]⟩,
      h.update howned hdata hmade ?_ (fun q hq => ?_) fun u hu => ?_⟩
    · simp only [hown, Function.update_self]
      exact hl ▸ hat
    · simp only [Turns.own_of_ne (u := ⟨p, c, c⟩) hq, hfree, Turns.own_none, Function.update_of_ne hq]
      trivial
    · obtain rfl := Option.some.inj hu
      simpa [hl] using hc

/-- A step of a processor is one of the turns, or none at all. -/
theorem does (h : Follows x t) (hnow : Does b (x.own p) x.shared l s) :
    ∃ t', Moved b t p (x.own p) l x.shared.1 t' ∧ Follows ⟨Function.update x.own p l, s⟩ t' := by
  obtain ⟨l₀, hl₀⟩ : ∃ l₀, x.own p = l₀ := ⟨_, rfl⟩
  have hdoes := hnow
  rw [hl₀] at hnow
  cases hnow with
  | work out dd zf =>
    have hat := h.located p
    rw [hl₀] at hat
    have hended : ended p l₀ {l₀ with cpu := {l₀.cpu with d := dd, zf := zf}} = [] :=
      ended_eq_nil (.inr (by simp [out]))
    rw [hl₀]
    refine ⟨t, ⟨.inl rfl, by simp [got_out out], by simp [hended]⟩, h.update (h.owned_step hdoes) h.data
      (hl₀ ▸ h.made p) ?_ (fun _ _ => ⟨rfl, rfl, rfl⟩) (h.keeps_call (by rw [hl₀]))⟩
    obtain ⟨hw, hown⟩ := hat.out out
    rw [hw]
    rcases hown with ⟨hholds, hown⟩ | ⟨hholds, c, hown⟩
    · rw [hown]
      exact .outside out hholds
    · rw [hown]
      exact .inside out hholds
  | enter out idle now =>
    rw [← hl₀] at out idle
    exact h.enters hdoes out idle now (by rw [hl₀]) rfl
  | body out holds call now =>
    rw [← hl₀] at out holds call
    exact h.goes hdoes out holds call now (by rw [hl₀]) rfl
  | leave out holds call done =>
    rw [← hl₀] at out holds call
    exact h.leaves hdoes out holds call done (by rw [hl₀]) rfl
  | instr now =>
    rw [← hl₀] at now
    exact h.instr hdoes now (by rw [hl₀]) rfl

/-- The data change by themselves. -/
theorem env (h : Follows x t) (hnow : b.env x.shared.2 d) :
    Turns.Step b t none {t with data := d} ∧ Follows ⟨x.own, x.shared.1, d⟩ {t with data := d} := by
  rw [h.data] at hnow
  exact ⟨.env hnow, h.owned, rfl, h.made, h.located, h.call⟩

theorem step (h : Follows x t) (hnow : Callers.Step b x a x') :
    Follows x' t ∨ ∃ t', Turns.Step b t a t' ∧ Follows x' t' := by
  cases hnow with
  | party now =>
    cases now with
    | mk now =>
      obtain ⟨t', hmoved, h'⟩ := h.does now
      rcases hmoved.step with rfl | hstep
      · exact .inl h'
      · exact .inr ⟨t', hstep, h'⟩
  | env now => exact .inr ⟨_, h.env now⟩

/-- Every run is one of the turns. -/
theorem refines (h : Follows x t) (hrun : Steps (Callers.Step b) x as x') :
    ∃ bs t', Steps (Turns.Step b) t bs t' ∧ List.Sublist bs as ∧ Follows x' t' := by
  induction hrun generalizing t with
  | nil => exact ⟨[], t, .nil t, .slnil, h⟩
  | cons head tail ih =>
    rcases h.step head with h₁ | ⟨t₁, hturn, h₁⟩
    · obtain ⟨bs, t', hrun, hsub, h'⟩ := ih h₁
      exact ⟨bs, t', hrun, hsub.cons _, h'⟩
    · obtain ⟨bs, t', hrun, hsub, h'⟩ := ih h₁
      exact ⟨_ :: bs, t', .cons hturn hrun, hsub.cons_cons _, h'⟩

/-- The call that a processor is in waits or has its turn. -/
theorem current (h : Follows x t) :
    (x.own p).current = (Turns.own p t.turn).toList ++ (t.waiting p).toList := by
  have hat := h.located p
  have hcall : ∀ c, Turns.own p t.turn = some c → (x.own p).call.map Prod.fst = some c := by
    intro c hown
    obtain ⟨u, hturn, rfl, hcall⟩ := h.turn_of_own hown
    rw [hturn, Turns.own_self] at hown
    rw [hcall, ← hown]
    rfl
  generalize t.waiting p = w at hat ⊢
  generalize Turns.own p t.turn = o at hat hcall ⊢
  cases hat with
  | outside out holds => simp [Caller.current, out, holds]
  | waiting pc holds hasnt call => simp [Caller.current, pc, call]
  | taking pc holds has => simp [Caller.current, pc, hcall]
  | inside out holds => simp [Caller.current, out, holds, hcall]
  | leaving pc => simp [Caller.current, pc]

end Follows

namespace Callers

theorem Reachable.follows (h : Reachable b d x) :
    ∃ t bs, Steps (Turns.Step b) (Turns.start d) bs t ∧ Follows x t := by
  obtain ⟨x₀, as, hstart, hrun⟩ := h
  obtain ⟨bs, t, hturns, _, hfollows⟩ := hstart.follows.refines hrun
  exact ⟨t, bs, hturns, hfollows⟩

/-- A step of one processor leaves the others where they are. -/
theorem Step.own_of_ne (h : Step b x a x') (ha : a ≠ some p) : x'.own p = x.own p := by
  cases h with
  | @party _ q now =>
    cases now with
    | mk now =>
      have hq : p ≠ q := fun heq => ha (heq ▸ rfl)
      exact Function.update_of_ne hq ..
  | env now => rfl

theorem Reachable.append (h : Reachable b d x) (hrun : Steps (Step b) x as x') : Reachable b d x' := by
  obtain ⟨x₀, bs, hstart, hrun₀⟩ := h
  exact ⟨x₀, bs ++ as, hstart, hrun₀.append hrun⟩

theorem Watched.reachable (h : Watched b d ps us x) : Reachable b d x := by
  induction h with
  | start now => exact ⟨_, [], now, .nil _⟩
  | party past now ih => exact ih.append (.single (.party (.mk now)))
  | env past now ih => exact ih.append (.single (.env now))

/-- Every run can be watched. -/
theorem Reachable.watched (h : Reachable b d x) : ∃ ps us, Watched b d ps us x := by
  obtain ⟨x₀, as, hstart, hrun⟩ := h
  refine hrun.keeps (I := fun x => ∃ ps us, Watched b d ps us x) (fun x a x' hnow hx => ?_)
    ⟨_, _, .start hstart⟩
  obtain ⟨ps, us, hx⟩ := hx
  cases hnow with
  | party now =>
    cases now with
    | mk now => exact ⟨_, _, hx.party now⟩
  | env now => exact ⟨_, _, hx.env now⟩

/-- The turns are taken in the order in which the lock is got, and end in the order in which the calls
do. -/
theorem Watched.follows (h : Watched b d ps us x) : ∃ t as, Steps (Turns.Step b) (Turns.start d) as t ∧
    Follows x t ∧ t.took = ps ∧ t.log = us := by
  induction h with
  | start now => exact ⟨_, [], .nil _, now.follows, rfl, rfl⟩
  | party past now ih =>
    obtain ⟨t, as, hturns, hx, rfl, rfl⟩ := ih
    obtain ⟨t', hmoved, hx'⟩ := hx.does now
    rcases hmoved.step with rfl | hstep
    · exact ⟨t', as, hturns, hx', hmoved.took, hmoved.log⟩
    · exact ⟨t', _, hturns.append (.single hstep), hx', hmoved.took, hmoved.log⟩
  | env past now ih =>
    obtain ⟨t, as, hturns, hx, rfl, rfl⟩ := ih
    obtain ⟨hstep, hx'⟩ := hx.env now
    exact ⟨_, _, hturns.append (.single hstep), hx', rfl, rfl⟩

/-- The calls a processor has made are those that have ended and the one it is in. -/
theorem made_eq (h : Steps (Turns.Step b) (Turns.start d) as t) (hx : Follows x t) (p : P) :
    (x.own p).made = Turns.did p t.log ++ (x.own p).current := by
  rw [hx.made, (Turns.order h p).made, hx.current]

/-- The call in its turn is the one its processor is in. -/
theorem current_of_turn (h : Steps (Turns.Step b) (Turns.start d) as t) (hx : Follows x t)
    (hturn : t.turn = some u) : (x.own u.who).current = [u.call] := by
  have hone := (Turns.order h u.who).one
  rw [hturn, Turns.own_self] at hone
  rw [hx.current, hturn, Turns.own_self, hone.resolve_left nofun]
  rfl

/-- Whatever is done under the lock, by however many processors: the data are as calls leave them that
take turns, in the order in which the processors got the lock and with what each call came to; no
call is half done while the byte is 0, and between `spinlock_lock` and `spinlock_unlock` it is the
processor's turn. The calls a processor has made are those that have ended, in its order, and the one
it is in. -/
theorem calls_take_turns (h : Watched b d ps us x) : ∃ t as,
    Steps (Turns.Step b) (Turns.start d) as t ∧ x.shared.2 = t.data ∧ t.took = ps ∧ t.log = us ∧
      (x.shared.1 = 0 → t.turn = none) ∧
      (∀ p, (x.own p).cpu.pc = .out → (x.own p).cpu.holds = true →
        ∃ u, t.turn = some u ∧ u.who = p ∧ (x.own p).call = some (u.call, u.now)) ∧
      ∀ p, (x.own p).made = Turns.did p us ++ (x.own p).current := by
  obtain ⟨t, as, hturns, hx, rfl, rfl⟩ := h.follows
  refine ⟨t, as, hturns, hx.data, rfl, rfl, hx.turn_none, fun p hout hholds => ?_, made_eq hturns hx⟩
  obtain ⟨_, hown⟩ := (hx.located p).out hout
  rcases hown with ⟨hidle, _⟩ | ⟨_, c, hown⟩
  · rw [hholds] at hidle
    cases hidle
  · obtain ⟨u, hturn, hwho, hcall⟩ := hx.turn_of_own hown
    exact ⟨u, hturn, hwho, hcall⟩

/-- A step of one processor alone, and what is seen of it. -/
inductive Solo (b : Body C D) (p : P) :
    List P × List (Turn P C) × Caller C × UInt8 × D → List P × List (Turn P C) × Caller C × UInt8 × D → Prop
  where
  | does {ps ps' : List P} {us us' : List (Turn P C)} {l l' : Caller C} {s s' : UInt8 × D}
      (now : Does b l s l' s') (took : ps' = ps ++ got p l s.1) (log : us' = us ++ ended p l l') :
      Solo b p (ps, us, l, s) (ps', us', l', s')

omit [DecidableEq P] in
/-- A step in which nothing is seen. -/
theorem Solo.quiet (now : Does b l s l' s') (hgot : got p l s.1 = []) (hended : ended p l l' = []) :
    Solo b p (ps, us, l, s) (ps, us, l', s') :=
  .does now (by rw [hgot, List.append_nil]) (by rw [hended, List.append_nil])

theorem Watched.solo {y : List P × List (Turn P C) × Caller C × UInt8 × D} (h : Watched b d ps us x)
    (hrun : Relation.ReflTransGen (Solo b p) (ps, us, x.own p, x.shared) y) :
    Watched b d y.1 y.2.1 ⟨Function.update x.own p y.2.2.1, y.2.2.2⟩ := by
  induction hrun with
  | refl =>
    rw [Function.update_eq_self]
    exact h
  | tail _ hlast ih =>
    cases hlast with
    | @does ps _ us _ l l' s s' now took log =>
      have hnext := ih.party (p := p) (l := l') (s := s') (by simpa using now)
      rw [took, log]
      simpa using hnext

omit [DecidableEq P] in
/-- A processor alone gets a lock that is free. -/
theorem solo_lock {call : Option (C × C)} {made : List C} {zf : Bool} :
    Relation.ReflTransGen (Solo b p)
      (ps, us, ⟨⟨.run .spinlockLock 0, 1, zf, false⟩, call, made⟩, 0, d)
      (ps ++ [p], us, ⟨⟨.out, 0, true, true⟩, call, made⟩, 1, d) := by
  have htest : Cpu.exec ⟨.run .spinlockLock 1, 0, zf, false⟩ 1 =
      some (⟨.run .spinlockLock 2, 0, true, false⟩, 1) := by
    cases zf with
    | false | true => rfl
  have h₁ : Solo b p (ps, us, ⟨⟨.run .spinlockLock 0, 1, zf, false⟩, call, made⟩, 0, d)
      (ps ++ [p], us, ⟨⟨.run .spinlockLock 1, 0, zf, false⟩, call, made⟩, 1, d) :=
    .does (.instr rfl) (by simp [got]) (by simp [ended])
  have h₂ : Solo b p (ps ++ [p], us, ⟨⟨.run .spinlockLock 1, 0, zf, false⟩, call, made⟩, 1, d)
      (ps ++ [p], us, ⟨⟨.run .spinlockLock 2, 0, true, false⟩, call, made⟩, 1, d) :=
    .quiet (.instr htest) (by simp [got]) (by simp [ended])
  have h₃ : Solo b p (ps ++ [p], us, ⟨⟨.run .spinlockLock 2, 0, true, false⟩, call, made⟩, 1, d)
      (ps ++ [p], us, ⟨⟨.out, 0, true, true⟩, call, made⟩, 1, d) :=
    .quiet (.instr rfl) (by simp [got]) (by simp [ended])
  exact .head h₁ (.head h₂ (.single h₃))

/-- Calls that count themselves: `false` is a call that has not counted yet. -/
def counting : Body Bool Nat where
  enter c d d' := c = false ∧ d' = d
  step c d c' d' := c = false ∧ c' = true ∧ d' = d + 1
  done c _ := c = true
  env _ _ := False

/-- A processor in its first such call. -/
def counter (pc : Pc) (d : UInt8) (zf holds now : Bool) : Caller Bool :=
  ⟨⟨pc, d, zf, holds⟩, some (false, now), [false]⟩

omit [DecidableEq P] in
theorem counter_runs {us : List (Turn P Bool)} : Relation.ReflTransGen (Solo counting p)
    (ps, us, counter (.run .spinlockLock 0) 1 false false false, 0, 0)
    (ps ++ [p], us ++ [⟨p, false, true⟩], counter (.run .spinlockUnlock 0) 0 true true true, 1, 1) := by
  have hcount : Solo counting p (ps ++ [p], us, counter .out 0 true true false, 1, 0)
      (ps ++ [p], us, counter .out 0 true true true, 1, 1) :=
    .quiet (.body rfl rfl rfl ⟨rfl, rfl, rfl⟩) rfl rfl
  have hleave : Solo counting p (ps ++ [p], us, counter .out 0 true true true, 1, 1)
      (ps ++ [p], us ++ [⟨p, false, true⟩], counter (.run .spinlockUnlock 0) 0 true true true, 1, 1) :=
    .does (.leave rfl rfl rfl rfl) (List.append_nil _).symm rfl
  exact solo_lock.trans (.head hcount (.single hleave))

/-- Nobody has called anything yet. -/
def untouched (d : D) : Callers P C D := ⟨fun _ => ⟨⟨.out, 0, false, false⟩, none, []⟩, 0, d⟩

theorem untouched_watched : Watched b d [] [] (untouched d : Callers P C D) :=
  .start ⟨.initializer, fun _ => rfl, fun _ => rfl, fun _ => rfl, rfl⟩

/-- One of two processors has counted, and is about to clear the byte. -/
theorem calls_take_turns_counting : ∃ (x : Callers (Fin 2) Bool Nat) (t : Turns (Fin 2) Bool Nat)
    (as : List (Option (Fin 2))), Watched counting 0 [0] [⟨0, false, true⟩] x ∧ x.shared = (1, 1) ∧
      Steps (Turns.Step counting) (Turns.start 0) as t ∧ x.shared.2 = t.data ∧ t.took = [0] ∧
        t.log = [⟨0, false, true⟩] ∧
      (x.shared.1 = 0 → t.turn = none) ∧
      (∀ p, (x.own p).cpu.pc = .out → (x.own p).cpu.holds = true →
        ∃ u, t.turn = some u ∧ u.who = p ∧ (x.own p).call = some (u.call, u.now)) ∧
      ∀ p, (x.own p).made = Turns.did p [⟨0, false, true⟩] ++ (x.own p).current := by
  have henter : Solo counting (0 : Fin 2) ([], [], ⟨⟨.out, 0, false, false⟩, none, []⟩, 0, 0)
      ([], [], counter (.run .spinlockLock 0) 1 false false false, 0, 0) :=
    .quiet (.enter rfl rfl ⟨rfl, rfl⟩) rfl rfl
  have hrun := untouched_watched.solo (.head henter counter_runs)
  obtain ⟨t, as, hall⟩ := calls_take_turns hrun
  exact ⟨_, t, as, hrun, rfl, hall⟩

end Callers
end Kvi.Lock
