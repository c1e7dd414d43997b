import Kvi.Lock.Sections

/-! A processor left alone.

A processor that has the lock, or finds it free, comes to the end of its call when no
other takes a step, if the body of the call can come to its end (`Ends`): the data may
change by themselves meanwhile, since a body may wait for that. The byte is 0 then, and
the processor is outside (`Follows.completes`). -/
namespace Kvi.Lock
open Relation Callers

/-- A step of a call in its turn, or of the data by themselves. -/
inductive Body.Goes {C D : Type*} (b : Body C D) : C × D → C × D → Prop where
  | step {c c' : C} {d d' : D} (now : b.step c d c' d') : Body.Goes b (c, d) (c', d')
  | env {c : C} {d d' : D} (now : b.env d d') : Body.Goes b (c, d) (c, d')

/-- The call can come to its end. -/
def Ends {C D : Type*} (b : Body C D) (c : C) (d : D) : Prop :=
  ∃ c' d', ReflTransGen (Body.Goes b) (c, d) (c', d') ∧ b.done c' d'

/-- A step of one processor within its call, or of the data by themselves. -/
inductive Alone {C D : Type*} (b : Body C D) : Caller C × UInt8 × D → Caller C × UInt8 × D → Prop where
  | does {l l' : Caller C} {s s' : UInt8 × D} (now : Does b l s l' s') (same : l'.made = l.made) :
      Alone b (l, s) (l', s')
  | env {l : Caller C} {v : UInt8} {d d' : D} (now : b.env d d') : Alone b (l, v, d) (l, v, d')

/-- The processor is done with its call, the lock is free. -/
structure Completed {C D : Type*} (l : Caller C) (y : Caller C × UInt8 × D) : Prop where
  out : y.1.cpu.pc = .out
  free : y.1.cpu.holds = false
  byte : y.2.1 = 0
  made : y.1.made = l.made

variable {P C D : Type*} {b : Body C D} {l l' : Caller C} {c₀ c c' : C} {d d' : D} {cpu : Cpu} {v v' : UInt8}
  {line : Nat}

theorem Alone.made {y z : Caller C × UInt8 × D} (h : ReflTransGen (Alone b) y z) :
    z.1.made = y.1.made := by
  induction h with
  | refl => rfl
  | tail _ last ih =>
    cases last with
    | does now same => exact same.trans ih
    | env now => exact ih

theorem Completed.of_alone {y : Caller C × UInt8 × D} (h : Completed l' y) (hmade : l'.made = l.made) :
    Completed l y :=
  ⟨h.out, h.free, h.byte, h.made.trans hmade⟩

/-- The body of the call, with the lock. -/
theorem Alone.of_goes (hout : l.cpu.pc = .out) (hholds : l.cpu.holds = true) (hcall : l.call = some (c₀, c))
    {y : C × D} (h : ReflTransGen (Body.Goes b) (c, d) y) :
    ReflTransGen (Alone b) (l, v, d) ({l with call := some (c₀, y.1)}, v, y.2) := by
  induction h with
  | refl =>
    rw [← hcall]
  | tail _ last ih =>
    cases last with
    | step now =>
      have hstep := Does.body (l := {l with call := some (c₀, _)}) (s := (v, _)) hout hholds rfl now
      exact ih.tail (.does hstep rfl)
    | env now => exact ih.tail (.env now)

/-- Instructions of the lock functions. -/
theorem Alone.of_runs {n : Nat} (h : l.cpu.runs n v = some (cpu, v')) :
    ReflTransGen (Alone b) (l, v, d) ({l with cpu := cpu}, v', d) := by
  induction n generalizing l v with
  | zero =>
    obtain ⟨rfl, rfl⟩ := Prod.mk.inj (Option.some.inj h)
    exact .refl
  | succ n ih =>
    obtain ⟨⟨cpu₁, v₁⟩, hnow, hrest⟩ := Option.bind_eq_some_iff.mp h
    have htail := ih (l := {l with cpu := cpu₁}) hrest
    exact .head (.does (.instr hnow) rfl) htail

/-- `spinlock_unlock` by itself. -/
theorem leaving_completes (hpc : l.cpu.pc = .run .spinlockUnlock 0) (hd : l.cpu.d = 0) :
    ∃ y, ReflTransGen (Alone b) (l, v, d) y ∧ Completed l y := by
  have hnow : l.cpu.exec v = some ({l.cpu with pc := .out, d := v, holds := false}, 0) := by
    rw [Cpu.exec, hpc, ← hd]
    rfl
  exact ⟨_, .single (.does (.instr hnow) rfl), rfl, rfl, rfl, rfl⟩

theorem inside_completes (hout : l.cpu.pc = .out) (hholds : l.cpu.holds = true)
    (hcall : l.call = some (c₀, c)) (hends : Ends b c d) :
    ∃ y, ReflTransGen (Alone b) (l, v, d) y ∧ Completed l y := by
  obtain ⟨c', d', hgoes, hdone⟩ := hends
  have hbody := Alone.of_goes (v := v) hout hholds hcall hgoes
  have hleave := Does.leave (l := {l with call := some (c₀, c')}) (s := (v, d')) hout hholds rfl hdone
  obtain ⟨y, hrun, hy⟩ := leaving_completes (b := b) (d := d') (v := v)
    (l := {l with call := some (c₀, c'), cpu := l.cpu.call .spinlockUnlock}) rfl rfl
  exact ⟨y, hbody.trans (.head (.does hleave rfl) hrun), hy.of_alone rfl⟩

/-- After the instructions that are left of `spinlock_lock` it goes on with the body. -/
theorem locking_completes {n : Nat} {d₁ : UInt8} {zf : Bool}
    (hruns : l.cpu.runs n v = some (⟨.out, d₁, zf, true⟩, v')) (hcall : l.call = some (c₀, c))
    (hends : Ends b c d) : ∃ y, ReflTransGen (Alone b) (l, v, d) y ∧ Completed l y := by
  obtain ⟨y, hrun, hy⟩ := inside_completes (b := b) (v := v') (d := d)
    (l := {l with cpu := ⟨.out, d₁, zf, true⟩}) rfl rfl hcall hends
  exact ⟨y, (Alone.of_runs hruns).trans hrun, hy.of_alone rfl⟩

/-- Who has exchanged a 0 out returns from `spinlock_lock`. -/
theorem runs_taking (hgood : Good cpu) (hpc : cpu.pc = .run .spinlockLock line)
    (hholds : cpu.holds = false) (hhas : Has cpu) :
    ∃ n, cpu.runs n v = some (⟨.out, 0, true, true⟩, v) := by
  obtain ⟨pc, r, zf, h⟩ := cpu
  obtain rfl : pc = .run .spinlockLock line := hpc
  obtain rfl : h = false := hholds
  rcases hhas with hfalse | ⟨hline, rfl⟩ | ⟨hline, hzf⟩
  · cases hfalse
  · obtain rfl : line = 1 := (Pc.run.inj hline).2
    cases zf with
    | false | true => exact ⟨2, rfl⟩
  · obtain rfl : line = 2 := (Pc.run.inj hline).2
    obtain rfl : zf = true := hzf
    obtain ⟨_, rfl⟩ | ⟨hfalse, _⟩ := hgood
    · exact ⟨1, rfl⟩
    · cases hfalse

/-- Who waits for a lock that is free returns from `spinlock_lock`. -/
theorem runs_waiting (hgood : Good cpu) (hpc : cpu.pc = .run .spinlockLock line) (hhas : ¬ Has cpu) :
    ∃ n, cpu.runs n 0 = some (⟨.out, 0, true, true⟩, 1) := by
  obtain ⟨pc, r, zf, h⟩ := cpu
  obtain rfl : pc = .run .spinlockLock line := hpc
  obtain ⟨hline, rfl, hzf⟩ := hgood.waiting hhas
  exact ⟨_, runs_linesLeft line hline zf h hzf⟩

/-- A processor alone completes its call if it has the lock, or if the lock is free. -/
theorem Follows.completes [DecidableEq P] {x : Callers P C D} {t : Turns P C D} {p : P} (h : Follows x t)
    (hp : Has (x.own p).cpu ∨ x.shared.1 = 0)
    (hends : ∀ c₀ c, (x.own p).call = some (c₀, c) → Ends b c x.shared.2) :
    ∃ y, ReflTransGen (Alone b) (x.own p, x.shared) y ∧ Completed (x.own p) y := by
  obtain ⟨o, howned⟩ := h.owned
  have hgood : Good (x.own p).cpu := howned.good p
  have hat := h.located p
  have hcall : ∀ c, Turns.own p t.turn = some c → ∃ c₀ c', (x.own p).call = some (c₀, c') := by
    intro c hc
    obtain ⟨u, _, _, hcall⟩ := h.turn_of_own hc
    exact ⟨_, _, hcall⟩
  generalize t.waiting p = w at hat
  generalize Turns.own p t.turn = o at hat hcall
  cases hat with
  | outside out holds =>
    have hfree : x.shared.1 = 0 := hp.resolve_left (by simp [Has, out, holds])
    exact ⟨_, .refl, out, holds, hfree, rfl⟩
  | waiting pc holds hasnt call =>
    have hfree : x.shared.1 = 0 := hp.resolve_left hasnt
    obtain ⟨n, hruns⟩ := runs_waiting hgood pc hasnt
    rw [← hfree] at hruns
    exact locking_completes hruns call (hends _ _ call)
  | taking pc holds has =>
    obtain ⟨c₀, c', hc⟩ := hcall _ rfl
    obtain ⟨n, hruns⟩ := runs_taking (v := x.shared.1) hgood pc holds has
    exact locking_completes hruns hc (hends _ _ hc)
  | inside out holds =>
    obtain ⟨c₀, c', hc⟩ := hcall _ rfl
    exact inside_completes out holds hc (hends _ _ hc)
  | leaving pc =>
    rw [Good, pc] at hgood
    obtain ⟨rfl, hd, _⟩ := hgood
    exact leaving_completes pc hd

end Kvi.Lock
