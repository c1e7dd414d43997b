import Kvi.Ixgbe.Linkup
import Kvi.Ixgbe.Receive
import Kvi.Ixgbe.Transmit
import Kvi.Library.Stations
import Kvi.Lock.Sections

/-! A card and its callers.

`ixgbe_send_frames` and `ixgbe_recv_frames` hold the one lock of the card from their
first access to a register to their last, whichever of its 64 queue pairs they are
about, while the device moves the heads of all of them. The transmit and the receive
side of a pair are stations behind that lock: whatever processors call, and however
they and the device are interleaved, each side sees calls one after the other, in the
order in which they got the lock (`queues_serial`). So what `Transmit` and `Receive`
say of a ring with one caller holds of every ring of the card. -/
namespace Kvi.Ixgbe
open Kvi.Lock

instance : NeZero IXGBE_NUM_QUEUE_PAIRS := ⟨Nat.succ_ne_zero 63⟩

/-- One side of a queue pair. -/
inductive Side where
  | xmit (q : Fin IXGBE_NUM_QUEUE_PAIRS)
  | recv (q : Fin IXGBE_NUM_QUEUE_PAIRS)
  deriving DecidableEq

namespace Side

/-- What a call is given: the frames to send, or the arrays on its stack. -/
def Args : Side → Type
  | .xmit _ => List Transmit.Frame
  | .recv _ => (Nat → Nat) × (Nat → Nat)

def State : Side → Type
  | .xmit _ => Transmit.Queue
  | .recv _ => Receive.Queue

end Side

/-- `ixgbe_send_frames` on a ring that the device works on. -/
def sender (c : Config) : Station (List Transmit.Frame) Transmit.Queue where
  ok frames := ∀ f ∈ frames, f.length < 2 ^ 31
  call frames s := {s with pc := .enter frames}
  step s s' := Transmit.driver c s = some s'
  env s s' := s.tdh ≠ s.tdt ∧ s' = s.transmit c.numTdesc
  idle s := s.pc = .idle

/-- `ixgbe_recv_frames` on a ring that the device fills. -/
def receiver (c : Config) : Station ((Nat → Nat) × (Nat → Nat)) Receive.Queue where
  ok _ := True
  call arrays s := {s with pc := .enter arrays.1 arrays.2}
  step s s' := Receive.driver c s = some s'
  env s s' := s.rdh ≠ s.rdt ∧ ∃ d, s' = s.fill c.numRdesc d
  idle s := s.pc = .idle

def card (c : Config) : (i : Side) → Station i.Args i.State
  | .xmit _ => sender c
  | .recv _ => receiver c

/-- Every queue of a card. -/
abbrev Card := (i : Side) → i.State

namespace Card

def xmit (d : Card) (q : Fin IXGBE_NUM_QUEUE_PAIRS) : Transmit.Queue := d (.xmit q)

def recv (d : Card) (q : Fin IXGBE_NUM_QUEUE_PAIRS) : Receive.Queue := d (.recv q)

/-- As `ixgbe_linkup` leaves the queues. -/
structure LinkedUp (c : Config) (d : Card) : Prop where
  xmit : ∀ q, ∃ ring buf, d.xmit q = ⟨true, 0, 0, ring, buf, [], .idle, []⟩
  recv : ∀ q, ∃ ring buf, d.recv q = ⟨true, 0, c.numRdesc - 1, ring, buf, [], .idle, []⟩

end Card

variable {c : Config} {d₀ : Card} {q : Fin IXGBE_NUM_QUEUE_PAIRS}

/-! ### One side -/

namespace Transmit
variable {s s₀ : Queue} {as : List (List Frame)}

/-- A station that is called one call at a time is a ring with one caller. -/
theorem Watched.of_run (h₀ : Watched c [] s₀) (h : (sender c).Run s₀ as s) :
    ∃ gs, Watched c gs s ∧ gs.map Given.frames = as := by
  induction h with
  | start => exact ⟨[], h₀, rfl⟩
  | @call as s frames past idle ok ih =>
    obtain ⟨gs, hs, rfl⟩ := ih
    exact ⟨_, hs.call idle ok, by simp⟩
  | step past now ih =>
    obtain ⟨gs, hs, rfl⟩ := ih
    obtain ⟨gs₀, g, rfl, hs'⟩ := hs.access now
    exact ⟨_, hs', by simp [look_frames]⟩
  | env past now ih =>
    obtain ⟨gs, hs, hframes⟩ := ih
    obtain ⟨owns, rfl⟩ := now
    exact ⟨gs, hs.device owns, hframes⟩

end Transmit

namespace Receive
variable {s s₀ : Queue} {as : List ((Nat → Nat) × (Nat → Nat))}

theorem Watched.of_run (h₀ : Watched c [] s₀) (h : (receiver c).Run s₀ as s) :
    ∃ gs, Watched c gs s ∧ gs.length = as.length := by
  induction h with
  | start => exact ⟨[], h₀, rfl⟩
  | @call as s arrays past idle ok ih =>
    obtain ⟨gs, hs, hlen⟩ := ih
    exact ⟨_, hs.call idle, by simp [hlen]⟩
  | step past now ih =>
    obtain ⟨gs, hs, hlen⟩ := ih
    obtain ⟨gs₀, g, rfl, hs'⟩ := hs.access now
    exact ⟨_, hs', by simpa using hlen⟩
  | env past now ih =>
    obtain ⟨gs, hs, hlen⟩ := ih
    obtain ⟨owns, d, rfl⟩ := now
    exact ⟨gs, hs.device owns, hlen⟩

end Receive

/-! ### All sides -/

theorem Card.LinkedUp.idle (h : d₀.LinkedUp c) (i : Side) : (card c i).idle (d₀ i) := by
  cases i with
  | xmit q =>
    obtain ⟨ring, buf, hq⟩ := h.xmit q
    exact congrArg Transmit.Queue.pc hq
  | recv q =>
    obtain ⟨ring, buf, hq⟩ := h.recv q
    exact congrArg Receive.Queue.pc hq

/-- The device leaves the driver where it is. -/
theorem card_quiet (i : Side) (s s' : i.State) (henv : (card c i).env s s') (hidle : (card c i).idle s) :
    (card c i).idle s' := by
  cases i with
  | xmit q =>
    obtain ⟨_, rfl⟩ := henv
    exact hidle
  | recv q =>
    obtain ⟨_, d, rfl⟩ := henv
    exact hidle

/-- What the calls of a queue come to: they are those that were made, each as it has to be. -/
structure Sends (c : Config) (calls : List (List Transmit.Frame)) (s : Transmit.Queue) : Prop where
  sent : s.sent ++ s.waiting c = s.log
  calls : ∃ gs, Transmit.Watched c gs s ∧ gs.map Transmit.Given.frames = calls ∧
    gs = s.calls.map Transmit.Call.given ++ s.pc.given
  faithful : ∀ k ∈ s.calls, k.Faithful c

structure Receives (c : Config) (calls : Nat) (s : Receive.Queue) : Prop where
  once : Receive.ExactlyOnce c s
  calls : ∃ gs, Receive.Watched c gs s ∧ gs.length = calls ∧
    gs = s.calls.map Receive.Call.given ++ s.pc.given

theorem Sends.of_run {s s₀ : Transmit.Queue} {as : List (List Transmit.Frame)}
    (h₀ : Transmit.Watched c [] s₀) (h : (sender c).Run s₀ as s) : Sends c as s := by
  obtain ⟨gs, hs, hframes⟩ := Transmit.Watched.of_run h₀ h
  obtain ⟨hsent, hcalls⟩ := hs.reachable.in_order
  exact ⟨hsent, ⟨gs, hs, hframes, hs.given⟩, hcalls⟩

theorem Receives.of_run {s s₀ : Receive.Queue} {as : List ((Nat → Nat) × (Nat → Nat))}
    (h₀ : Receive.Watched c [] s₀) (h : (receiver c).Run s₀ as s) : Receives c as.length s := by
  obtain ⟨gs, hs, hlen⟩ := Receive.Watched.of_run h₀ h
  exact ⟨hs.reachable.exactlyOnce, gs, hs, hlen, hs.given⟩

variable {P : Type*} [DecidableEq P] {x : Callers P (Station.Job Side.Args) Card} {ps : List P}
  {us : List (Turn P (Station.Job Side.Args))}

open Callers in
/-- Whatever processors send and receive on whatever queues of a card that is linked up, and however
their steps and the device's are interleaved: every ring is as a single caller leaves it that makes
the calls in the order in which the lock was got. So on every queue the frames transmitted and those
that wait are the ones its calls have accepted, in that order, and what the device has filled is
examined once and in order. While the byte is 0 no call is half done; the calls that have ended and
those in progress are all that were made. -/
theorem queues_serial (hd₀ : d₀.LinkedUp c) (h : Callers.Watched (Station.body (card c)) d₀ ps us x) :
    ∃ last : Option (Turn P (Station.Job Side.Args)), ps = (us ++ last.toList).map Turn.who ∧
      (∀ u, last = some u → (x.own u.who).call = some (u.call, u.now) ∧ (x.own u.who).current = [u.call]) ∧
      (∀ q, Sends c ((us ++ last.toList).filterMap (Station.begun (Side.xmit q))) (x.shared.2.xmit q)) ∧
      (∀ q, Receives c ((us ++ last.toList).filterMap (Station.begun (Side.recv q))).length
        (x.shared.2.recv q)) ∧
      (x.shared.1 = 0 → last = none ∧ ∀ q, (x.shared.2.xmit q).pc = .idle ∧ (x.shared.2.recv q).pc = .idle) ∧
      (∀ u ∈ us, ∃ i a, u.call = .ready i a ∧ u.now = .busy i) ∧
      ∀ p, (x.own p).made = Turns.did p us ++ (x.own p).current := by
  obtain ⟨t, as, hturns, hx, rfl, rfl⟩ := h.follows
  have halone := Station.turns_alone hd₀.idle card_quiet hturns
  refine ⟨t.turn, rfl, fun u hu => ⟨hx.call u hu, current_of_turn hturns hx hu⟩, fun q => ?_, fun q => ?_,
    fun hfree => ?_, halone.log, made_eq hturns hx⟩
  · obtain ⟨ring, buf, hq⟩ := hd₀.xmit q
    have hstart : Transmit.Watched c [] (d₀.xmit q) := by
      rw [hq]
      exact .start ring buf
    have hrun : (sender c).Run (d₀.xmit q) _ (Card.xmit t.data q) := halone.run (.xmit q)
    rw [hx.data]
    exact .of_run hstart hrun
  · obtain ⟨ring, buf, hq⟩ := hd₀.recv q
    have hstart : Receive.Watched c [] (d₀.recv q) := by
      rw [hq]
      exact .start ring buf
    have hrun : (receiver c).Run (d₀.recv q) _ (Card.recv t.data q) := halone.run (.recv q)
    rw [hx.data]
    exact .of_run hstart hrun
  · have hnone := hx.turn_none hfree
    have hidle : ∀ i, (card c i).idle (t.data i) := by
      intro i
      refine halone.idle i fun u hu => ?_
      rw [hnone] at hu
      cases hu
    rw [hx.data]
    exact ⟨hnone, fun q => ⟨hidle (.xmit q), hidle (.recv q)⟩⟩

/-- A card nobody has used. -/
def unused : Card
  | .xmit _ => ⟨true, 0, 0, fun _ => ⟨0, false, false⟩, fun _ _ => 0, [], .idle, []⟩
  | .recv _ => ⟨true, 0, 255, fun _ => ⟨0, false, false, false, false⟩, fun i => 0x5000 + 0x1000 * i, [],
      .idle, []⟩

theorem unused_linkedUp : unused.LinkedUp defaultConfig :=
  ⟨fun _ => ⟨_, _, rfl⟩, fun _ => ⟨_, _, rfl⟩⟩

/-- A processor that sends three bytes on the first queue. -/
def sending (pc : Pc) (d : UInt8) (zf holds : Bool) (now : Station.Job Side.Args) :
    Caller (Station.Job Side.Args) :=
  ⟨⟨pc, d, zf, holds⟩, some (.ready (.xmit 0) [[1, 2, 3]], now), [.ready (.xmit 0) [[1, 2, 3]]]⟩

open Callers in
omit [DecidableEq P] in
theorem sending_step {s s' : Transmit.Queue} {p : P}
    (h : Transmit.driver defaultConfig s = some s') :
    Solo (Station.body (card defaultConfig)) p
      (ps, us, sending .out 0 true true (.busy (.xmit 0)), 1, Function.update unused (.xmit 0) s)
      (ps, us, sending .out 0 true true (.busy (.xmit 0)), 1, Function.update unused (.xmit 0) s') :=
  .quiet (.body rfl rfl rfl (Station.Goes.of_step (i := Side.xmit 0) h)) rfl rfl

open Callers in
/-- One of two processors has sent three bytes and gives the lock back, and the other one has called. -/
theorem queues_serial_sending : ∃ (x : Callers (Fin 2) (Station.Job Side.Args) Card) (ps : List (Fin 2))
    (us : List (Turn (Fin 2) (Station.Job Side.Args))),
    Callers.Watched (Station.body (card defaultConfig)) unused ps us x ∧ ps = [0] ∧
      us = [⟨0, .ready (.xmit 0) [[1, 2, 3]], .busy (.xmit 0)⟩] ∧
      (x.own 1).current = [.ready (.xmit 0) [[1, 2, 3]]] ∧
      (x.shared.2.xmit 0).waiting defaultConfig = [[1, 2, 3]] ∧
    ∃ last : Option (Turn (Fin 2) (Station.Job Side.Args)), ps = (us ++ last.toList).map Turn.who ∧
      (∀ u, last = some u → (x.own u.who).call = some (u.call, u.now) ∧ (x.own u.who).current = [u.call]) ∧
      (∀ q, Sends defaultConfig ((us ++ last.toList).filterMap (Station.begun (Side.xmit q)))
        (x.shared.2.xmit q)) ∧
      (∀ q, Receives defaultConfig ((us ++ last.toList).filterMap (Station.begun (Side.recv q))).length
        (x.shared.2.recv q)) ∧
      (x.shared.1 = 0 → last = none ∧ ∀ q, (x.shared.2.xmit q).pc = .idle ∧ (x.shared.2.recv q).pc = .idle) ∧
      (∀ u ∈ us, ∃ i a, u.call = .ready i a ∧ u.now = .busy i) ∧
      ∀ p, (x.own p).made = Turns.did p us ++ (x.own p).current := by
  have hsizes : (card defaultConfig (.xmit 0)).ok [[1, 2, 3]] :=
    (by decide : ∀ f ∈ [[(1 : UInt8), 2, 3]], f.length < 2 ^ 31)
  have henter : ∀ (p : Fin 2) (ps : List (Fin 2)) (us : List (Turn (Fin 2) (Station.Job Side.Args)))
      (s : UInt8 × Card), Solo (Station.body (card defaultConfig)) p
        (ps, us, ⟨⟨.out, 0, false, false⟩, none, []⟩, s)
        (ps, us, sending (.run .spinlockLock 0) 1 false false (.ready (.xmit 0) [[1, 2, 3]]), s) :=
    fun p ps us s => .quiet (.enter rfl rfl (.mk hsizes)) rfl rfl
  have hcall : Solo (Station.body (card defaultConfig)) (0 : Fin 2)
      ([0], [], sending .out 0 true true (.ready (.xmit 0) [[1, 2, 3]]), 1, unused)
      ([0], [], sending .out 0 true true (.busy (.xmit 0)), 1, Function.update unused (.xmit 0)
        {unused.xmit 0 with pc := .enter [[1, 2, 3]]}) := .quiet (.body rfl rfl rfl .call) rfl rfl
  have hloop := (((Relation.ReflTransGen.single hcall).tail (sending_step rfl)).tail
    (sending_step rfl)).tail (sending_step rfl)
  have hdone := (hloop.tail (sending_step rfl)).tail (sending_step rfl)
  have hleave := hdone.tail (.does (.leave rfl rfl rfl ⟨.xmit 0, rfl, rfl⟩) rfl rfl)
  have hfirst := untouched_watched.solo (.head (henter 0 _ _ _) (solo_lock.trans hleave))
  have hboth := hfirst.solo (p := 1) (.single (henter 1 _ _ _))
  exact ⟨_, _, _, hboth, rfl, rfl, rfl, rfl, queues_serial unused_linkedUp hboth⟩

end Kvi.Ixgbe
