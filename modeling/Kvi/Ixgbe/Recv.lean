import Kvi.Ixgbe.Receive

/-! One call of `ixgbe_recv_frames`, whatever the registers and the ring are.

The loop has no counter. It ends when the next position is the head, and every
next position is one of the ring, so that it ends for every head that is a
position of the ring (`recvLoop_returns`) and for no other (`recvLoop_never`). On
a ring that the device leaves alone it is the run of `driver`
(`driver_recvLoop`). -/
namespace Kvi.Ixgbe.Receive

/-- A descriptor that is examined: `rdesc_ring[slot]`, and `frames[entry]` for its buffer. -/
structure Look where
  slot : Nat
  entry : Nat
  deriving DecidableEq, Repr

/-- A call: what it examines, the value written to `RDT` if there is one, and `errstate`. -/
structure Taken where
  looks : List Look
  rdt : Option Nat
  errstate : Nat
  deriving DecidableEq, Repr

def Taken.cons (l : Look) (t : Taken) : Taken := {t with looks := l :: t.looks}

end Kvi.Ixgbe.Receive

namespace Kvi.Ixgbe.Config
open Receive

/-- The loop, before the descriptor after `tail`. -/
def recvLoop (c : Config) (ring : Nat → RDesc) (head tail i errstate : Nat) : Option Taken :=
  let nt := nextDesc c.numRdesc tail
  if head = nt then some ⟨[], some tail, errstate⟩
  else
    -- full arrays are reported and filled again
    let i := if i = 16 then 0 else i
    let d := ring nt
    if d.error ≠ 0 then do
      let t ← c |>.recvLoop ring head nt i (errstate ||| d.error)
      pure (t.cons ⟨nt, i⟩)
    else do
      let t ← c |>.recvLoop ring head nt (i + 1) errstate
      pure (t.cons ⟨nt, i⟩)
partial_fixpoint

end Kvi.Ixgbe.Config

namespace Kvi.Ixgbe.Receive
export Config (recvLoop)

/-- `ixgbe_recv_frames`, given what the registers `RDH` and `RDT` answer. -/
def ixgbeRecvFrames (c : Config) (recvEnabled : Bool) (rdh rdt : UInt32) (ring : Nat → RDesc) :
    Option Taken :=
  if recvEnabled then
    let head := rdh.toNat
    let tail := rdt.toNat
    if c.numRdesc < head ∨ c.numRdesc < tail then some ⟨[], none, IXGBE_RET_RCVDIS⟩
    else recvLoop c ring head tail 0 0
  else some ⟨[], none, IXGBE_RET_RCVDIS⟩

/-! ### What is bounded -/

/-- At most the whole ring is examined, within the ring and within the arrays. -/
structure Taken.Bounded (c : Config) (t : Taken) : Prop where
  count : t.looks.length ≤ c.numRdesc
  slots : ∀ l ∈ t.looks, l.slot < c.numRdesc
  entries : ∀ l ∈ t.looks, l.entry < 16

/-- The call returns, and refuses registers that are no positions of the ring. -/
def Answers (c : Config) (recvEnabled : Bool) (rdh rdt : UInt32) (ring : Nat → RDesc) : Prop :=
  ∃ t, ixgbeRecvFrames c recvEnabled rdh rdt ring = some t ∧ t.Bounded c ∧
    (¬ (rdh.toNat < c.numRdesc ∧ rdt.toNat < c.numRdesc) →
      ret t.errstate = IXGBE_RET_ERR ∧ t.looks = [])

variable {c : Config} {ring : Nat → RDesc} {head tail i errstate : Nat} {t : Taken}

/-! ### The loop -/

theorem recvLoop_end (hend : head = nextDesc c.numRdesc tail) :
    recvLoop c ring head tail i errstate = some ⟨[], some tail, errstate⟩ := by
  rw [recvLoop]
  exact if_pos hend

/-- One turn that does not end the loop goes on behind the next descriptor. -/
theorem recvLoop_step (hmore : head ≠ nextDesc c.numRdesc tail) (hi : i ≤ 16) :
    ∃ entry < 16, ∃ i' ≤ 16, ∃ errstate', recvLoop c ring head tail i errstate =
      (recvLoop c ring head (nextDesc c.numRdesc tail) i' errstate').map
        (Taken.cons ⟨nextDesc c.numRdesc tail, entry⟩) := by
  obtain ⟨entry, hentry⟩ : ∃ entry, entry = if i = 16 then 0 else i := ⟨_, rfl⟩
  have hlt : entry < 16 := by
    rw [hentry]
    split <;> omega
  refine ⟨entry, hlt, ?_⟩
  rw [recvLoop, if_neg hmore, ← hentry]
  by_cases herror : (ring (nextDesc c.numRdesc tail)).error ≠ 0
  · exact ⟨entry, Nat.le_of_lt hlt, errstate ||| (ring (nextDesc c.numRdesc tail)).error,
      (if_pos herror).trans Option.map_eq_bind.symm⟩
  · exact ⟨entry + 1, hlt, errstate, (if_neg herror).trans Option.map_eq_bind.symm⟩

/-- Where the loop returns it has examined what lies between, once around the ring at most. -/
theorem recvLoop_returns (hhead : head < c.numRdesc) (hi : i ≤ 16) :
    ∃ t, recvLoop c ring head tail i errstate = some t ∧
      t.looks.length = Ring.ahead c.numRdesc (nextDesc c.numRdesc tail) head ∧
      ∀ l ∈ t.looks, l.slot < c.numRdesc ∧ l.entry < 16 := by
  have hnt := nextDesc_lt c.two_le_numRdesc tail
  obtain ⟨d, hd⟩ : ∃ d, d = Ring.ahead c.numRdesc (nextDesc c.numRdesc tail) head := ⟨_, rfl⟩
  induction d generalizing tail i errstate with
  | zero =>
    have hend := (Ring.ahead_eq_zero hnt hhead).mp hd.symm
    rw [recvLoop_end hend.symm, ← hd]
    exact ⟨_, rfl, rfl, nofun⟩
  | succ d ih =>
    have hmore : nextDesc c.numRdesc tail ≠ head := by
      intro heq
      rw [heq, Ring.ahead_self] at hd
      cases hd
    obtain ⟨entry, hentry, i', hi', errstate', hstep⟩ :=
      @recvLoop_step c ring head tail i errstate hmore.symm hi
    have hahead := Ring.ahead_next hnt hhead hmore
    rw [← nextDesc_of_lt c.numRdesc_lt hnt] at hahead
    obtain ⟨t, ht, hlen, hlooks⟩ := @ih (nextDesc c.numRdesc tail) i' errstate' hi'
      (nextDesc_lt c.two_le_numRdesc _) (by omega)
    refine ⟨t.cons ⟨nextDesc c.numRdesc tail, entry⟩, ?_, ?_, fun l hl => ?_⟩
    · rw [hstep, ht]
      rfl
    · rw [hahead, ← hlen]
      rfl
    · rcases List.mem_cons.mp hl with rfl | hl
      · exact ⟨hnt, hentry⟩
      · exact hlooks l hl

/-- A head behind the ring is never met. -/
theorem recvLoop_never (hhead : c.numRdesc ≤ head) :
    recvLoop c ring head tail i errstate = none := by
  apply Option.eq_none_iff_forall_ne_some.mpr
  intro t hnow
  refine Config.recvLoop.partial_correctness c ring head (fun _ _ _ _ => False) ?_ tail i errstate t hnow
  intro loop ih tail i errstate t hnow
  have hnt := nextDesc_lt c.two_le_numRdesc tail
  rw [if_neg (by omega)] at hnow
  dsimp only at hnow
  split at hnow
  · obtain ⟨t', ht', -⟩ := Option.bind_eq_some_iff.mp hnow
    exact ih _ _ _ _ ht'
  · obtain ⟨t', ht', -⟩ := Option.bind_eq_some_iff.mp hnow
    exact ih _ _ _ _ ht'

/-! ### The loop as a run of the driver -/

/-- A call that had examined `before` and was at its loop has returned, as `t` says. -/
structure Returned (s₀ : Queue) (before : List (Nat × RDesc)) (t : Taken) (s : Queue) (k : Call) :
    Prop where
  idle : s.pc = .idle
  calls : s.calls = s₀.calls ++ [k]
  rdt : t.rdt = some s.rdt
  errstate : t.errstate = k.errstate
  examined : k.examined = before ++ t.looks.map fun l => (l.slot, s₀.rdescRing l.slot)

/-- The driver is before its loop, with these values. -/
structure Before (ring : Nat → RDesc) (head tail i errstate : Nat) (s : Queue) (k : Call) (v : Vars) :
    Prop where
  pc : s.pc = .loop k v
  ring : ring = s.rdescRing
  head : head = k.head
  tail : tail = v.tail
  i : i = v.i
  errstate : errstate = k.errstate

/-- The buffer and the length of the next descriptor are fetched, to the entry that the loop has. -/
theorem driver_fetch {s : Queue} {k : Call} {v : Vars} (hpc : s.pc = .loop k v)
    (hmore : k.head ≠ nextDesc c.numRdesc v.tail) :
    ∃ batches frames frameSizes, driver c s = some {s with
      pc := .check {k with batches := batches}
        ⟨nextDesc c.numRdesc v.tail, if v.i = 16 then 0 else v.i, frames, frameSizes⟩} := by
  rw [driver, hpc]
  dsimp only
  by_cases hfull : v.i = 16
  · rw [if_pos (Or.inr hfull), if_neg hmore, if_pos hfull]
    exact ⟨_, _, _, rfl⟩
  · rw [if_neg (not_or.mpr ⟨hmore, hfull⟩), if_neg hfull]
    exact ⟨_, _, _, rfl⟩

/-- The next descriptor is examined: it is fetched, and its status is checked. -/
theorem driver_look {s : Queue} {k : Call} {v : Vars} {d : RDesc} {nt entry : Nat}
    (hpc : s.pc = .loop k v) (hmore : k.head ≠ nextDesc c.numRdesc v.tail)
    (hnt : nt = nextDesc c.numRdesc v.tail) (hd : d = s.rdescRing nt)
    (hentry : entry = if v.i = 16 then 0 else v.i) :
    ∃ s' k' v', Alone (driver c) s s' ∧ s'.calls = s.calls ∧ k'.examined = k.examined ++ [(nt, d)] ∧
      Before s.rdescRing k.head nt (if d.error ≠ 0 then entry else entry + 1)
        (if d.error ≠ 0 then k.errstate ||| d.error else k.errstate) s' k' v' := by
  subst hnt hd hentry
  obtain ⟨batches, frames, frameSizes, hfetch⟩ := driver_fetch hpc hmore
  by_cases herror : (s.rdescRing (nextDesc c.numRdesc v.tail)).error ≠ 0
  · rw [if_pos herror, if_pos herror]
    exact ⟨_, _, _, .head hfetch (.single (if_pos herror)), rfl, rfl, rfl, rfl, rfl, rfl, rfl, rfl⟩
  · rw [if_neg herror, if_neg herror]
    exact ⟨_, _, _, .head hfetch (.single (if_neg herror)), rfl, rfl, rfl, rfl, rfl, rfl, rfl, rfl⟩

/-- What was examined first comes first. -/
theorem Returned.cons {s s₁ s' : Queue} {k' : Call} {before : List (Nat × RDesc)} {slot entry : Nat}
    (h : Returned s₁ (before ++ [(slot, s.rdescRing slot)]) t s' k') (hcalls : s₁.calls = s.calls)
    (hring : s₁.rdescRing = s.rdescRing) : Returned s before (t.cons ⟨slot, entry⟩) s' k' := by
  refine ⟨h.idle, hcalls ▸ h.calls, h.rdt, h.errstate, ?_⟩
  rw [h.examined, hring, List.append_assoc]
  rfl

/-- What the loop computes is what the steps of the driver come to. -/
theorem driver_recvLoop (hnow : recvLoop c ring head tail i errstate = some t) :
    ∀ s k v, Before ring head tail i errstate s k v →
      ∃ s' k', Alone (driver c) s s' ∧ Returned s k.examined t s' k' := by
  refine Config.recvLoop.partial_correctness c ring head (fun tail i errstate t =>
    ∀ s k v, Before ring head tail i errstate s k v →
      ∃ s' k', Alone (driver c) s s' ∧ Returned s k.examined t s' k')
    (fun loop ih tail i errstate t hnow s k v hat => ?_) tail i errstate t hnow
  have hpc := hat.pc
  obtain ⟨-, rfl, rfl, rfl, rfl, rfl⟩ := hat
  dsimp only at hnow
  by_cases hend : k.head = nextDesc c.numRdesc v.tail
  · rw [if_pos hend] at hnow
    obtain rfl := Option.some.inj hnow
    have hstep : driver c s = some {s.finish (k.report v) with rdt := v.tail} := by
      rw [driver, hpc]
      dsimp only
      rw [if_pos (Or.inl hend), if_pos hend]
    exact ⟨_, _, .single hstep, rfl, rfl, rfl, rfl, (List.append_nil _).symm⟩
  · rw [if_neg hend] at hnow
    obtain ⟨s₁, k₁, v₁, hlook, hcalls, hexamined, hbefore⟩ := driver_look hpc hend rfl rfl rfl
    -- whichever way the check goes, the rest of the loop is a run from the next state
    have hrest : ∀ i' errstate' t' entry,
        loop (nextDesc c.numRdesc v.tail) i' errstate' = some t' →
        Before s.rdescRing k.head (nextDesc c.numRdesc v.tail) i' errstate' s₁ k₁ v₁ →
        ∃ s' k', Alone (driver c) s s' ∧
          Returned s k.examined (t'.cons ⟨nextDesc c.numRdesc v.tail, entry⟩) s' k' := by
      intro i' errstate' t' entry ht' hat'
      obtain ⟨s', k', hrun, hret⟩ := ih _ _ _ _ ht' s₁ k₁ v₁ hat'
      rw [hexamined] at hret
      exact ⟨s', k', hlook.trans hrun, hret.cons hcalls hat'.ring.symm⟩
    by_cases herror : (s.rdescRing (nextDesc c.numRdesc v.tail)).error ≠ 0
    · rw [if_pos herror] at hnow
      rw [if_pos herror, if_pos herror] at hbefore
      obtain ⟨t', ht', heq⟩ := Option.bind_eq_some_iff.mp hnow
      obtain rfl := Option.some.inj heq
      exact hrest _ _ _ _ ht' hbefore
    · rw [if_neg herror] at hnow
      rw [if_neg herror, if_neg herror] at hbefore
      obtain ⟨t', ht', heq⟩ := Option.bind_eq_some_iff.mp hnow
      obtain rfl := Option.some.inj heq
      exact hrest _ _ _ _ ht' hbefore

/-- A call that comes to its end after the next step comes to its end. -/
theorem ends_of_next {s s₁ : Queue} (hnow : driver c s = some s₁)
    (h : ∃ s', Alone (driver c) s₁ s' ∧ s'.pc = .idle) : ∃ s', Alone (driver c) s s' ∧ s'.pc = .idle := by
  obtain ⟨s', hrun, hidle⟩ := h
  exact ⟨s', .head hnow hrun, hidle⟩

theorem Reachable.loop_ends {s : Queue} {k : Call} {v : Vars} (h : Reachable c s) (hpc : s.pc = .loop k v) :
    ∃ s', Alone (driver c) s s' ∧ s'.pc = .idle := by
  have hrunning := h.inv.running
  rw [hpc] at hrunning
  obtain ⟨hlocal, hcollected, -⟩ := hrunning
  have hhead : k.head < c.numRdesc := by
    rw [hlocal.head]
    exact Nat.mod_lt _ (Nat.lt_of_lt_of_le (by decide) c.two_le_numRdesc)
  obtain ⟨t, ht, -⟩ := @recvLoop_returns c s.rdescRing k.head v.tail v.i k.errstate hhead hcollected.room
  obtain ⟨s', k', hrun, hret⟩ := driver_recvLoop ht s k v ⟨hpc, rfl, rfl, rfl, rfl, rfl⟩
  exact ⟨s', hrun, hret.idle⟩

theorem Reachable.readTail_ends {s : Queue} {k : Call} {frames frameSizes : Nat → Nat} (h : Reachable c s)
    (hpc : s.pc = .readTail k frames frameSizes) : ∃ s', Alone (driver c) s s' ∧ s'.pc = .idle := by
  have hnow : driver c s = some {s with pc := .loop k ⟨s.rdt, 0, frames, frameSizes⟩} := by
    rw [driver, hpc]
    exact if_neg (h.inv.readTail hpc).1
  exact ends_of_next hnow ((h.step (.driver hnow)).loop_ends rfl)

/-- From wherever it is, the call comes to its end. -/
theorem Reachable.returns {s : Queue} (h : Reachable c s) :
    ∃ s', Alone (driver c) s s' ∧ s'.pc = .idle := by
  cases hpc : s.pc with
  | idle => exact ⟨s, .refl, hpc⟩
  | enter frames frameSizes =>
    have hnow : driver c s =
        some {s with pc := .readTail ⟨s.filled.length, s.rdh, [], [], 0⟩ frames frameSizes} := by
      rw [driver, hpc]
      exact if_pos h.inv.enabled
    exact ends_of_next hnow ((h.step (.driver hnow)).readTail_ends rfl)
  | readTail k frames frameSizes => exact h.readTail_ends hpc
  | loop k v => exact h.loop_ends hpc
  | check k v =>
    have hnow := driver.eq_def c s
    rw [hpc] at hnow
    dsimp only at hnow
    by_cases herror : (s.rdescRing v.tail).error ≠ 0
    · rw [if_pos herror] at hnow
      exact ends_of_next hnow ((h.step (.driver hnow)).loop_ends rfl)
    · rw [if_neg herror] at hnow
      exact ends_of_next hnow ((h.step (.driver hnow)).loop_ends rfl)

/-- Every fill is examined once, in order and before its descriptor is given back; a call examines
what was filled when it read the head, and leaves the tail behind the head it read; the batches are
the frames without error. The calls are those that were made, with the head as they read it; and one
in progress comes to its end. -/
theorem received_exactly_once {gs : List (Option Given)} {s : Queue} (h : Watched c gs s) :
    ExactlyOnce c s ∧
      gs = s.calls.map Call.given ++ s.pc.given ∧
      ∃ s', Alone (driver c) s s' ∧ s'.pc = .idle :=
  ⟨h.reachable.exactlyOnce, h.given, h.reachable.returns⟩

/-- A run in which two frames are received, the second of them with an error and after the call has
read the head. -/
theorem received_one : ∃ (gs : List (Option Given)) (s : Queue), Watched defaultConfig gs s ∧
    gs = [some ⟨1, 1⟩, some ⟨2, 2⟩] ∧
      s.calls.map Call.batches = [[[(0x5000, 60)]], [[]]] ∧
    ExactlyOnce defaultConfig s ∧
      gs = s.calls.map Call.given ++ s.pc.given ∧
      ∃ s', Alone (driver defaultConfig) s s' ∧ s'.pc = .idle := by
  have h₁ : Watched defaultConfig _ _ :=
    .start (fun _ => ⟨0, false, false, false, false⟩) fun i => 0x5000 + 0x1000 * i
  have h₂ := @Watched.device _ _ _ ⟨60, true, false, false, false⟩ h₁ (by decide)
  have h₃ := @Watched.call _ _ _ (fun _ => 0) (fun _ => 0) h₂ rfl
  have h₄ := h₃.driver rfl
  have h₅ := @Watched.device _ _ _ ⟨60, true, true, false, false⟩ h₄ (by decide)
  have h₆ := h₅.driver rfl
  have h₇ := h₆.driver rfl
  have h₈ := h₇.driver rfl
  have h₉ := h₈.driver rfl
  have h₁₀ := @Watched.call _ _ _ (fun _ => 0) (fun _ => 0) h₉ rfl
  have h₁₁ := h₁₀.driver rfl
  have h₁₂ := h₁₁.driver rfl
  have h₁₃ := h₁₂.driver rfl
  have h₁₄ := h₁₃.driver rfl
  have h₁₅ := h₁₄.driver rfl
  exact ⟨_, _, h₁₅, rfl, rfl, received_exactly_once h₁₅⟩

/-! ### The answer -/

/-- Registers behind the end of the ring are refused. -/
theorem answers_beyond {rdh rdt : UInt32} (h : c.numRdesc < rdh.toNat ∨ c.numRdesc < rdt.toNat) :
    Answers c true rdh rdt ring :=
  ⟨_, if_pos h, ⟨Nat.zero_le _, nofun, nofun⟩, fun _ => ⟨rfl, rfl⟩⟩

theorem answers_within {rdh rdt : UInt32} (hhead : rdh.toNat < c.numRdesc)
    (htail : rdt.toNat < c.numRdesc) : Answers c true rdh rdt ring := by
  obtain ⟨t, ht, hlen, hlooks⟩ := @recvLoop_returns c ring rdh.toNat rdt.toNat 0 0 hhead
    (Nat.zero_le 16)
  have hlt : Ring.ahead c.numRdesc (nextDesc c.numRdesc rdt.toNat) rdh.toNat < c.numRdesc :=
    Ring.ahead_lt (Nat.lt_of_le_of_lt (Nat.zero_le _) hhead)
  refine ⟨t, ?_, ⟨by omega, fun l hl => (hlooks l hl).1, fun l hl => (hlooks l hl).2⟩,
    fun hout => absurd ⟨hhead, htail⟩ hout⟩
  rw [ixgbeRecvFrames, if_pos rfl, if_neg (by omega), ht]

/-- A head just behind the ring passes, and the loop does not end. -/
theorem not_answers_head {rdh rdt : UInt32} (hhead : rdh.toNat = c.numRdesc)
    (htail : rdt.toNat ≤ c.numRdesc) : ¬ Answers c true rdh rdt ring := by
  intro ⟨t, ht, _, _⟩
  rw [ixgbeRecvFrames, if_pos rfl, if_neg (by omega), recvLoop_never hhead.ge] at ht
  cases ht

/-- A tail just behind the ring passes: the loop starts at the first descriptor. -/
theorem not_answers_tail {rdh rdt : UInt32} (htail : rdt.toNat = c.numRdesc)
    (hhead : rdh.toNat < c.numRdesc) : ¬ Answers c true rdh rdt ring := by
  intro ⟨t, ht, _, hrefused⟩
  rw [ixgbeRecvFrames, if_pos rfl, if_neg (by omega)] at ht
  obtain ⟨herr, hlooks⟩ := hrefused (by omega)
  obtain ⟨t', ht', hlen, -⟩ := @recvLoop_returns c ring rdh.toNat rdt.toNat 0 0 hhead
    (Nat.zero_le 16)
  obtain rfl := Option.some.inj (ht.symm.trans ht')
  have hnt : nextDesc c.numRdesc rdt.toNat = 0 := by
    rw [htail]
    exact nextDesc_self c.two_le_numRdesc c.numRdesc_lt
  rw [hlooks, hnt, Ring.ahead_zero hhead] at hlen
  rw [recvLoop_end (hlen.symm.trans hnt.symm)] at ht
  obtain rfl := Option.some.inj ht
  cases herr

/-- The answer is as it has to be unless one of the registers is just behind the ring and the
comparison lets both pass. -/
theorem answers_iff (c : Config) (recvEnabled : Bool) (rdh rdt : UInt32) (ring : Nat → RDesc) :
    Answers c recvEnabled rdh rdt ring ↔ (recvEnabled = true →
      ¬ (rdh.toNat = c.numRdesc ∧ rdt.toNat ≤ c.numRdesc) ∧
        ¬ (rdt.toNat = c.numRdesc ∧ rdh.toNat ≤ c.numRdesc)) := by
  cases recvEnabled with
  | false => exact ⟨nofun, fun _ => ⟨_, rfl, ⟨Nat.zero_le _, nofun, nofun⟩, fun _ => ⟨rfl, rfl⟩⟩⟩
  | true =>
    constructor
    · intro h _
      have hhead : ¬ (rdh.toNat = c.numRdesc ∧ rdt.toNat ≤ c.numRdesc) := fun hout =>
        not_answers_head hout.1 hout.2 h
      refine ⟨hhead, fun ⟨htail, hle⟩ => ?_⟩
      exact not_answers_tail htail (by omega) h
    · intro h
      obtain ⟨hhead, htail⟩ := h rfl
      by_cases hout : c.numRdesc < rdh.toNat ∨ c.numRdesc < rdt.toNat
      · exact answers_beyond hout
      · exact answers_within (by omega) (by omega)

/-- A received frame of 60 bytes. -/
def plain : RDesc := ⟨60, true, false, false, false⟩

/-- `RDH` at 256 on a ring of 256 descriptors, and the call does not return; `RDT` at 256, and a
descriptor is examined. -/
theorem endless_receive :
    ixgbeRecvFrames defaultConfig true 256 0 (fun _ => plain) = none ∧
      ixgbeRecvFrames defaultConfig true 1 256 (fun _ => plain) = some ⟨[⟨0, 0⟩], some 0, 0⟩ ∧
      ¬ ∀ (recvEnabled : Bool) (rdh rdt : UInt32) (ring : Nat → RDesc),
        Answers defaultConfig recvEnabled rdh rdt ring := by
  have hnever : ixgbeRecvFrames defaultConfig true 256 0 (fun _ => plain) = none := by
    rw [ixgbeRecvFrames, if_pos rfl, if_neg (by decide)]
    exact recvLoop_never (by decide)
  refine ⟨hnever, ?_, fun h => ?_⟩
  · have hlast := @recvLoop_end defaultConfig (fun _ => plain) 1 0 1 0 (by decide)
    rw [ixgbeRecvFrames, if_pos rfl, if_neg (by decide)]
    show recvLoop defaultConfig (fun _ => plain) 1 256 0 0 = _
    rw [recvLoop, if_neg (by decide)]
    show (do
      let t ← recvLoop defaultConfig (fun _ => plain) 1 0 1 0
      pure (t.cons ⟨0, 0⟩)) = _
    rw [hlast]
    rfl
  · obtain ⟨t, ht, _⟩ := h true 256 0 fun _ => plain
    rw [hnever] at ht
    cases ht

end Kvi.Ixgbe.Receive
