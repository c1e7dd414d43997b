import Kvi.Ixgbe.Recv
import Kvi.Ixgbe.Send
import Kvi.Library.Attempt

/-! Linking up.

`ixgbe_linkup` waits for the device in three loops, and then for every queue in
`ixgbe_setup_xmit` and in `ixgbe_setup_recv`. Each of these two enables its
direction when it has come to its end, so that a failure of the second one
leaves the first direction enabled. -/
namespace Kvi.Ixgbe

def IXGBE_REG_CTRL : Nat := 0x0
def IXGBE_REG_EIMC : Nat := 0x888
def IXGBE_REG_FCTTV : Nat := 0x3200
def IXGBE_REG_FCRTL : Nat := 0x3220
def IXGBE_REG_FCRTH : Nat := 0x3260
def IXGBE_REG_FCRTV : Nat := 0x32A0
def IXGBE_REG_FCCFG : Nat := 0x3D00
def IXGBE_REG_FCTRL : Nat := 0x5080
def IXGBE_REG_DMATXCTL : Nat := 0x4A80
def IXGBE_REG_TDBAL : Nat := 0x6000
def IXGBE_REG_TDBAH : Nat := 0x6004
def IXGBE_REG_TDLEN : Nat := 0x6008
def IXGBE_REG_TDH : Nat := 0x6010
def IXGBE_REG_TDT : Nat := 0x6018
def IXGBE_REG_TXDCTL : Nat := 0x6028
def IXGBE_REG_RDBAL : Nat := 0x1000
def IXGBE_REG_RDBAH : Nat := 0x1004
def IXGBE_REG_RDLEN : Nat := 0x1008
def IXGBE_REG_RDH : Nat := 0x1010
def IXGBE_REG_RDT : Nat := 0x1018
def IXGBE_REG_RXDCTL : Nat := 0x1028
def IXGBE_REG_RXCTRL : Nat := 0x3000
def IXGBE_REG_HLREG0 : Nat := 0x4240
def IXGBE_REG_MAXFRS : Nat := 0x4268

/-- `1 << n` -/
def bit (n : UInt32) : UInt32 := 1 <<< n

def IXGBE_NUM_QUEUE_PAIRS : Nat := 64

/-- What a call finds: the fields of `struct ixgbe` that it does not write, the rings that it
allocates, and what the device answers. Every poll of every loop has an answer of its own. -/
structure Board where
  config : Config
  useJumboframe : Bool
  jumboframeSize : UInt32
  /-- `tdesc_ring` and `rdesc_ring` of each queue. -/
  tdescRing : Nat → UInt64
  rdescRing : Nat → UInt64
  mmioBase : UInt64
  /-- `STATUS`, until the master is disabled. -/
  master : Nat → UInt32
  /-- `CTRL` and `STATUS`, until the reset is complete. -/
  resetCtrl : Nat → UInt32
  resetStatus : Nat → UInt32
  links : Nat → UInt32
  /-- `TXDCTL` and `RXDCTL` of each queue, until it is enabled. -/
  txdctl : Nat → Nat → UInt32
  rxdctl : Nat → Nat → UInt32
  /-- A register that is read to be written back, the `n`-th time. -/
  reg : Nat → Nat → UInt32

/-- The fields of `struct ixgbe` that a call writes, and what it has done to the device. -/
structure Nic where
  xmitEnabled : Bool
  recvEnabled : Bool
  /-- Registers written, in order. -/
  written : List (Nat × UInt32)
  /-- Microseconds slept. -/
  slept : Nat
  polls : Nat

/-- `ixgbe_usleep` -/
def Nic.usleep (usec : Nat) (s : Nic) : Nic := {s with slept := s.slept + usec}

def Nic.poll (s : Nic) : Nic := {s with polls := s.polls + 1}

namespace Board

/-- `ixgbe_read32`, of a register that answers `answer`. -/
def read32 (b : Board) (answer : UInt32) : UInt32 := if b.mmioBase ≠ 0 then answer else 0

/-- `ixgbe_write32` -/
def write32 (b : Board) (offset : Nat) (value : UInt32) (s : Nic) : Nic :=
  if b.mmioBase ≠ 0 then {s with written := s.written ++ [(offset, value)]} else s

/-- `ixgbe_check32` -/
def check32 (b : Board) (answer value : UInt32) : Bool := b.read32 answer &&& value == value

/-- A loop that polls, at most once in a millisecond. -/
def wait (up : Nat → Bool) (timeout : Int) : Attempt Nic :=
  Attempt.retry (Nic.usleep 1000) Nic.poll up timeout 0

/-- `ixgbe_write_tdesc` and `ixgbe_write_rdesc`, for one queue. -/
def writeRing (b : Board) (bal bah tail head len : Nat) (ring : Nat → UInt64) (size : Nat) (s : Nic)
    (q : Nat) : Nic :=
  let s := b.write32 (bal + 0x40 * q) (ring q).toUInt32 s
  let s := b.write32 (bah + 0x40 * q) (ring q >>> 32).toUInt32 s
  let s := b.write32 (tail + 0x40 * q) 0 s
  let s := b.write32 (head + 0x40 * q) 0 s
  b.write32 (len + 0x40 * q) (UInt32.ofNat size) s

/-- `ixgbe_write_tdesc` -/
def ixgbeWriteTdesc (b : Board) (qnum : Nat) (s : Nic) : Nic :=
  (List.range qnum).foldl (b.writeRing IXGBE_REG_TDBAL IXGBE_REG_TDBAH IXGBE_REG_TDT IXGBE_REG_TDH
    IXGBE_REG_TDLEN b.tdescRing (b.config.numTdesc * 16)) s

/-- `ixgbe_write_rdesc` -/
def ixgbeWriteRdesc (b : Board) (qnum : Nat) (s : Nic) : Nic :=
  (List.range qnum).foldl (b.writeRing IXGBE_REG_RDBAL IXGBE_REG_RDBAH IXGBE_REG_RDT IXGBE_REG_RDH
    IXGBE_REG_RDLEN b.rdescRing (b.config.numRdesc * 16)) s

/-- A queue of one direction is enabled: its control register is `dctl`. -/
def enable (b : Board) (dctl : Nat) (answers : Nat → UInt32) : Attempt Nic :=
  (Attempt.act (b.write32 dctl (b.read32 (b.reg dctl 0) ||| bit 25))).andThen
    (wait (fun n => b.check32 (answers n) (bit 25)) (3 * 1000))

def enableXmit (b : Board) (q : Nat) : Attempt Nic :=
  b.enable (IXGBE_REG_TXDCTL + 0x40 * q) (b.txdctl q)

/-- The tail of the ring is bumped up when the queue is enabled. -/
def enableRecv (b : Board) (q : Nat) : Attempt Nic :=
  (b.enable (IXGBE_REG_RXDCTL + 0x40 * q) (b.rxdctl q)).andThen
    (Attempt.act (b.write32 (IXGBE_REG_RDT + 0x40 * q) (UInt32.ofNat (b.config.numRdesc - 1))))

/-- `ixgbe_setup_xmit`, with the rings allocated. -/
def ixgbeSetupXmit (b : Board) (qnum : Nat) (s : Nic) : Int × Nic :=
  let s := b.write32 IXGBE_REG_HLREG0 (b.read32 (b.reg IXGBE_REG_HLREG0 0) &&& ~~~0x4) s
  let s := b.ixgbeWriteTdesc qnum s
  let s := b.write32 IXGBE_REG_DMATXCTL (b.read32 (b.reg IXGBE_REG_DMATXCTL 0) ||| 0x1) s
  let r := Attempt.each b.enableXmit (List.range qnum) s
  if r.1 then (IXGBE_RET_OK, {r.2 with xmitEnabled := true}) else (IXGBE_RET_ERR, r.2)

/-- enable/disable jumboframe -/
def setJumboframe (b : Board) (s : Nic) : Nic :=
  if b.useJumboframe then
    b.write32 IXGBE_REG_HLREG0 (b.read32 (b.reg IXGBE_REG_HLREG0 1) ||| 0x4)
      (b.write32 IXGBE_REG_MAXFRS (b.jumboframeSize <<< 16) s)
  else b.write32 IXGBE_REG_HLREG0 (b.read32 (b.reg IXGBE_REG_HLREG0 1) &&& ~~~0x4) s

/-- enable L2 filters: accept broadcast; start reception -/
def startReception (b : Board) (s : Nic) : Nic :=
  let s := b.write32 IXGBE_REG_FCTRL (bit 10) s
  b.write32 IXGBE_REG_RXCTRL (b.read32 (b.reg IXGBE_REG_RXCTRL 0) ||| 1) s

/-- `ixgbe_setup_recv`, with the rings allocated. -/
def ixgbeSetupRecv (b : Board) (qnum : Nat) (s : Nic) : Int × Nic :=
  let s := b.ixgbeWriteRdesc qnum (b.setJumboframe s)
  let r := Attempt.each b.enableRecv (List.range qnum) s
  if r.1 then (IXGBE_RET_OK, {b.startReception r.2 with recvEnabled := true})
  else (IXGBE_RET_ERR, r.2)

/-! `ixgbe_linkup`, up to the set-up of the queues -/

def disableMaster (b : Board) : Attempt Nic :=
  (Attempt.act fun s =>
    b.write32 IXGBE_REG_CTRL 0x00000004 (b.write32 IXGBE_REG_EIMC 0xffffffff s)).andThen
    (wait (fun n => !b.check32 (b.master n) 0x00080000) (3 * 1000))

def reset (b : Board) : Attempt Nic :=
  (Attempt.act (b.write32 IXGBE_REG_CTRL (0x04000008 ||| b.read32 (b.reg IXGBE_REG_CTRL 0)))).andThen
    (wait (fun n => !b.check32 (b.resetCtrl n) 0x04000000 && b.check32 (b.resetStatus n) 0x00080000)
      (3 * 1000))

def awaitLink (b : Board) : Attempt Nic :=
  (Attempt.act fun s => b.write32 IXGBE_REG_EIMC 0xffffffff (s.usleep (10 * 1000))).andThen
    (wait (fun n => b.check32 (b.links n) (bit 7 ||| bit 30)) (10 * 1000))

def disableFlowControl (b : Board) (s : Nic) : Nic :=
  [IXGBE_REG_FCTTV, IXGBE_REG_FCRTL, IXGBE_REG_FCRTH, IXGBE_REG_FCRTV, IXGBE_REG_FCCFG].foldl
    (fun s offset => b.write32 offset 0 s) s

/-- `ixgbe_linkup`; `ixgbe_setup_vmdq` reads a register and writes none. -/
def ixgbeLinkup (b : Board) (s : Nic) : Int × Nic :=
  -- clear internal state values
  let s := {s with xmitEnabled := false, recvEnabled := false}
  let r := (b.disableMaster.andThen (b.reset.andThen b.awaitLink)) s
  if r.1 then
    let s := b.disableFlowControl r.2
    let x := b.ixgbeSetupXmit IXGBE_NUM_QUEUE_PAIRS s
    if x.1 ≠ IXGBE_RET_OK then (IXGBE_RET_ERR, x.2)
    else
      let y := b.ixgbeSetupRecv IXGBE_NUM_QUEUE_PAIRS x.2
      if y.1 ≠ IXGBE_RET_OK then (IXGBE_RET_ERR, y.2) else (IXGBE_RET_OK, y.2)
  else (IXGBE_RET_ERR, r.2)

/-! ### What the device has to do -/

/-- The device answers the three loops in time. -/
structure Linked (b : Board) : Prop where
  master : ∃ n ≤ 3000, ¬ b.check32 (b.master n) 0x00080000
  reset : ∃ n ≤ 3000, ¬ b.check32 (b.resetCtrl n) 0x04000000 ∧ b.check32 (b.resetStatus n) 0x00080000
  links : ∃ n ≤ 10000, b.check32 (b.links n) (bit 7 ||| bit 30)

/-- Every queue is enabled in time, for transmission or for reception. -/
def Enabled (b : Board) (answers : Nat → Nat → UInt32) : Prop :=
  ∀ q < IXGBE_NUM_QUEUE_PAIRS, ∃ n ≤ 3000, b.check32 (answers q n) (bit 25)

/-- The polls of all loops together. -/
def MAX_POLLS : Nat := 3001 + 3001 + 10001 + 64 * 3001 + 64 * 3001

/-- What linking up leaves: both directions or none. -/
structure AllOrNothing (b : Board) (s : Nic) (r : Int × Nic) : Prop where
  bounded : r.2.polls ≤ s.polls + MAX_POLLS
  ok : r.1 = IXGBE_RET_OK ↔ r.2.xmitEnabled = true ∧ r.2.recvEnabled = true
  err : r.1 = IXGBE_RET_ERR → r.2.xmitEnabled = false ∧ r.2.recvEnabled = false
  /-- No later call touches the rings. -/
  silent : r.1 = IXGBE_RET_ERR →
    (∀ tdh tdt numFrames sizes,
      (Transmit.ixgbeSendFrames b.config r.2.xmitEnabled tdh tdt numFrames sizes).fills = []) ∧
    ∀ rdh rdt ring, ∃ t,
      Receive.ixgbeRecvFrames b.config r.2.recvEnabled rdh rdt ring = some t ∧ t.looks = []

variable {b : Board} {s : Nic}

/-! ### The parts -/

/-- A part of linking up, which leaves both directions as they are. -/
abbrev Part (f : Attempt Nic) (k : Nat) (P : Prop) : Prop :=
  f.Meets (fun s => (s.xmitEnabled, s.recvEnabled)) Nic.polls k P

/-- A function on the state that only writes to the device, or sleeps. -/
structure Quiet (f : Nic → Nic) : Prop where
  flags : ∀ s, ((f s).xmitEnabled, (f s).recvEnabled) = (s.xmitEnabled, s.recvEnabled)
  polls : ∀ s, (f s).polls = s.polls

theorem Quiet.part {f : Nic → Nic} (h : Quiet f) : Part (Attempt.act f) 0 True :=
  .act h.flags fun s => (h.polls s).le

theorem Quiet.comp {f g : Nic → Nic} (hg : Quiet g) (hf : Quiet f) : Quiet fun s => g (f s) :=
  ⟨fun s => (hg.flags (f s)).trans (hf.flags s), fun s => (hg.polls (f s)).trans (hf.polls s)⟩

theorem Quiet.foldl {ι : Type} {f : Nic → ι → Nic} (hf : ∀ i, Quiet (f · i)) (is : List ι) :
    Quiet (is.foldl f) := by
  induction is with
  | nil => exact ⟨fun _ => rfl, fun _ => rfl⟩
  | cons i is ih => exact ih.comp (hf i)

theorem quiet_write32 (offset : Nat) (value : UInt32) : Quiet (b.write32 offset value) := by
  constructor
  · intro s
    rw [write32]
    split <;> rfl
  · intro s
    rw [write32]
    split <;> rfl

theorem quiet_usleep (usec : Nat) : Quiet (Nic.usleep usec) := ⟨fun _ => rfl, fun _ => rfl⟩

theorem quiet_writeRing {bal bah tail head len size q : Nat} {ring : Nat → UInt64} :
    Quiet (b.writeRing bal bah tail head len ring size · q) :=
  (quiet_write32 ..).comp ((quiet_write32 ..).comp ((quiet_write32 ..).comp
    ((quiet_write32 ..).comp (quiet_write32 ..))))

theorem part_wait {up : Nat → Bool} (timeout : Nat) :
    Part (wait up timeout) (timeout + 1) (∃ n ≤ timeout, up n) := by
  have hflags : ∀ s : Nic, (s.poll.xmitEnabled, s.poll.recvEnabled) = (s.xmitEnabled, s.recvEnabled) :=
    fun _ => rfl
  have hone : ∀ s : Nic, s.poll.polls = s.polls + 1 := fun _ => rfl
  have h : Part (Attempt.retry (Nic.usleep 1000) Nic.poll up timeout 0) (timeout + 1)
      (∃ n ≤ timeout, up (0 + n)) :=
    .retry (quiet_usleep 1000).flags hflags (quiet_usleep 1000).polls hone timeout 0
  simp only [Nat.zero_add] at h
  exact h

/-- Some writes, and then a loop. -/
theorem Quiet.wait {f : Nic → Nic} (hf : Quiet f) {up : Nat → Bool} (timeout : Nat) :
    Part ((Attempt.act f).andThen (wait up timeout)) (timeout + 1) (∃ n ≤ timeout, up n) := by
  have h := hf.part.andThen (@part_wait up timeout)
  rw [Nat.zero_add] at h
  exact h.iff (and_iff_right trivial)

theorem part_enable {dctl : Nat} {answers : Nat → UInt32} :
    Part (b.enable dctl answers) 3001 (∃ n ≤ 3000, b.check32 (answers n) (bit 25)) :=
  (quiet_write32 _ _).wait 3000

theorem part_enableXmit (q : Nat) :
    Part (b.enableXmit q) 3001 (∃ n ≤ 3000, b.check32 (b.txdctl q n) (bit 25)) := part_enable

theorem part_enableRecv (q : Nat) :
    Part (b.enableRecv q) 3001 (∃ n ≤ 3000, b.check32 (b.rxdctl q n) (bit 25)) :=
  (part_enable.andThen (quiet_write32 _ _).part).iff (and_iff_left trivial)

/-- All three loops. -/
theorem part_linked : Part (b.disableMaster.andThen (b.reset.andThen b.awaitLink))
    (3001 + (3001 + 10001)) b.Linked := by
  have hmaster : Part b.disableMaster 3001 (∃ n ≤ 3000, !b.check32 (b.master n) 0x00080000) :=
    ((quiet_write32 _ _).comp (quiet_write32 _ _)).wait 3000
  have hreset : Part b.reset 3001 (∃ n ≤ 3000, !b.check32 (b.resetCtrl n) 0x04000000 &&
      b.check32 (b.resetStatus n) 0x00080000) :=
    (quiet_write32 _ _).wait 3000
  have hlink : Part b.awaitLink 10001 (∃ n ≤ 10000, b.check32 (b.links n) (bit 7 ||| bit 30)) :=
    ((quiet_write32 _ _).comp (quiet_usleep _)).wait 10000
  refine (hmaster.andThen (hreset.andThen hlink)).iff ?_
  simp only [Bool.and_eq_true, Bool.not_eq_true', ← Bool.not_eq_true]
  exact ⟨fun h => ⟨h.1, h.2.1, h.2.2⟩, fun h => ⟨h.master, h.reset, h.links⟩⟩

theorem forall_queues {P : Nat → Prop} :
    (∀ q ∈ List.range 64, P q) ↔ ∀ q < IXGBE_NUM_QUEUE_PAIRS, P q :=
  forall_congr' fun _ => imp_congr_left List.mem_range

theorem err_ne_ok : ¬ IXGBE_RET_ERR = IXGBE_RET_OK := by decide

/-- What the set-up of one direction does to its flag and to the other one, when it succeeds exactly if
`P`. -/
structure SetsUp (own other : Nic → Bool) (s : Nic) (r : Int × Nic) (P : Prop) : Prop where
  ok : r.1 = IXGBE_RET_OK ↔ P
  own : own r.2 = true ↔ own s = true ∨ P
  other : other r.2 = other s
  polls : r.2.polls ≤ s.polls + 64 * 3001

/-- Writes, the queues one after the other, and then the flag. -/
theorem SetsUp.of_part {own other : Nic → Bool} {prepare finish : Nic → Nic} {queues : Attempt Nic}
    {P : Prop} (hflags : ∀ s s' : Nic, (s.xmitEnabled, s.recvEnabled) =
      (s'.xmitEnabled, s'.recvEnabled) → own s = own s' ∧ other s = other s')
    (hprepare : Quiet prepare) (hqueues : Part queues (64 * 3001) P)
    (hown : ∀ s, own (finish s) = true) (hother : ∀ s, other (finish s) = other s)
    (hpolls : ∀ s, (finish s).polls = s.polls) (s : Nic) :
    SetsUp own other s (if (queues (prepare s)).1 then (IXGBE_RET_OK, finish (queues (prepare s)).2)
      else (IXGBE_RET_ERR, (queues (prepare s)).2)) P := by
  have hok := hqueues.ok (prepare s)
  have hcost := hqueues.cost_le (prepare s)
  rw [hprepare.polls] at hcost
  obtain ⟨hown', hother'⟩ := hflags _ _ ((hqueues.kept (prepare s)).trans (hprepare.flags s))
  split
  · next hdone =>
    exact ⟨iff_of_true rfl (hok.mp hdone), iff_of_true (hown _) (.inr (hok.mp hdone)),
      (hother _).trans hother', (hpolls _).trans_le hcost⟩
  · next hfailed =>
    have hnot := mt hok.mpr hfailed
    refine ⟨iff_of_false err_ne_ok hnot, ?_, hother', hcost⟩
    rw [or_iff_left hnot, hown']

theorem ixgbeSetupXmit_spec (s : Nic) : SetsUp Nic.xmitEnabled Nic.recvEnabled s
    (b.ixgbeSetupXmit IXGBE_NUM_QUEUE_PAIRS s) (b.Enabled b.txdctl) := by
  have hprepare : Quiet fun s => b.write32 IXGBE_REG_DMATXCTL
      (b.read32 (b.reg IXGBE_REG_DMATXCTL 0) ||| 0x1) (b.ixgbeWriteTdesc IXGBE_NUM_QUEUE_PAIRS
        (b.write32 IXGBE_REG_HLREG0 (b.read32 (b.reg IXGBE_REG_HLREG0 0) &&& ~~~0x4) s)) :=
    (quiet_write32 _ _).comp ((Quiet.foldl (fun _ => quiet_writeRing) _).comp (quiet_write32 _ _))
  have hqueues := (Attempt.Meets.each (part_enableXmit (b := b)) (List.range 64)).iff forall_queues
  exact @SetsUp.of_part _ _ _ (fun s => {s with xmitEnabled := true}) _ _
    (fun _ _ h => Prod.mk.inj h) hprepare hqueues (fun _ => rfl) (fun _ => rfl) (fun _ => rfl) s

theorem quiet_setJumboframe : Quiet b.setJumboframe := by
  have hoff : Quiet (b.write32 IXGBE_REG_HLREG0 (b.read32 (b.reg IXGBE_REG_HLREG0 1) &&& ~~~0x4)) :=
    quiet_write32 _ _
  have hon : Quiet fun s => b.write32 IXGBE_REG_HLREG0 (b.read32 (b.reg IXGBE_REG_HLREG0 1) ||| 0x4)
      (b.write32 IXGBE_REG_MAXFRS (b.jumboframeSize <<< 16) s) :=
    (quiet_write32 _ _).comp (quiet_write32 _ _)
  unfold setJumboframe
  split
  · exact hon
  · exact hoff

theorem ixgbeSetupRecv_spec (s : Nic) : SetsUp Nic.recvEnabled Nic.xmitEnabled s
    (b.ixgbeSetupRecv IXGBE_NUM_QUEUE_PAIRS s) (b.Enabled b.rxdctl) := by
  have hprepare : Quiet fun s => b.ixgbeWriteRdesc IXGBE_NUM_QUEUE_PAIRS (b.setJumboframe s) :=
    (Quiet.foldl (fun _ => quiet_writeRing) _).comp quiet_setJumboframe
  have hstart : Quiet b.startReception := (quiet_write32 _ _).comp (quiet_write32 _ _)
  have hqueues := (Attempt.Meets.each (part_enableRecv (b := b)) (List.range 64)).iff forall_queues
  exact @SetsUp.of_part _ _ _ (fun s => {b.startReception s with recvEnabled := true}) _ _
    (fun _ _ h => (Prod.mk.inj h).symm) hprepare hqueues (fun _ => rfl)
    (fun s => (Prod.mk.inj (hstart.flags s)).1) hstart.polls s

/-! ### Linking up -/

theorem quiet_disableFlowControl : Quiet b.disableFlowControl :=
  Quiet.foldl (fun _ => quiet_write32 _ _) _

/-- A direction is enabled as soon as its own queues are. -/
structure Outcome (b : Board) (s : Nic) (r : Int × Nic) : Prop where
  code : r.1 = IXGBE_RET_OK ∨ r.1 = IXGBE_RET_ERR
  ok : r.1 = IXGBE_RET_OK ↔ b.Linked ∧ b.Enabled b.txdctl ∧ b.Enabled b.rxdctl
  xmit : r.2.xmitEnabled = true ↔ b.Linked ∧ b.Enabled b.txdctl
  recv : r.2.recvEnabled = true ↔ b.Linked ∧ b.Enabled b.txdctl ∧ b.Enabled b.rxdctl
  polls : r.2.polls ≤ s.polls + MAX_POLLS

/-- A flag that is off, for something that does not hold. -/
theorem off_iff {flag : Bool} {P : Prop} (hflag : flag = false) (hP : ¬ P) : flag = true ↔ P :=
  iff_of_false (by rw [hflag]; exact Bool.false_ne_true) hP

/-- Both set-ups, when the loops before them have ended well. -/
theorem outcome_linked (hlinked : b.Linked) {s₁ : Nic} (hxmit : s₁.xmitEnabled = false)
    (hrecv : s₁.recvEnabled = false) (hpolls : s₁.polls ≤ s.polls + (3001 + (3001 + 10001))) :
    b.Outcome s (
      if (b.ixgbeSetupXmit IXGBE_NUM_QUEUE_PAIRS s₁).1 ≠ IXGBE_RET_OK then
        (IXGBE_RET_ERR, (b.ixgbeSetupXmit IXGBE_NUM_QUEUE_PAIRS s₁).2)
      else
        let y := b.ixgbeSetupRecv IXGBE_NUM_QUEUE_PAIRS (b.ixgbeSetupXmit IXGBE_NUM_QUEUE_PAIRS s₁).2
        if y.1 ≠ IXGBE_RET_OK then (IXGBE_RET_ERR, y.2) else (IXGBE_RET_OK, y.2)) := by
  have hx := ixgbeSetupXmit_spec (b := b) s₁
  generalize b.ixgbeSetupXmit IXGBE_NUM_QUEUE_PAIRS s₁ = x at hx ⊢
  have hy := ixgbeSetupRecv_spec (b := b) x.2
  dsimp only
  generalize b.ixgbeSetupRecv IXGBE_NUM_QUEUE_PAIRS x.2 = y at hy ⊢
  have hxpolls := hx.polls
  have hypolls := hy.polls
  have hxown : x.2.xmitEnabled = true ↔ b.Enabled b.txdctl := by
    rw [hx.own, hxmit, or_iff_right Bool.false_ne_true]
  have hxother : x.2.recvEnabled = false := by rw [hx.other, hrecv]
  have hyown : y.2.recvEnabled = true ↔ b.Enabled b.rxdctl := by
    rw [hy.own, hxother, or_iff_right Bool.false_ne_true]
  by_cases hxok : x.1 = IXGBE_RET_OK
  · have hX := hx.ok.mp hxok
    have hends : y.2.xmitEnabled = true := hy.other.trans (hxown.mpr hX)
    have hmax : y.2.polls ≤ s.polls + MAX_POLLS := by
      rw [MAX_POLLS]
      omega
    have hboth : b.Linked ∧ b.Enabled b.txdctl ∧ b.Enabled b.rxdctl ↔ b.Enabled b.rxdctl :=
      ⟨fun h => h.2.2, fun h => ⟨hlinked, hX, h⟩⟩
    rw [if_neg (not_not.mpr hxok)]
    by_cases hyok : y.1 = IXGBE_RET_OK
    · rw [if_neg (not_not.mpr hyok)]
      exact ⟨.inl rfl, iff_of_true rfl (hboth.mpr (hy.ok.mp hyok)), iff_of_true hends ⟨hlinked, hX⟩,
        hyown.trans hboth.symm, hmax⟩
    · rw [if_pos hyok]
      exact ⟨.inr rfl, iff_of_false err_ne_ok fun h => hyok (hy.ok.mpr h.2.2),
        iff_of_true hends ⟨hlinked, hX⟩, hyown.trans hboth.symm, hmax⟩
  · have hX := mt hx.ok.mpr hxok
    have hmax : x.2.polls ≤ s.polls + MAX_POLLS := by
      rw [MAX_POLLS]
      omega
    rw [if_pos hxok]
    exact ⟨.inr rfl, iff_of_false err_ne_ok fun h => hX h.2.1,
      hxown.trans (and_iff_right hlinked).symm, off_iff hxother fun h => hX h.2.1, hmax⟩

theorem ixgbeLinkup_outcome (b : Board) (s : Nic) : b.Outcome s (b.ixgbeLinkup s) := by
  obtain ⟨s₀, hs₀⟩ : ∃ s₀ : Nic, s₀ = {s with xmitEnabled := false, recvEnabled := false} := ⟨_, rfl⟩
  have hlinked := part_linked (b := b)
  have hok := hlinked.ok s₀
  have hkept := hlinked.kept s₀
  have hcost := hlinked.cost_le s₀
  rw [ixgbeLinkup, ← hs₀]
  dsimp only
  generalize (b.disableMaster.andThen (b.reset.andThen b.awaitLink)) s₀ = r at hok hkept hcost ⊢
  rw [hs₀] at hkept hcost
  obtain ⟨hxmit, hrecv⟩ := Prod.mk.inj hkept
  have hpolls : r.2.polls ≤ s.polls + (3001 + (3001 + 10001)) := hcost
  by_cases hlink : r.1 = true
  · have hquiet := quiet_disableFlowControl (b := b)
    obtain ⟨hx, hr⟩ := Prod.mk.inj (hquiet.flags r.2)
    rw [if_pos hlink]
    exact outcome_linked (hok.mp hlink) (hx.trans hxmit) (hr.trans hrecv)
      ((hquiet.polls r.2).trans_le hpolls)
  · have hnot := mt hok.mpr hlink
    have hmax : r.2.polls ≤ s.polls + MAX_POLLS := by
      rw [MAX_POLLS]
      omega
    rw [if_neg hlink]
    exact ⟨.inr rfl, iff_of_false err_ne_ok fun h => hnot h.1, off_iff hxmit fun h => hnot h.1,
      off_iff hrecv fun h => hnot h.1, hmax⟩

/-- Linking up is all or nothing unless transmission is set up and reception is then not. -/
theorem allOrNothing_iff (b : Board) (s : Nic) : b.AllOrNothing s (b.ixgbeLinkup s) ↔
    ¬ (b.Linked ∧ b.Enabled b.txdctl ∧ ¬ b.Enabled b.rxdctl) := by
  have h := ixgbeLinkup_outcome b s
  constructor
  · intro hall ⟨hlinked, hxmit, hrecv⟩
    have herr : (b.ixgbeLinkup s).1 = IXGBE_RET_ERR :=
      h.code.resolve_left fun hok => hrecv (h.ok.mp hok).2.2
    have hoff := (hall.err herr).1
    rw [h.xmit.mpr ⟨hlinked, hxmit⟩] at hoff
    cases hoff
  · intro hnot
    have hxmit : (b.ixgbeLinkup s).2.xmitEnabled = true → (b.ixgbeLinkup s).1 = IXGBE_RET_OK := by
      intro hx
      obtain ⟨hlinked, hxmit⟩ := h.xmit.mp hx
      exact h.ok.mpr ⟨hlinked, hxmit, not_not.mp fun hrecv => hnot ⟨hlinked, hxmit, hrecv⟩⟩
    have herr : (b.ixgbeLinkup s).1 = IXGBE_RET_ERR → (b.ixgbeLinkup s).2.xmitEnabled = false ∧
        (b.ixgbeLinkup s).2.recvEnabled = false := by
      intro herr
      have hfailed : ¬ (b.ixgbeLinkup s).1 = IXGBE_RET_OK := herr ▸ err_ne_ok
      exact ⟨Bool.eq_false_of_not_eq_true fun hx => hfailed (hxmit hx),
        Bool.eq_false_of_not_eq_true fun hr => hfailed (h.ok.mpr (h.recv.mp hr))⟩
    refine ⟨h.polls, ⟨fun hok => ?_, fun hboth => hxmit hboth.1⟩, herr, fun hfailed => ?_⟩
    · have hup := h.ok.mp hok
      exact ⟨h.xmit.mpr ⟨hup.1, hup.2.1⟩, h.recv.mpr hup⟩
    · obtain ⟨hx, hr⟩ := herr hfailed
      rw [hx, hr]
      exact ⟨fun _ _ _ _ => rfl, fun _ _ _ => ⟨_, rfl, rfl⟩⟩

/-- All registers answer as they have to, but `RXDCTL`. -/
def deaf : Board where
  config := defaultConfig
  useJumboframe := false
  jumboframeSize := 9000
  tdescRing _ := 0x100000
  rdescRing _ := 0x200000
  mmioBase := 0xf0000000
  master _ := 0
  resetCtrl _ := 0
  resetStatus _ := 0x00080000
  links _ := 0x40000080
  txdctl _ _ := bit 25
  rxdctl _ _ := 0
  reg _ _ := 0

/-- Linking up fails with transmission enabled. -/
theorem deaf_transmits : (deaf.ixgbeLinkup ⟨false, false, [], 0, 0⟩).1 = IXGBE_RET_ERR ∧
    (deaf.ixgbeLinkup ⟨false, false, [], 0, 0⟩).2.xmitEnabled = true ∧
    ¬ ∀ (b : Board) (s : Nic), b.AllOrNothing s (b.ixgbeLinkup s) := by
  have h := ixgbeLinkup_outcome deaf ⟨false, false, [], 0, 0⟩
  have hlinked : deaf.Linked := ⟨⟨0, by decide⟩, ⟨0, by decide⟩, ⟨0, by decide⟩⟩
  have hanswer : deaf.check32 (bit 25) (bit 25) := by decide
  have hsilence : ¬ deaf.check32 0 (bit 25) := by decide
  have hxmit : deaf.Enabled deaf.txdctl := fun _ _ => ⟨0, Nat.zero_le _, hanswer⟩
  have hrecv : ¬ deaf.Enabled deaf.rxdctl := by
    intro hrecv
    obtain ⟨n, _, hn⟩ := hrecv 0 (by decide)
    exact hsilence hn
  have herr := h.code.resolve_left fun hok => hrecv (h.ok.mp hok).2.2
  have henabled := h.xmit.mpr ⟨hlinked, hxmit⟩
  refine ⟨herr, henabled, fun hall => ?_⟩
  have hoff := ((hall deaf ⟨false, false, [], 0, 0⟩).err herr).1
  rw [henabled] at hoff
  cases hoff

end Board
end Kvi.Ixgbe
