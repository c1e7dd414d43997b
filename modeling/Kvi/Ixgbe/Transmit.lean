import Kvi.Ixgbe.Config
import Kvi.Library.Memory

/-! The transmit ring.

`driver` is `ixgbe_send_frames`, one access to the ring or to a register at a
time, so that the device can step in between any two of them; calls exclude each
other by the driver's lock. The head is read once and may be behind the device's
by the time it is used. `Queue.sent` is what the device has transmitted. -/
namespace Kvi.Ixgbe.Transmit

def IXGBE_RET_XMTDIS : Nat := 1
def IXGBE_RET_XMTFULL : Nat := 2
def IXGBE_RET_XMTBIG : Nat := 4

/-- The fields of `struct ixgbe_tdesc` that the driver writes. -/
structure TDesc where
  len : Nat
  cmdEop : Bool
  cmdIfcs : Bool

/-- The bytes of a frame; `frame_sizes[i]` is its length. -/
abbrev Frame := List UInt8

/-- A call: its frames, the registers as it read them, the frames it queued, and `errstate`. -/
structure Call where
  frames : List Frame
  head : Nat
  tail : Nat
  queued : List Frame
  errstate : Nat

/-- Where the driver is in `ixgbe_send_frames`. -/
inductive Pc where
  | idle
  | enter (frames : List Frame)
  | readTail (frames : List Frame) (head : Nat)
  /-- Before the frames `rest`, with the local `tail`. -/
  | loop (k : Call) (tail : Nat) (rest : List Frame)
  /-- The buffer of `f` is filled, its descriptor is not. -/
  | describe (k : Call) (tail : Nat) (f : Frame) (rest : List Frame)

structure Queue where
  xmitEnabled : Bool
  /-- The registers `TDH` and `TDT`. -/
  tdh : Nat
  tdt : Nat
  /-- `tdesc_ring` and the memory `tdesc_buf[i]` points to. -/
  ring : Nat → TDesc
  buf : Nat → Memory
  sent : List Frame
  pc : Pc
  /-- The calls that have returned, in order. -/
  calls : List Call

namespace Queue

/-- What the device would transmit from a descriptor. -/
def slot (s : Queue) (i : Nat) : Frame := (List.range (s.ring i).len).map (s.buf i)

/-- The device transmits the descriptor at the head. -/
def transmit (n : Nat) (s : Queue) : Queue :=
  {s with sent := s.sent ++ [s.slot s.tdh], tdh := (s.tdh + 1) % n}

/-- The call returns. -/
def finish (k : Call) (s : Queue) : Queue := {s with pc := .idle, calls := s.calls ++ [k]}

/-- The call writes `TDT` and returns. -/
def publish (k : Call) (tail : Nat) (s : Queue) : Queue := {s.finish k with tdt := tail}

end Queue

/-- The next access of `ixgbe_send_frames`. -/
def driver (c : Config) (s : Queue) : Option Queue :=
  match s.pc with
  | .idle => none
  | .enter frames =>
    if s.xmitEnabled then some {s with pc := .readTail frames s.tdh}
    else some (s.finish ⟨frames, 0, 0, [], IXGBE_RET_XMTDIS⟩)
  | .readTail frames head =>
    if head = 0xFFFFFFFF ∨ s.tdt = 0xFFFFFFFF then
      some (s.finish ⟨frames, head, s.tdt, [], IXGBE_RET_XMTDIS⟩)
    else some {s with pc := .loop ⟨frames, head, s.tdt, [], 0⟩ s.tdt frames}
  | .loop k tail [] => some (s.publish k tail)
  | .loop k tail (f :: rest) =>
    let nt := nextDesc c.numTdesc tail
    if k.head = nt then
      some (s.publish {k with errstate := k.errstate ||| IXGBE_RET_XMTFULL} tail)
    else if c.bufsize ≤ f.length then
      some {s with pc := .loop {k with errstate := k.errstate ||| IXGBE_RET_XMTBIG} tail rest}
    else
      some {s with
        buf := Function.update s.buf tail ((s.buf tail).write 0 f)
        pc := .describe k tail f rest}
  | .describe k tail f rest =>
    some {s with
      ring := Function.update s.ring tail ⟨u16 f.length, true, true⟩
      pc := .loop {k with queued := k.queued ++ [f]} (nextDesc c.numTdesc tail) rest}

/-- One step of the device or of the driver, or a call that begins. -/
inductive Step (c : Config) : Queue → Queue → Prop where
  | device {s : Queue} (owns : s.tdh ≠ s.tdt) : Step c s (s.transmit c.numTdesc)
  | call {s : Queue} {frames : List Frame} (now : s.pc = .idle)
      (sizes : ∀ f ∈ frames, f.length < 2 ^ 31) : Step c s {s with pc := .enter frames}
  | driver {s s' : Queue} (now : driver c s = some s') : Step c s s'

/-- The states that any interleaving reaches. -/
inductive Reachable (c : Config) : Queue → Prop where
  | start (ring : Nat → TDesc) (buf : Nat → Memory) :
      Reachable c ⟨true, 0, 0, ring, buf, [], .idle, []⟩
  | step {s s' : Queue} (past : Reachable c s) (now : Step c s s') : Reachable c s'

/-- What a call is given: its frames, and the registers as they are when it reads them. -/
structure Given where
  frames : List Frame
  tdh : Option Nat
  tdt : Option Nat

/-- What the next access adds to it. -/
def Given.look (s : Queue) (g : Given) : Given :=
  match s.pc with
  | .enter _ => {g with tdh := some s.tdh}
  | .readTail _ _ => {g with tdt := some s.tdt}
  | _ => g

/-- The same runs, with what every call so far was given. -/
inductive Watched (c : Config) : List Given → Queue → Prop where
  | start (ring : Nat → TDesc) (buf : Nat → Memory) :
      Watched c [] ⟨true, 0, 0, ring, buf, [], .idle, []⟩
  | device {gs : List Given} {s : Queue} (past : Watched c gs s) (owns : s.tdh ≠ s.tdt) :
      Watched c gs (s.transmit c.numTdesc)
  | call {gs : List Given} {s : Queue} {frames : List Frame} (past : Watched c gs s)
      (now : s.pc = .idle) (sizes : ∀ f ∈ frames, f.length < 2 ^ 31) :
      Watched c (gs ++ [⟨frames, none, none⟩]) {s with pc := .enter frames}
  | driver {gs : List Given} {g : Given} {s s' : Queue} (past : Watched c (gs ++ [g]) s)
      (now : driver c s = some s') : Watched c (gs ++ [g.look s]) s'

/-! ### What a call is to do -/

/-- The frames a call queues when `room` slots are free: all in order, but the oversized ones, until
no slot is left. -/
def accepted (bufsize : Nat) : Nat → List Frame → List Frame
  | _, [] => []
  | 0, _ :: _ => []
  | room + 1, f :: fs =>
    if bufsize ≤ f.length then accepted bufsize (room + 1) fs
    else f :: accepted bufsize room fs

/-- The slots that are free as far as the call can tell; one always stays unused. -/
def Call.room (c : Config) (k : Call) : Nat :=
  c.numTdesc - 1 - Ring.ahead c.numTdesc k.head k.tail

/-- What the call says it was given. -/
def Call.given (k : Call) : Given := ⟨k.frames, some k.head, some k.tail⟩

/-- What the call in progress was given so far. -/
def Pc.given : Pc → List Given
  | .idle => []
  | .enter frames => [⟨frames, none, none⟩]
  | .readTail frames head => [⟨frames, some head, none⟩]
  | .loop k _ _ | .describe k _ _ _ => [k.given]

structure Call.Faithful (c : Config) (k : Call) : Prop where
  queued : k.queued = accepted c.bufsize (k.room c) k.frames
  ok : ret k.errstate = IXGBE_RET_OK ↔ k.queued = k.frames

namespace Queue

/-- Frames that the completed calls queued. -/
def log (s : Queue) : List Frame := (s.calls.map Call.queued).flatten

def given (s : Queue) : List Given := s.calls.map Call.given ++ s.pc.given

/-- The frames in the slots from `TDH` up to `TDT`. -/
def waiting (c : Config) (s : Queue) : List Frame :=
  (Ring.upto c.numTdesc s.tdh s.tdt).map s.slot

end Queue

variable {c : Config} {s s' : Queue} {k : Call} {f : Frame} {rest frames ws : List Frame}
  {tail head n : Nat}

/-! ### The slots -/

theorem slot_congr {i : Nat} (hring : s'.ring i = s.ring i) (hbuf : s'.buf i = s.buf i) :
    s'.slot i = s.slot i := by
  rw [Queue.slot, Queue.slot, hring, hbuf]

/-- A descriptor whose buffer begins with `f` and whose length is that of `f`. -/
theorem slot_eq {i : Nat} (hlen : (s.ring i).len = f.length)
    (hbuf : ∀ j < f.length, s.buf i j = f.getD j 0) : s.slot i = f := by
  rw [Queue.slot, hlen]
  apply List.ext_getElem
  · rw [List.length_map, List.length_range]
  · intro j _ hj
    rw [List.getElem_map, List.getElem_range, hbuf j hj, List.getD_eq_getElem?_getD,
      List.getElem?_eq_getElem hj]
    rfl

/-! ### What holds in every state -/

/-- A call that has read its registers, when `sent` frames were transmitted and `total` published.
It read the head after `h₀` transmissions. -/
structure Local (c : Config) (sent total h₀ : Nat) (k : Call) (tail : Nat) (rest : List Frame) :
    Prop where
  past : h₀ ≤ sent
  head : k.head = h₀ % c.numTdesc
  tail : tail = (total + k.queued.length) % c.numTdesc
  fits : total + k.queued.length < h₀ + c.numTdesc
  accepted : k.queued ++
    accepted c.bufsize (h₀ + (c.numTdesc - 1) - (total + k.queued.length)) rest =
      accepted c.bufsize (k.room c) k.frames
  count : k.queued.length + rest.length ≤ k.frames.length
  errstate : k.errstate = 0 ↔ k.queued.length + rest.length = k.frames.length
  whole : k.errstate = 0 → k.queued ++ rest = k.frames

/-- The frames that the call in progress has queued. -/
def Pc.queued : Pc → List Frame
  | .loop k _ _ | .describe k _ _ _ => k.queued
  | _ => []

/-- What holds where the driver is, after `sent` transmissions and `total` frames published. -/
def Pc.Holds (c : Config) (sent total : Nat) (buf : Nat → Memory) : Pc → Prop
  | .idle | .enter _ => True
  | .readTail _ head => ∃ h₀ ≤ sent, head = h₀ % c.numTdesc ∧ total < h₀ + c.numTdesc
  | .loop k tail rest => ∃ h₀, Local c sent total h₀ k tail rest
  | .describe k tail f rest => ∃ h₀, Local c sent total h₀ k tail (f :: rest) ∧
      total + k.queued.length + 1 < h₀ + c.numTdesc ∧ f.length < c.bufsize ∧
      ∀ j < f.length, buf tail j = f.getD j 0

/-- The frames `ws` wait for the device; behind them are those of the call in progress. -/
structure Inv (c : Config) (s : Queue) (ws : List Frame) : Prop where
  enabled : s.xmitEnabled = true
  log : s.sent ++ ws = s.log
  tdh : s.tdh = s.sent.length % c.numTdesc
  tdt : s.tdt = (s.sent.length + ws.length) % c.numTdesc
  short : ws.length < c.numTdesc
  slots : Ring.Holds c.numTdesc s.slot s.sent.length (ws ++ s.pc.queued)
  calls : ∀ k ∈ s.calls, k.Faithful c
  running : s.pc.Holds c s.sent.length (s.sent.length + ws.length) s.buf

/-! ### The loop of a call -/

theorem or_ne_zero {e b : Nat} (hb : b ≠ 0) : e ||| b ≠ 0 := by
  intro h
  exact hb (Nat.or_eq_zero_iff.mp h).2

section Loop
variable {sent total h₀ : Nat}

/-- The test for a full ring is exact for the head that was read. -/
theorem Local.full_iff (h : Local c sent total h₀ k tail rest) (hle : sent ≤ total) :
    k.head = nextDesc c.numTdesc tail ↔ total + k.queued.length + 1 = h₀ + c.numTdesc := by
  have hpast := h.past
  have hfits := h.fits
  rw [h.head, h.tail, nextDesc_mod c.two_le_numTdesc c.numTdesc_lt]
  constructor
  · intro heq
    by_contra hne
    exact Ring.mod_ne (k := h₀) (by omega) (by omega) heq.symm
  · intro heq
    rw [heq, Nat.add_mod_right]

/-- The loop has run to its end. -/
theorem Local.done (h : Local c sent total h₀ k tail []) : k.Faithful c := by
  have hqueued := h.accepted
  rw [Transmit.accepted, List.append_nil] at hqueued
  refine ⟨hqueued, ret_ok.trans ⟨fun he => ?_, fun heq => h.errstate.mpr ?_⟩⟩
  · have hwhole := h.whole he
    rwa [List.append_nil] at hwhole
  · rw [heq, List.length_nil, Nat.add_zero]

/-- No slot is left. -/
theorem Local.full (h : Local c sent total h₀ k tail (f :: rest))
    (hfull : total + k.queued.length + 1 = h₀ + c.numTdesc) :
    Call.Faithful c {k with errstate := k.errstate ||| IXGBE_RET_XMTFULL} := by
  have hn := c.two_le_numTdesc
  have hroom : h₀ + (c.numTdesc - 1) - (total + k.queued.length) = 0 := by omega
  have hqueued := h.accepted
  rw [hroom, Transmit.accepted, List.append_nil] at hqueued
  refine ⟨hqueued, ret_ok.trans ⟨fun he => absurd he (or_ne_zero (by decide)), fun heq => ?_⟩⟩
  have hcount := h.count
  have heq : k.queued = k.frames := heq
  rw [heq, List.length_cons] at hcount
  omega

/-- A frame that is too big is skipped. -/
theorem Local.big (h : Local c sent total h₀ k tail (f :: rest)) (hbig : c.bufsize ≤ f.length)
    (hroom : total + k.queued.length + 1 < h₀ + c.numTdesc) :
    Local c sent total h₀ {k with errstate := k.errstate ||| IXGBE_RET_XMTBIG} tail rest := by
  have hcount := h.count
  rw [List.length_cons] at hcount
  refine ⟨h.past, h.head, h.tail, h.fits, ?_, ?_, ?_, ?_⟩
  · have hacc := h.accepted
    obtain ⟨r, hr⟩ : ∃ r, h₀ + (c.numTdesc - 1) - (total + k.queued.length) = r + 1 :=
      ⟨h₀ + (c.numTdesc - 1) - (total + k.queued.length) - 1, by omega⟩
    rw [hr, Transmit.accepted, if_pos hbig, ← hr] at hacc
    exact hacc
  · show k.queued.length + rest.length ≤ k.frames.length
    omega
  · refine ⟨fun he => absurd he (or_ne_zero (by decide)), fun heq => ?_⟩
    have heq : k.queued.length + rest.length = k.frames.length := heq
    omega
  · exact fun he => absurd he (or_ne_zero (by decide))

/-- A frame that fits is queued. -/
theorem Local.queue (h : Local c sent total h₀ k tail (f :: rest)) (hsmall : f.length < c.bufsize)
    (hroom : total + k.queued.length + 1 < h₀ + c.numTdesc) :
    Local c sent total h₀ {k with queued := k.queued ++ [f]} (nextDesc c.numTdesc tail) rest := by
  have hlen : (k.queued ++ [f]).length = k.queued.length + 1 := by
    rw [List.length_append, List.length_singleton]
  refine ⟨h.past, h.head, ?_, ?_, ?_, ?_, ?_, ?_⟩
  · rw [h.tail, nextDesc_mod c.two_le_numTdesc c.numTdesc_lt, hlen, Nat.add_assoc]
  · show total + (k.queued ++ [f]).length < h₀ + c.numTdesc
    rw [hlen]
    omega
  · have hacc := h.accepted
    obtain ⟨r, hr⟩ : ∃ r, h₀ + (c.numTdesc - 1) - (total + k.queued.length) = r + 1 :=
      ⟨h₀ + (c.numTdesc - 1) - (total + k.queued.length) - 1, by omega⟩
    have hr' : h₀ + (c.numTdesc - 1) - (total + (k.queued ++ [f]).length) = r := by
      rw [hlen]
      omega
    rw [hr, Transmit.accepted, if_neg (by omega)] at hacc
    show (k.queued ++ [f]) ++ _ = _
    rw [hr', List.append_assoc, List.singleton_append]
    exact hacc
  · have hcount := h.count
    rw [List.length_cons] at hcount
    show (k.queued ++ [f]).length + rest.length ≤ k.frames.length
    rw [hlen]
    omega
  · have herr := h.errstate
    rw [List.length_cons] at herr
    show k.errstate = 0 ↔ (k.queued ++ [f]).length + rest.length = k.frames.length
    rw [herr, hlen]
    omega
  · intro he
    have hwhole := h.whole he
    show (k.queued ++ [f]) ++ rest = k.frames
    rwa [List.append_assoc, List.singleton_append]

end Loop

theorem Local.mono {sent sent' total h₀ : Nat} (h : Local c sent total h₀ k tail rest)
    (hle : sent ≤ sent') : Local c sent' total h₀ k tail rest :=
  {h with past := Nat.le_trans h.past hle}

/-- The device may step in anywhere. -/
theorem Pc.Holds.mono {sent sent' total : Nat} {buf : Nat → Memory} {pc : Pc}
    (h : pc.Holds c sent total buf) (hle : sent ≤ sent') : pc.Holds c sent' total buf := by
  cases pc with
  | idle => exact trivial
  | enter frames => exact trivial
  | readTail frames head =>
    obtain ⟨h₀, hpast, hhead, hfits⟩ := h
    exact ⟨h₀, Nat.le_trans hpast hle, hhead, hfits⟩
  | loop k tail rest =>
    obtain ⟨h₀, hlocal⟩ := h
    exact ⟨h₀, hlocal.mono hle⟩
  | describe k tail f rest =>
    obtain ⟨h₀, hlocal, hmore⟩ := h
    exact ⟨h₀, hlocal.mono hle, hmore⟩

namespace Inv

theorem start (ring : Nat → TDesc) (buf : Nat → Memory) :
    Inv c ⟨true, 0, 0, ring, buf, [], .idle, []⟩ [] := by
  have hn := c.two_le_numTdesc
  refine ⟨rfl, rfl, ?_, ?_, ?_, Ring.Holds.nil, nofun, trivial⟩
  · exact (Nat.zero_mod _).symm
  · exact (Nat.zero_mod _).symm
  · show 0 < c.numTdesc
    omega

/-- The device transmits the first frame that waits. -/
theorem device (h : Inv c s ws) (howns : s.tdh ≠ s.tdt) :
    ∃ ws', Inv c (s.transmit c.numTdesc) ws' := by
  cases ws with
  | nil => exact absurd (h.tdh.trans h.tdt.symm) howns
  | cons w ws =>
    have hslots := h.slots
    rw [List.cons_append] at hslots
    have hsent : (s.transmit c.numTdesc).sent = s.sent ++ [w] := by
      show s.sent ++ [s.slot s.tdh] = _
      rw [h.tdh, hslots.head]
    have hlen : (s.transmit c.numTdesc).sent.length = s.sent.length + 1 := by
      rw [hsent, List.length_append, List.length_singleton]
    have htotal : s.sent.length + (w :: ws).length = s.sent.length + 1 + ws.length := by
      rw [List.length_cons]
      omega
    have hshort := h.short
    rw [List.length_cons] at hshort
    refine ⟨ws, h.enabled, ?_, ?_, ?_, by omega, ?_, h.calls, ?_⟩
    · rw [hsent, List.append_assoc, List.singleton_append]
      exact h.log
    · rw [hlen, ← Nat.mod_add_mod, ← h.tdh]
      rfl
    · rw [hlen, ← htotal]
      exact h.tdt
    · rw [hlen]
      exact hslots.tail
    · rw [hlen, ← htotal]
      exact h.running.mono (Nat.le_succ _)

/-- The driver moves on, and the ring stays as it is. -/
theorem goto (h : Inv c s ws) {pc : Pc} (hqueued : pc.queued = s.pc.queued)
    (hpc : pc.Holds c s.sent.length (s.sent.length + ws.length) s.buf) :
    Inv c {s with pc := pc} ws := by
  refine ⟨h.enabled, h.log, h.tdh, h.tdt, h.short, ?_, h.calls, hpc⟩
  show Ring.Holds c.numTdesc s.slot s.sent.length (ws ++ pc.queued)
  rw [hqueued]
  exact h.slots

theorem call (h : Inv c s ws) (hidle : s.pc = .idle) : Inv c {s with pc := .enter frames} ws := by
  apply h.goto
  · rw [hidle]
    rfl
  · exact trivial

/-- The head is read. -/
theorem enter (h : Inv c s ws) (hpc : s.pc = .enter frames) :
    Inv c {s with pc := .readTail frames s.tdh} ws := by
  have hshort := h.short
  apply h.goto
  · rw [hpc]
    rfl
  · exact ⟨s.sent.length, Nat.le_refl _, h.tdh, Nat.add_lt_add_left hshort _⟩

/-- Both registers are positions of the ring, and nothing is queued yet. -/
theorem readTail {head : Nat} (h : Inv c s ws) (hpc : s.pc = .readTail frames head) :
    ¬ (head = 0xFFFFFFFF ∨ s.tdt = 0xFFFFFFFF) ∧
      Inv c {s with pc := .loop ⟨frames, head, s.tdt, [], 0⟩ s.tdt frames} ws := by
  have hrunning := h.running
  rw [hpc] at hrunning
  obtain ⟨h₀, hpast, hhead, hfits⟩ := hrunning
  have htdt := h.tdt
  constructor
  · have hn := c.numTdesc_lt
    have hpos : 0 < c.numTdesc := by
      have := c.two_le_numTdesc
      omega
    have h1 := Nat.mod_lt h₀ hpos
    have h2 := Nat.mod_lt (s.sent.length + ws.length) hpos
    omega
  · apply h.goto
    · rw [hpc]
      rfl
    · refine ⟨h₀, hpast, hhead, htdt, hfits, ?_, ?_, ?_, fun _ => rfl⟩
      · show accepted _ (h₀ + (c.numTdesc - 1) - (s.sent.length + ws.length)) frames = _
        congr 1
        rw [Call.room, hhead, htdt, Ring.ahead_mod (by omega) hfits]
        omega
      · exact Nat.le_of_eq (Nat.zero_add _)
      · exact iff_of_true rfl (Nat.zero_add _)

/-- Publishing the tail hands the queued frames to the device. -/
theorem publish {k' : Call} {h₀ : Nat} (h : Inv c s ws) (hqueued : s.pc.queued = k.queued)
    (hlocal : Local c s.sent.length (s.sent.length + ws.length) h₀ k tail rest)
    (hk : k'.queued = k.queued) (hfaithful : k'.Faithful c) :
    Inv c (s.publish k' tail) (ws ++ k.queued) := by
  have hpast := hlocal.past
  have hfits := hlocal.fits
  have hslots := h.slots
  rw [hqueued] at hslots
  refine ⟨h.enabled, ?_, h.tdh, ?_, ?_, ?_, fun k₁ hk₁ => ?_, trivial⟩
  · show s.sent ++ (ws ++ k.queued) = ((s.calls ++ [k']).map Call.queued).flatten
    rw [List.map_append, List.flatten_append, List.map_singleton, List.flatten_singleton, hk,
      ← List.append_assoc, h.log]
    rfl
  · show tail = (s.sent.length + (ws ++ k.queued).length) % c.numTdesc
    rw [hlocal.tail, List.length_append, Nat.add_assoc]
  · rw [List.length_append]
    omega
  · show Ring.Holds c.numTdesc s.slot s.sent.length (ws ++ k.queued ++ [])
    rwa [List.append_nil]
  · rcases List.mem_append.mp hk₁ with hk₁ | hk₁
    · exact h.calls k₁ hk₁
    · obtain rfl := List.mem_singleton.mp hk₁
      exact hfaithful

/-- The driver fills the buffer of the next free slot. -/
theorem copy {h₀ : Nat} (h : Inv c s ws) (hpc : s.pc = .loop k tail (f :: rest))
    (hlocal : Local c s.sent.length (s.sent.length + ws.length) h₀ k tail (f :: rest))
    (hsmall : f.length < c.bufsize)
    (hroom : s.sent.length + ws.length + k.queued.length + 1 < h₀ + c.numTdesc) :
    Inv c {s with
      buf := Function.update s.buf tail ((s.buf tail).write 0 f)
      pc := .describe k tail f rest} ws := by
  have hpast := hlocal.past
  have hslots := h.slots
  rw [hpc] at hslots
  refine ⟨h.enabled, h.log, h.tdh, h.tdt, h.short, ?_, h.calls, h₀, hlocal, hroom, hsmall,
    fun j hj => ?_⟩
  · apply hslots.free
    · show (ws ++ k.queued).length < c.numTdesc
      rw [List.length_append]
      omega
    · intro i hi
      apply slot_congr
      · rfl
      · apply Function.update_of_ne
        intro heq
        apply hi
        show i = (s.sent.length + (ws ++ k.queued).length) % c.numTdesc
        rw [heq, hlocal.tail, List.length_append, Nat.add_assoc]
  · show Function.update s.buf tail ((s.buf tail).write 0 f) tail j = f.getD j 0
    rw [Function.update_self]
    have hwrite := Memory.write_inside (m := s.buf tail) (a := 0) hj
    rwa [Nat.zero_add] at hwrite

/-- The driver fills the descriptor: the frame is in the slot. -/
theorem describe {h₀ : Nat} (h : Inv c s ws) (hpc : s.pc = .describe k tail f rest)
    (hlocal : Local c s.sent.length (s.sent.length + ws.length) h₀ k tail (f :: rest))
    (hroom : s.sent.length + ws.length + k.queued.length + 1 < h₀ + c.numTdesc)
    (hsmall : f.length < c.bufsize) (hbuf : ∀ j < f.length, s.buf tail j = f.getD j 0) :
    Inv c {s with
      ring := Function.update s.ring tail ⟨u16 f.length, true, true⟩
      pc := .loop {k with queued := k.queued ++ [f]} (nextDesc c.numTdesc tail) rest} ws := by
  have hpast := hlocal.past
  have hslots := h.slots
  rw [hpc] at hslots
  have htail : (s.sent.length + (ws ++ k.queued).length) % c.numTdesc = tail := by
    rw [hlocal.tail, List.length_append, Nat.add_assoc]
  refine ⟨h.enabled, h.log, h.tdh, h.tdt, h.short, ?_, h.calls, h₀, hlocal.queue hsmall hroom⟩
  show Ring.Holds _ _ _ (ws ++ (k.queued ++ [f]))
  rw [← List.append_assoc]
  apply Ring.Holds.snoc
  · apply hslots.free
    · show (ws ++ k.queued).length < c.numTdesc
      rw [List.length_append]
      omega
    · intro i hi
      apply slot_congr
      · apply Function.update_of_ne
        intro heq
        exact hi (heq.trans htail.symm)
      · rfl
  · rw [htail]
    have hle := c.bufsize_le
    have hlen : u16 f.length = f.length := Nat.mod_eq_of_lt (by omega)
    apply slot_eq
    · show (Function.update s.ring tail _ tail).len = f.length
      rw [Function.update_self]
      exact hlen
    · exact hbuf

/-- Each access of the driver. -/
theorem driver (h : Inv c s ws) (hnow : Transmit.driver c s = some s') : ∃ ws', Inv c s' ws' := by
  have hrunning := h.running
  unfold Transmit.driver at hnow
  split at hnow
  · cases hnow
  · next frames hpc =>
    rw [if_pos h.enabled] at hnow
    obtain rfl := Option.some.inj hnow
    exact ⟨ws, h.enter hpc⟩
  · next frames head hpc =>
    rw [if_neg (h.readTail hpc).1] at hnow
    obtain rfl := Option.some.inj hnow
    exact ⟨ws, (h.readTail hpc).2⟩
  · next k tail hpc =>
    rw [hpc] at hrunning
    obtain ⟨h₀, hlocal⟩ := hrunning
    obtain rfl := Option.some.inj hnow
    exact ⟨_, h.publish (by rw [hpc]; rfl) hlocal rfl hlocal.done⟩
  · next k tail f rest hpc =>
    rw [hpc] at hrunning
    obtain ⟨h₀, hlocal⟩ := hrunning
    have hiff := hlocal.full_iff (Nat.le_add_right ..)
    have hfits := hlocal.fits
    dsimp only at hnow
    split at hnow
    · next hfull =>
      obtain rfl := Option.some.inj hnow
      exact ⟨_, h.publish (by rw [hpc]; rfl) hlocal rfl (hlocal.full (hiff.mp hfull))⟩
    · next hfull =>
      have hroom : s.sent.length + ws.length + k.queued.length + 1 < h₀ + c.numTdesc := by
        have := mt hiff.mpr hfull
        omega
      split at hnow
      · next hbig =>
        obtain rfl := Option.some.inj hnow
        exact ⟨ws, h.goto (by rw [hpc]; rfl) ⟨h₀, hlocal.big hbig hroom⟩⟩
      · next hsmall =>
        obtain rfl := Option.some.inj hnow
        exact ⟨ws, h.copy hpc hlocal (by omega) hroom⟩
  · next k tail f rest hpc =>
    rw [hpc] at hrunning
    obtain ⟨h₀, hlocal, hroom, hsmall, hbuf⟩ := hrunning
    obtain rfl := Option.some.inj hnow
    exact ⟨ws, h.describe hpc hlocal hroom hsmall hbuf⟩

end Inv

theorem Reachable.inv (h : Reachable c s) : ∃ ws, Inv c s ws := by
  induction h with
  | start ring buf => exact ⟨[], Inv.start ring buf⟩
  | step past now ih =>
    obtain ⟨ws, hinv⟩ := ih
    cases now with
    | device owns => exact hinv.device owns
    | call now sizes => exact ⟨ws, hinv.call now⟩
    | driver now => exact hinv.driver now

/-- What has been transmitted, and what waits. -/
theorem Reachable.in_order (h : Reachable c s) :
    s.sent ++ s.waiting c = s.log ∧ ∀ k ∈ s.calls, k.Faithful c := by
  obtain ⟨ws, hinv⟩ := h.inv
  have hwaiting : s.waiting c = ws := by
    rw [Queue.waiting, hinv.tdh, hinv.tdt]
    exact hinv.slots.left.upto rfl hinv.short
  rw [hwaiting]
  exact ⟨hinv.log, hinv.calls⟩

/-! ### What the calls were given -/

variable {gs : List Given} {g : Given}

/-- An access takes down what it reads, and nothing else changes. -/
theorem driver_given (h : Inv c s ws) (hnow : driver c s = some s') (hgiven : gs ++ [g] = s.given) :
    gs ++ [g.look s] = s'.given := by
  rw [Queue.given] at hgiven
  unfold driver at hnow
  split at hnow
  · cases hnow
  · next frames hpc =>
    obtain ⟨rfl, rfl⟩ := last_of_append hgiven (by rw [hpc]; rfl)
    rw [if_pos h.enabled] at hnow
    obtain rfl := Option.some.inj hnow
    simp [Queue.given, Pc.given, Given.look, hpc]
  · next frames head hpc =>
    obtain ⟨rfl, rfl⟩ := last_of_append hgiven (by rw [hpc]; rfl)
    rw [if_neg (h.readTail hpc).1] at hnow
    obtain rfl := Option.some.inj hnow
    simp [Queue.given, Pc.given, Call.given, Given.look, hpc]
  · next k tail hpc =>
    obtain ⟨rfl, rfl⟩ := last_of_append hgiven (by rw [hpc]; rfl)
    obtain rfl := Option.some.inj hnow
    simp [Queue.given, Queue.publish, Queue.finish, Pc.given, Given.look, hpc]
  · next k tail f rest hpc =>
    obtain ⟨rfl, rfl⟩ := last_of_append hgiven (by rw [hpc]; rfl)
    dsimp only at hnow
    split at hnow
    · obtain rfl := Option.some.inj hnow
      simp [Queue.given, Queue.publish, Queue.finish, Pc.given, Call.given, Given.look, hpc]
    · split at hnow
      · obtain rfl := Option.some.inj hnow
        simp [Queue.given, Pc.given, Call.given, Given.look, hpc]
      · obtain rfl := Option.some.inj hnow
        simp [Queue.given, Pc.given, Given.look, hpc]
  · next k tail f rest hpc =>
    obtain ⟨rfl, rfl⟩ := last_of_append hgiven (by rw [hpc]; rfl)
    obtain rfl := Option.some.inj hnow
    simp [Queue.given, Pc.given, Call.given, Given.look, hpc]

theorem look_frames : (g.look s).frames = g.frames := by
  unfold Given.look
  split <;> rfl

theorem Watched.reachable (h : Watched c gs s) : Reachable c s := by
  induction h with
  | start ring buf => exact .start ring buf
  | device past owns ih => exact ih.step (.device owns)
  | call past now sizes ih => exact ih.step (.call now sizes)
  | driver past now ih => exact ih.step (.driver now)

/-- Every call has the frames it was called with and the registers as it read them. -/
theorem Watched.given (h : Watched c gs s) : gs = s.given := by
  induction h with
  | start ring buf => rfl
  | device past owns ih => exact ih
  | call past now sizes ih =>
    rw [ih]
    simp [Queue.given, Pc.given, now]
  | driver past now ih =>
    obtain ⟨ws, hinv⟩ := past.reachable.inv
    exact driver_given hinv now ih

/-- An access is part of the last call. -/
theorem Watched.access (h : Watched c gs s) (hnow : Transmit.driver c s = some s') :
    ∃ gs₀ g, gs = gs₀ ++ [g] ∧ Watched c (gs₀ ++ [g.look s]) s' := by
  have hbusy : gs ≠ [] := by
    intro hnone
    have hpc := (List.append_eq_nil_iff.mp (h.given.symm.trans hnone)).2
    rw [Transmit.driver.eq_def] at hnow
    cases heq : s.pc with
    | idle => simp [heq] at hnow
    | _ => simp [heq, Pc.given] at hpc
  have hlast := (List.dropLast_concat_getLast hbusy).symm
  rw [hlast] at h
  exact ⟨_, _, hlast, h.driver hnow⟩

/-- Every run can be watched. -/
theorem Reachable.watched (h : Reachable c s) : ∃ gs, Watched c gs s := by
  induction h with
  | start ring buf => exact ⟨[], .start ring buf⟩
  | step past now ih =>
    obtain ⟨gs, hs⟩ := ih
    cases now with
    | device owns => exact ⟨gs, hs.device owns⟩
    | call now sizes => exact ⟨_, hs.call now sizes⟩
    | driver now =>
      obtain ⟨_, _, _, hs'⟩ := hs.access now
      exact ⟨_, hs'⟩

end Kvi.Ixgbe.Transmit
