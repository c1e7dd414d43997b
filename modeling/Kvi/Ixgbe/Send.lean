import Kvi.Ixgbe.Transmit

/-! One call of `ixgbe_send_frames`, whatever the registers and the sizes are.

The sizes are unsigned where they are given and `int` where they are compared
with the size of a buffer, so that a size of `2 ^ 31` or more is negative and
passes. The registers are only checked for all ones, so that the first
descriptor may be behind the ring; the next ones are wrapped. On frames with an
`int` size the loop is the run of `driver` that the device does not step into
(`driver_sendLoop`). -/
namespace Kvi.Ixgbe.Transmit

/-- What is done with one frame: `copied` bytes to `tdesc_buf[buf]`, and `len` into
`tdesc_ring[ring]`. -/
structure Fill where
  buf : Nat
  copied : Int
  ring : Nat
  len : Nat
  deriving DecidableEq, Repr

/-- A call: its accesses, the value written to `TDT` if there is one, and `errstate`. -/
structure Sent where
  fills : List Fill
  tdt : Option Nat
  errstate : Nat
  deriving DecidableEq, Repr

def Sent.cons (f : Fill) (r : Sent) : Sent := {r with fills := f :: r.fills}

/-- The loop, before the frames of these sizes. -/
def sendLoop (c : Config) (head : Nat) : List Int → Nat → Nat → Sent
  | [], tail, errstate => ⟨[], some tail, errstate⟩
  | size :: rest, tail, errstate =>
    let nt := nextDesc c.numTdesc tail
    if head = nt then ⟨[], some tail, errstate ||| IXGBE_RET_XMTFULL⟩
    else if c.bufsize ≤ size then sendLoop c head rest tail (errstate ||| IXGBE_RET_XMTBIG)
    else (sendLoop c head rest nt errstate).cons ⟨tail, size, tail, u16 (ofInt32 size)⟩

/-- `ixgbe_send_frames`, given what the registers `TDH` and `TDT` answer. -/
def ixgbeSendFrames (c : Config) (xmitEnabled : Bool) (tdh tdt : UInt32) (numFrames : Int)
    (frameSizes : Nat → Int) : Sent :=
  if xmitEnabled then
    let head := tdh.toNat
    let tail := tdt.toNat
    if head = 0xFFFFFFFF ∨ tail = 0xFFFFFFFF then ⟨[], none, IXGBE_RET_XMTDIS⟩
    else sendLoop c head ((List.range numFrames.toNat).map frameSizes) tail 0
  else ⟨[], none, IXGBE_RET_XMTDIS⟩

/-- `ixgbe_send_physnic` -/
def ixgbeSendPhysnic (c : Config) (xmitEnabled : Bool) (tdh tdt numPackets : UInt32)
    (packetSizes : Nat → UInt32) : Sent :=
  ixgbeSendFrames c xmitEnabled tdh tdt (s32 numPackets.toNat) fun i => s32 (packetSizes i).toNat

/-! ### What is safe -/

/-- The access is to the ring and to the buffers, and no more is copied than fits. -/
structure Fill.Safe (c : Config) (f : Fill) : Prop where
  buf : f.buf < c.numTdesc
  ring : f.ring < c.numTdesc
  nonneg : 0 ≤ f.copied
  fits : f.copied ≤ c.bufsize - 1
  len : f.len = f.copied

/-- The sizes that pass the comparison with the size of a buffer. -/
def passing (c : Config) (sizes : List Int) : List Int := sizes.filter (· < c.bufsize)

/-- As many of them as there are free descriptors. When `TDH` is no position of the ring it is never
met. -/
def fitting (c : Config) (head tail : Nat) (sizes : List Int) : List Int :=
  if head < c.numTdesc then
    (passing c sizes).take (Ring.ahead c.numTdesc (nextDesc c.numTdesc tail) head)
  else passing c sizes

/-- The sizes of the packets that a call queues. -/
def queued (c : Config) (xmitEnabled : Bool) (tdh tdt numPackets : UInt32)
    (packetSizes : Nat → UInt32) : List Int :=
  if xmitEnabled ∧ tdh ≠ 0xFFFFFFFF ∧ tdt ≠ 0xFFFFFFFF then
    fitting c tdh.toNat tdt.toNat
      ((List.range (s32 numPackets.toNat).toNat).map fun i => s32 (packetSizes i).toNat)
  else []

variable {c : Config} {head tail errstate : Nat} {sizes : List Int} {f : Fill} {g : Frame}

/-! ### The loop -/

theorem fitting_cons_big {size : Int} (h : c.bufsize ≤ size) :
    fitting c head tail (size :: sizes) = fitting c head tail sizes := by
  have hfilter : passing c (size :: sizes) = passing c sizes :=
    List.filter_cons_of_neg (by simpa using h)
  rw [fitting, hfilter, fitting]

theorem fitting_cons {size : Int} (h : size < c.bufsize) (hroom : head ≠ nextDesc c.numTdesc tail) :
    fitting c head tail (size :: sizes) =
      size :: fitting c head (nextDesc c.numTdesc tail) sizes := by
  have hn := c.two_le_numTdesc
  have hnt := nextDesc_lt hn tail
  have hfilter : passing c (size :: sizes) = size :: passing c sizes :=
    List.filter_cons_of_pos (by simpa using h)
  rw [fitting, fitting, hfilter]
  by_cases hhead : head < c.numTdesc
  · rw [if_pos hhead, if_pos hhead, Ring.ahead_next hnt hhead (Ne.symm hroom), List.take_succ_cons,
      nextDesc_of_lt c.numTdesc_lt hnt]
  · rw [if_neg hhead, if_neg hhead]

theorem lt_of_mem_fitting {size : Int} (h : size ∈ fitting c head tail sizes) :
    size < c.bufsize := by
  have hmem : size ∈ passing c sizes := by
    rw [fitting] at h
    split at h
    · exact List.mem_of_mem_take h
    · exact h
  exact of_decide_eq_true (List.mem_filter.mp hmem).2

/-- The loop queues what passes and fits. -/
theorem sendLoop_copied : (sendLoop c head sizes tail errstate).fills.map Fill.copied =
    fitting c head tail sizes := by
  induction sizes generalizing tail errstate with
  | nil =>
    rw [sendLoop, fitting]
    split <;> simp [passing]
  | cons size rest ih =>
    rw [sendLoop]
    by_cases hfull : head = nextDesc c.numTdesc tail
    · have hhead : head < c.numTdesc := hfull ▸ nextDesc_lt c.two_le_numTdesc tail
      rw [if_pos hfull, fitting, if_pos hhead, ← hfull, Ring.ahead_self]
      rfl
    rw [if_neg hfull]
    by_cases hbig : c.bufsize ≤ size
    · rw [if_pos hbig, ih, fitting_cons_big hbig]
    · rw [if_neg hbig, fitting_cons (not_le.mp hbig) hfull, ← @ih (nextDesc c.numTdesc tail) errstate]
      rfl

/-- Only the first descriptor may be behind the ring. -/
structure Fill.Placed (c : Config) (tail : Nat) (f : Fill) : Prop where
  same : f.ring = f.buf
  slot : f.buf = tail ∨ f.buf < c.numTdesc
  len : f.len = u16 (ofInt32 f.copied)

theorem sendLoop_placed : ∀ f ∈ (sendLoop c head sizes tail errstate).fills, f.Placed c tail := by
  induction sizes generalizing tail errstate with
  | nil => nofun
  | cons size rest ih =>
    rw [sendLoop]
    split
    · nofun
    split
    · exact ih
    · intro f hf
      rcases List.mem_cons.mp hf with rfl | hf
      · exact ⟨rfl, .inl rfl, rfl⟩
      · have hplaced := ih f hf
        refine ⟨hplaced.same, .inr ?_, hplaced.len⟩
        rcases hplaced.slot with heq | hlt
        · rw [heq]
          exact nextDesc_lt c.two_le_numTdesc tail
        · exact hlt

theorem sendLoop_head (h : (sendLoop c head sizes tail errstate).fills.head? = some f) :
    f.buf = tail := by
  induction sizes generalizing errstate with
  | nil => cases h
  | cons size rest ih =>
    rw [sendLoop] at h
    split at h
    · cases h
    split at h
    · exact ih h
    · obtain rfl := Option.some.inj h
      rfl

/-- All is safe if no queued size is negative and the first descriptor is in the ring. -/
theorem sendLoop_safe_iff : (∀ f ∈ (sendLoop c head sizes tail errstate).fills, f.Safe c) ↔
    (∀ size ∈ fitting c head tail sizes, 0 ≤ size) ∧
      (fitting c head tail sizes ≠ [] → tail < c.numTdesc) := by
  have hcopied := @sendLoop_copied c head tail errstate sizes
  constructor
  · intro hsafe
    constructor
    · intro size hsize
      rw [← hcopied] at hsize
      obtain ⟨f, hf, rfl⟩ := List.mem_map.mp hsize
      exact (hsafe f hf).nonneg
    · intro hne
      rw [← hcopied, ne_eq, List.map_eq_nil_iff] at hne
      obtain ⟨f, hf⟩ := Option.ne_none_iff_exists'.mp (mt List.head?_eq_none_iff.mp hne)
      rw [← sendLoop_head hf]
      exact (hsafe f (List.mem_of_mem_head? hf)).buf
  · intro ⟨hnonneg, htail⟩ f hf
    have hsize : f.copied ∈ fitting c head tail sizes := hcopied ▸ List.mem_map_of_mem hf
    have hplaced := sendLoop_placed f hf
    have htail := htail (List.ne_nil_of_mem hsize)
    have hbuf : f.buf < c.numTdesc := by
      rcases hplaced.slot with heq | hlt
      · rwa [heq]
      · exact hlt
    have hnonneg := hnonneg _ hsize
    have hlt := lt_of_mem_fitting hsize
    refine ⟨hbuf, hplaced.same ▸ hbuf, hnonneg, by omega, ?_⟩
    have hle := c.bufsize_le
    rw [hplaced.len, u16, ofInt32]
    omega

/-! ### The loop as a run of the driver -/

/-- `frame_sizes` -/
def frameSizes (frames : List Frame) : List Int := frames.map fun f => (f.length : Int)

/-- A call that had queued `before` and was at its loop has returned, as `r` says. -/
structure Returned (calls : List Call) (before : List Frame) (r : Sent) (s : Queue) (k : Call) :
    Prop where
  idle : s.pc = .idle
  calls : s.calls = calls ++ [k]
  tdt : r.tdt = some s.tdt
  errstate : r.errstate = k.errstate
  queued : frameSizes k.queued = frameSizes before ++ r.fills.map Fill.copied

/-- A frame is queued in two steps. -/
theorem driver_queue {s : Queue} {k : Call} {rest : List Frame} (hpc : s.pc = .loop k tail (g :: rest))
    (hroom : k.head ≠ nextDesc c.numTdesc tail) (hsmall : ¬ c.bufsize ≤ g.length) :
    ∃ s', Alone (driver c) s s' ∧ s'.calls = s.calls ∧
      s'.pc = .loop {k with queued := k.queued ++ [g]} (nextDesc c.numTdesc tail) rest := by
  have hcopy : driver c s = some {s with
      buf := Function.update s.buf tail ((s.buf tail).write 0 g)
      pc := .describe k tail g rest} := by
    rw [driver, hpc]
    dsimp only
    rw [if_neg hroom, if_neg hsmall]
  exact ⟨_, .tail (.single hcopy) rfl, rfl, rfl⟩

/-- What the loop computes is what the steps of the driver come to. -/
theorem driver_sendLoop {s : Queue} {k : Call} {rest : List Frame} (hpc : s.pc = .loop k tail rest) :
    ∃ s' k', Alone (driver c) s s' ∧ Returned s.calls k.queued
      (sendLoop c k.head (frameSizes rest) tail k.errstate) s' k' := by
  induction rest generalizing s k tail with
  | nil =>
    have hnow : driver c s = some (s.publish k tail) := by rw [driver, hpc]
    exact ⟨_, k, .single hnow, rfl, rfl, rfl, rfl, (List.append_nil _).symm⟩
  | cons f rest ih =>
    rw [frameSizes, List.map_cons, sendLoop]
    by_cases hfull : k.head = nextDesc c.numTdesc tail
    · have hnow : driver c s =
          some (s.publish {k with errstate := k.errstate ||| IXGBE_RET_XMTFULL} tail) := by
        rw [driver, hpc]
        exact if_pos hfull
      rw [if_pos hfull]
      exact ⟨_, _, .single hnow, rfl, rfl, rfl, rfl, (List.append_nil _).symm⟩
    rw [if_neg hfull]
    by_cases hbig : c.bufsize ≤ f.length
    · let k₁ : Call := {k with errstate := k.errstate ||| IXGBE_RET_XMTBIG}
      have hnow : driver c s = some {s with pc := .loop k₁ tail rest} := by
        rw [driver, hpc]
        dsimp only
        rw [if_neg hfull, if_pos hbig]
      obtain ⟨s', k', hrun, hret⟩ := @ih tail {s with pc := .loop k₁ tail rest} k₁ rfl
      rw [if_pos (by omega)]
      exact ⟨s', k', .head hnow hrun, hret⟩
    · obtain ⟨s₁, hfirst, hcalls, hpc₁⟩ := driver_queue hpc hfull hbig
      obtain ⟨s', k', hrun, hret⟩ := ih hpc₁
      rw [hcalls] at hret
      rw [if_neg (by omega)]
      refine ⟨s', k', hfirst.trans hrun, hret.idle, hret.calls, hret.tdt, hret.errstate, ?_⟩
      have hqueued := hret.queued
      rw [frameSizes, frameSizes, List.map_append, List.append_assoc] at hqueued
      exact hqueued

/-- A call that comes to its end after the next step comes to its end. -/
theorem ends_of_next {s s₁ : Queue} (hnow : driver c s = some s₁)
    (h : ∃ s', Alone (driver c) s₁ s' ∧ s'.pc = .idle) : ∃ s', Alone (driver c) s s' ∧ s'.pc = .idle := by
  obtain ⟨s', hrun, hidle⟩ := h
  exact ⟨s', .head hnow hrun, hidle⟩

theorem loop_ends {s : Queue} {k : Call} {rest : List Frame} (hpc : s.pc = .loop k tail rest) :
    ∃ s', Alone (driver c) s s' ∧ s'.pc = .idle := by
  obtain ⟨s', k', hrun, hret⟩ := driver_sendLoop hpc
  exact ⟨s', hrun, hret.idle⟩

theorem Reachable.readTail_ends {s : Queue} {frames : List Frame} {head : Nat} (h : Reachable c s)
    (hpc : s.pc = .readTail frames head) : ∃ s', Alone (driver c) s s' ∧ s'.pc = .idle := by
  obtain ⟨ws, hinv⟩ := h.inv
  have hnow : driver c s = some {s with pc := .loop ⟨frames, head, s.tdt, [], 0⟩ s.tdt frames} := by
    rw [driver, hpc]
    exact if_neg (hinv.readTail hpc).1
  exact ends_of_next hnow (loop_ends rfl)

/-- From wherever it is, the call comes to its end. -/
theorem Reachable.returns {s : Queue} (h : Reachable c s) :
    ∃ s', Alone (driver c) s s' ∧ s'.pc = .idle := by
  cases hpc : s.pc with
  | idle => exact ⟨s, .refl, hpc⟩
  | enter frames =>
    obtain ⟨ws, hinv⟩ := h.inv
    have hnow : driver c s = some {s with pc := .readTail frames s.tdh} := by
      rw [driver, hpc]
      exact if_pos hinv.enabled
    exact ends_of_next hnow ((h.step (.driver hnow)).readTail_ends rfl)
  | readTail frames head => exact h.readTail_ends hpc
  | loop k tail rest => exact loop_ends hpc
  | describe k tail f rest =>
    have hnow := driver.eq_def c s
    rw [hpc] at hnow
    exact ends_of_next hnow (loop_ends rfl)

/-- What the device has transmitted and what waits for it in the ring are the frames that the
completed calls queued, in order and with their bytes. The calls are those that were made, with their
frames and with the registers as they read them; each queued what it was to queue and said so; and
one in progress comes to its end. -/
theorem transmitted_in_order {gs : List Given} {s : Queue} (h : Watched c gs s) :
    s.sent ++ s.waiting c = s.log ∧
      gs = s.calls.map Call.given ++ s.pc.given ∧
      (∀ k ∈ s.calls, k.Faithful c) ∧
      ∃ s', Alone (driver c) s s' ∧ s'.pc = .idle := by
  obtain ⟨hsent, hcalls⟩ := h.reachable.in_order
  exact ⟨hsent, h.given, hcalls, h.reachable.returns⟩

/-- A run in which a call queues two frames, one is transmitted, and a second call begins. -/
theorem transmitted_one : ∃ (gs : List Given) (s : Queue), Watched defaultConfig gs s ∧
    gs = [⟨[[1, 2, 3], [4]], some 0, some 0⟩, ⟨[], none, none⟩] ∧ s.sent = [[1, 2, 3]] ∧
      s.waiting defaultConfig = [[4]] ∧
    s.sent ++ s.waiting defaultConfig = s.log ∧
      gs = s.calls.map Call.given ++ s.pc.given ∧
      (∀ k ∈ s.calls, k.Faithful defaultConfig) ∧
      ∃ s', Alone (driver defaultConfig) s s' ∧ s'.pc = .idle := by
  have h₁ : Watched defaultConfig _ _ := .start (fun _ => ⟨0, false, false⟩) fun _ _ => 0
  have h₂ := @Watched.call _ _ _ [[1, 2, 3], [4]] h₁ rfl (by decide)
  have h₃ := h₂.driver rfl
  have h₄ := h₃.driver rfl
  have h₅ := h₄.driver rfl
  have h₆ := h₅.driver rfl
  have h₇ := h₆.driver rfl
  have h₈ := h₇.driver rfl
  have h₉ := h₈.driver rfl
  have h₁₀ := h₉.device (by decide)
  have h₁₁ := @Watched.call _ _ _ [] h₁₀ rfl (by decide)
  exact ⟨_, _, h₁₁, rfl, rfl, rfl, transmitted_in_order h₁₁⟩

/-- A call keeps to the ring, to the buffers and to their size if and only if no packet that it queues
has a size of `2 ^ 31` or more, and `TDT` is a position of the ring unless it queues none. -/
theorem sends_safely_iff (c : Config) (xmitEnabled : Bool) (tdh tdt numPackets : UInt32)
    (packetSizes : Nat → UInt32) :
    (∀ f ∈ (ixgbeSendPhysnic c xmitEnabled tdh tdt numPackets packetSizes).fills, f.Safe c) ↔
      (∀ size ∈ queued c xmitEnabled tdh tdt numPackets packetSizes, 0 ≤ size) ∧
        (queued c xmitEnabled tdh tdt numPackets packetSizes ≠ [] → tdt.toNat < c.numTdesc) := by
  have hones : ∀ r : UInt32, r.toNat = 0xFFFFFFFF ↔ r = 0xFFFFFFFF := fun r =>
    (UInt32.toNat_inj (b := 0xFFFFFFFF))
  rw [ixgbeSendPhysnic, ixgbeSendFrames, queued]
  cases xmitEnabled with
  | false => simp
  | true =>
    simp only [hones, true_and, if_true]
    by_cases hread : tdh = 0xFFFFFFFF ∨ tdt = 0xFFFFFFFF
    · rw [if_pos hread, if_neg fun h => hread.elim h.1 h.2]
      simp
    · rw [if_neg hread, if_pos (not_or.mp hread)]
      exact sendLoop_safe_iff

/-- A packet of `2 ^ 32 - 1` bytes, which is copied and not refused; and a `TDT` of 4096. -/
theorem unsafe_sends :
    (ixgbeSendPhysnic defaultConfig true 0 0 1 fun _ => 0xFFFFFFFF).fills = [⟨0, -1, 0, 0xFFFF⟩] ∧
      (ixgbeSendPhysnic defaultConfig true 1 4096 1 fun _ => 60).fills = [⟨4096, 60, 4096, 60⟩] ∧
      ¬ ∀ (tdh tdt numPackets : UInt32) (packetSizes : Nat → UInt32),
        ∀ f ∈ (ixgbeSendPhysnic defaultConfig true tdh tdt numPackets packetSizes).fills,
          f.Safe defaultConfig := by
  have hbig : (ixgbeSendPhysnic defaultConfig true 0 0 1 fun _ => 0xFFFFFFFF).fills =
      [⟨0, -1, 0, 0xFFFF⟩] := by decide
  refine ⟨hbig, by decide, fun h => ?_⟩
  have hsafe := h 0 0 1 (fun _ => 0xFFFFFFFF) ⟨0, -1, 0, 0xFFFF⟩ (hbig ▸ List.mem_singleton.mpr rfl)
  exact absurd hsafe.nonneg (by decide)

end Kvi.Ixgbe.Transmit
