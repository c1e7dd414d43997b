import Kvi.Ixgbe.Config

/-! The receive ring.

`driver` is `ixgbe_recv_frames`, one access to the ring or to a register at a
time, with the device stepping in between. The device fills the descriptor at
`RDH`; `Queue.filled` is every fill, with its slot. The tail register is behind
the last descriptor that the driver has given back, so a call starts at the one
after it and examines those up to the head that it read. Frames without error
are collected in two arrays of 16 entries, which are reported when they are
full and once more at the end. -/
namespace Kvi.Ixgbe.Receive

def IXGBE_RET_RCVDIS : Nat := 1
def IXGBE_RET_RCVEOP : Nat := 2
def IXGBE_RET_RCVIPE : Nat := 4
def IXGBE_RET_RCVTCPE : Nat := 8
def IXGBE_RET_RCVRXE : Nat := 16

/-- The fields of `struct ixgbe_rdesc` that the driver reads. -/
structure RDesc where
  len : Nat
  statusEop : Bool
  errIpe : Bool
  errTcpe : Bool
  errRxe : Bool
  deriving DecidableEq

/-- The error bit that the first failing check adds, or 0 when none fails. -/
def RDesc.error (d : RDesc) : Nat :=
  if !d.statusEop then IXGBE_RET_RCVEOP
  else if d.errIpe then IXGBE_RET_RCVIPE
  else if d.errTcpe then IXGBE_RET_RCVTCPE
  else if d.errRxe then IXGBE_RET_RCVRXE
  else 0

/-- A call: the number of fills when it read the head, the head, the slots and descriptors it
examined, the batches it reported (buffer and length of every frame), and `errstate`. -/
structure Call where
  seen : Nat
  head : Nat
  examined : List (Nat × RDesc)
  batches : List (List (Nat × Nat))
  errstate : Nat

/-- The local variables of the loop. -/
structure Vars where
  tail : Nat
  i : Nat
  frames : Nat → Nat
  frameSizes : Nat → Nat

/-- The first `i` entries of the arrays. -/
def Vars.batch (v : Vars) : List (Nat × Nat) :=
  (List.range v.i).map fun j => (v.frames j, v.frameSizes j)

/-- Where the driver is in `ixgbe_recv_frames`; before the loop the arrays hold anything. -/
inductive Pc where
  | idle
  | enter (frames frameSizes : Nat → Nat)
  | readTail (k : Call) (frames frameSizes : Nat → Nat)
  | loop (k : Call) (v : Vars)
  /-- Buffer and length are in the arrays, the status is not yet read. -/
  | check (k : Call) (v : Vars)

structure Queue where
  recvEnabled : Bool
  /-- The registers `RDH` and `RDT`. -/
  rdh : Nat
  rdt : Nat
  rdescRing : Nat → RDesc
  rdescBuf : Nat → Nat
  filled : List (Nat × RDesc)
  pc : Pc
  /-- The calls that have returned, in order. -/
  calls : List Call

namespace Queue

/-- The device fills the descriptor at the head. -/
def fill (n : Nat) (d : RDesc) (s : Queue) : Queue :=
  {s with
    rdescRing := Function.update s.rdescRing s.rdh d
    filled := s.filled ++ [(s.rdh, d)]
    rdh := (s.rdh + 1) % n}

/-- The call returns. -/
def finish (k : Call) (s : Queue) : Queue := {s with pc := .idle, calls := s.calls ++ [k]}

/-- The next descriptor's buffer and length go to the arrays. -/
def fetch (k : Call) (v : Vars) (nt : Nat) (s : Queue) : Queue :=
  {s with pc := .check k ⟨nt, v.i, Function.update v.frames v.i (s.rdescBuf nt),
    Function.update v.frameSizes v.i (s.rdescRing nt).len⟩}

end Queue

/-- `printf ("IXGBE: Received %d packets. ...")` -/
def Call.report (v : Vars) (k : Call) : Call := {k with batches := k.batches ++ [v.batch]}

/-- The next access of `ixgbe_recv_frames`. -/
def driver (c : Config) (s : Queue) : Option Queue :=
  match s.pc with
  | .idle => none
  | .enter frames frameSizes =>
    let k : Call := ⟨s.filled.length, s.rdh, [], [], 0⟩
    if s.recvEnabled then some {s with pc := .readTail k frames frameSizes}
    else some (s.finish {k with errstate := IXGBE_RET_RCVDIS})
  | .readTail k frames frameSizes =>
    if c.numRdesc < k.head ∨ c.numRdesc < s.rdt then
      some (s.finish {k with errstate := IXGBE_RET_RCVDIS})
    else some {s with pc := .loop k ⟨s.rdt, 0, frames, frameSizes⟩}
  | .loop k v =>
    let nt := nextDesc c.numRdesc v.tail
    if k.head = nt ∨ v.i = 16 then
      if k.head = nt then some {s.finish (k.report v) with rdt := v.tail}
      else some (s.fetch (k.report v) {v with i := 0} nt)
    else some (s.fetch k v nt)
  | .check k v =>
    let d := s.rdescRing v.tail
    let k := {k with examined := k.examined ++ [(v.tail, d)]}
    if d.error ≠ 0 then some {s with pc := .loop {k with errstate := k.errstate ||| d.error} v}
    else some {s with pc := .loop k {v with i := v.i + 1}}

/-- One step of the device or of the driver, or a call that begins. -/
inductive Step (c : Config) : Queue → Queue → Prop where
  | device {s : Queue} {d : RDesc} (owns : s.rdh ≠ s.rdt) : Step c s (s.fill c.numRdesc d)
  | call {s : Queue} {frames frameSizes : Nat → Nat} (now : s.pc = .idle) :
      Step c s {s with pc := .enter frames frameSizes}
  | driver {s s' : Queue} (now : driver c s = some s') : Step c s s'

/-- The states that any interleaving reaches from the ring `ixgbe_setup_recv` leaves. -/
inductive Reachable (c : Config) : Queue → Prop where
  | start (rdescRing : Nat → RDesc) (rdescBuf : Nat → Nat) :
      Reachable c ⟨true, 0, c.numRdesc - 1, rdescRing, rdescBuf, [], .idle, []⟩
  | step {s s' : Queue} (past : Reachable c s) (now : Step c s s') : Reachable c s'

/-- What a call reads in `RDH`, and how many descriptors have been filled by then. -/
structure Given where
  filled : Nat
  rdh : Nat

/-- What the next access adds to it. -/
def Given.look (s : Queue) (g : Option Given) : Option Given :=
  match s.pc with
  | .enter _ _ => some ⟨s.filled.length, s.rdh⟩
  | _ => g

/-- The same runs, with what every call so far was given. -/
inductive Watched (c : Config) : List (Option Given) → Queue → Prop where
  | start (rdescRing : Nat → RDesc) (rdescBuf : Nat → Nat) :
      Watched c [] ⟨true, 0, c.numRdesc - 1, rdescRing, rdescBuf, [], .idle, []⟩
  | device {gs : List (Option Given)} {s : Queue} {d : RDesc} (past : Watched c gs s)
      (owns : s.rdh ≠ s.rdt) : Watched c gs (s.fill c.numRdesc d)
  | call {gs : List (Option Given)} {s : Queue} {frames frameSizes : Nat → Nat}
      (past : Watched c gs s) (now : s.pc = .idle) :
      Watched c (gs ++ [none]) {s with pc := .enter frames frameSizes}
  | driver {gs : List (Option Given)} {g : Option Given} {s s' : Queue}
      (past : Watched c (gs ++ [g]) s) (now : driver c s = some s') :
      Watched c (gs ++ [Given.look s g]) s'

/-! ### What is promised -/

/-- A frame is whole and without error. -/
def RDesc.good (d : RDesc) : Bool := d.statusEop && !d.errIpe && !d.errTcpe && !d.errRxe

/-- Buffer and length of the frames without error. -/
def goods (rdescBuf : Nat → Nat) (es : List (Nat × RDesc)) : List (Nat × Nat) :=
  (es.filter fun e => e.2.good).map fun e => (rdescBuf e.1, e.2.len)

/-- What a call reports. -/
structure Call.Faithful (rdescBuf : Nat → Nat) (k : Call) : Prop where
  short : ∀ b ∈ k.batches, b.length ≤ 16
  frames : k.batches.flatten = goods rdescBuf k.examined
  count : (k.batches.map List.length).sum = k.examined.countP fun e => e.2.good

/-- What the call says it was given. -/
def Call.given (k : Call) : Option Given := some ⟨k.seen, k.head⟩

/-- What the call in progress was given so far. -/
def Pc.given : Pc → List (Option Given)
  | .idle => []
  | .enter _ _ => [none]
  | .readTail k _ _ | .loop k _ | .check k _ => [k.given]

def Pc.examined : Pc → List (Nat × RDesc)
  | .loop k _ | .check k _ => k.examined
  | _ => []

namespace Queue

/-- The descriptors examined by the completed calls. -/
def done (s : Queue) : List (Nat × RDesc) := (s.calls.map Call.examined).flatten

/-- The descriptors examined so far. -/
def examined (s : Queue) : List (Nat × RDesc) := s.done ++ s.pc.examined

def given (s : Queue) : List (Option Given) := s.calls.map Call.given ++ s.pc.given

end Queue

structure ExactlyOnce (c : Config) (s : Queue) : Prop where
  /-- The fills are examined in their order, each once and nothing else. -/
  order : s.examined = s.filled.take s.examined.length
  /-- What is filled and not examined is not the device's. -/
  kept : ∀ i, s.examined.length ≤ i → i < s.filled.length →
    i % c.numRdesc ∉ Ring.upto c.numRdesc s.rdh s.rdt
  /-- A call examines everything that was filled when it read the head, and leaves `RDT` behind. -/
  last : ∀ k, s.calls.getLast? = some k →
    s.done.length = k.seen ∧ s.rdt = (k.head + c.numRdesc - 1) % c.numRdesc
  calls : ∀ k ∈ s.calls, k.Faithful s.rdescBuf

variable {c : Config} {s s' : Queue} {k : Call} {v : Vars} {d : RDesc} {buf : Nat → Nat}
  {es : List (Nat × RDesc)} {h₀ done : Nat}

/-! ### The batches -/

theorem error_eq_zero : d.error = 0 ↔ d.good = true := by
  simp only [RDesc.error, RDesc.good, IXGBE_RET_RCVEOP, IXGBE_RET_RCVIPE, IXGBE_RET_RCVTCPE,
    IXGBE_RET_RCVRXE]
  cases d.statusEop <;> cases d.errIpe <;> cases d.errTcpe <;> cases d.errRxe <;> simp

theorem goods_snoc {slot : Nat} : goods buf (es ++ [(slot, d)]) =
    goods buf es ++ if d.good then [(buf slot, d.len)] else [] := by
  rw [goods, List.filter_append, List.map_append]
  cases hd : d.good <;> simp [goods, hd]

/-- The batches are what was reported, the arrays what is still to be. -/
structure Collected (buf : Nat → Nat) (k : Call) (v : Vars) : Prop where
  short : ∀ b ∈ k.batches, b.length ≤ 16
  room : v.i ≤ 16
  frames : k.batches.flatten ++ v.batch = goods buf k.examined

theorem length_batch : v.batch.length = v.i := by
  rw [Vars.batch, List.length_map, List.length_range]

/-- Entries from `i` on do not count. -/
theorem batch_update {x y : Nat} :
    Vars.batch ⟨v.tail, v.i, Function.update v.frames v.i x, Function.update v.frameSizes v.i y⟩ =
      v.batch := by
  apply List.map_congr_left
  intro j hj
  have hlt : j < v.i := List.mem_range.mp hj
  have hne : j ≠ v.i := by omega
  simp only [Function.update_of_ne hne]

theorem batch_succ {tail : Nat} : Vars.batch ⟨tail, v.i + 1, v.frames, v.frameSizes⟩ =
    v.batch ++ [(v.frames v.i, v.frameSizes v.i)] := by
  rw [Vars.batch, List.range_succ, List.map_append]
  rfl

/-- Reporting the arrays. -/
theorem Collected.report (h : Collected buf k v) :
    (∀ b ∈ (k.report v).batches, b.length ≤ 16) ∧
      (k.report v).batches.flatten = goods buf k.examined := by
  refine ⟨fun b hb => ?_, ?_⟩
  · rcases List.mem_append.mp hb with hb | hb
    · exact h.short b hb
    · rw [List.mem_singleton.mp hb, length_batch]
      exact h.room
  · show (k.batches ++ [v.batch]).flatten = _
    rw [List.flatten_append, List.flatten_singleton, h.frames]

theorem Collected.faithful (h : Collected buf k v) : (k.report v).Faithful buf := by
  obtain ⟨hshort, hframes⟩ := h.report
  refine ⟨hshort, hframes, ?_⟩
  rw [← List.length_flatten, hframes, goods, List.length_map, List.countP_eq_length_filter]
  rfl

theorem Collected.restart (h : Collected buf k v) : Collected buf (k.report v) {v with i := 0} := by
  obtain ⟨hshort, hframes⟩ := h.report
  refine ⟨hshort, Nat.zero_le _, ?_⟩
  rw [hframes]
  exact List.append_nil _

/-- The status is read: a frame without error stays in the arrays. -/
theorem Collected.status (h : Collected buf k v) (hi : v.i < 16) (hframe : v.frames v.i = buf v.tail)
    (hsize : v.frameSizes v.i = d.len) :
    (d.error ≠ 0 → Collected buf {k with
      examined := k.examined ++ [(v.tail, d)]
      errstate := k.errstate ||| d.error} v) ∧
    (¬ d.error ≠ 0 → Collected buf {k with examined := k.examined ++ [(v.tail, d)]}
      {v with i := v.i + 1}) := by
  constructor
  · intro herror
    have hbad : d.good = false := by
      rw [← Bool.not_eq_true]
      exact mt error_eq_zero.mpr herror
    refine ⟨h.short, h.room, ?_⟩
    rw [goods_snoc, hbad]
    simpa using h.frames
  · intro herror
    have hgood : d.good = true := error_eq_zero.mp (not_not.mp herror)
    refine ⟨h.short, Nat.succ_le_of_lt hi, ?_⟩
    rw [goods_snoc, if_pos hgood, ← h.frames, ← hframe, ← hsize, List.append_assoc]
    exact congrArg _ batch_succ

/-! ### What holds in every state -/

/-- A call that has read its registers, when `base` descriptors were given back and `filled` filled.
It has examined the ones from `base` on and goes on to the fill it saw last. -/
structure Local (c : Config) (buf : Nat → Nat) (base filled : Nat) (k : Call) : Prop where
  seen : k.seen ≤ filled
  head : k.head = k.seen % c.numRdesc
  within : base + k.examined.length ≤ k.seen

/-- What holds where the driver is. -/
def Pc.Holds (c : Config) (ring : Nat → RDesc) (buf : Nat → Nat) (base filled : Nat) : Pc → Prop
  | .idle | .enter _ _ => True
  | .readTail k _ _ => Local c buf base filled k ∧ k.examined = [] ∧ k.batches = []
  | .loop k v => Local c buf base filled k ∧ Collected buf k v ∧
      v.tail = (base + k.examined.length + (c.numRdesc - 1)) % c.numRdesc
  | .check k v => Local c buf base filled k ∧ Collected buf k v ∧
      v.tail = (base + k.examined.length) % c.numRdesc ∧ base + k.examined.length < k.seen ∧
      v.i < 16 ∧ v.frames v.i = buf v.tail ∧ v.frameSizes v.i = (ring v.tail).len

theorem Local.mono {base filled : Nat} (h : Local c buf base filled k) :
    Local c buf base (filled + 1) k :=
  {h with seen := Nat.le_succ_of_le h.seen}

/-- A fill leaves the slot that the driver is at. -/
theorem Pc.Holds.fill {ring ring' : Nat → RDesc} {base filled : Nat} {pc : Pc}
    (h : pc.Holds c ring buf base filled) (hsame : ∀ i, base + pc.examined.length ≤ i → i < filled →
      ring' (i % c.numRdesc) = ring (i % c.numRdesc)) : pc.Holds c ring' buf base (filled + 1) := by
  cases pc with
  | idle => exact trivial
  | enter frames frameSizes => exact trivial
  | readTail k frames frameSizes => exact ⟨h.1.mono, h.2⟩
  | loop k v => exact ⟨h.1.mono, h.2⟩
  | check k v =>
    obtain ⟨hlocal, hcollected, htail, hlt, hi, hframe, hsize⟩ := h
    have hseen := hlocal.seen
    have hring := hsame (base + k.examined.length) (Nat.le_refl _) (by omega)
    rw [← htail] at hring
    refine ⟨hlocal.mono, hcollected, htail, hlt, hi, hframe, ?_⟩
    rw [hring]
    exact hsize

structure Inv (c : Config) (s : Queue) : Prop where
  enabled : s.recvEnabled = true
  rdh : s.rdh = s.filled.length % c.numRdesc
  rdt : s.rdt = (s.done.length + (c.numRdesc - 1)) % c.numRdesc
  le : s.examined.length ≤ s.filled.length
  room : s.filled.length < s.done.length + c.numRdesc
  order : s.examined = s.filled.take s.examined.length
  slots : Ring.Holds c.numRdesc (fun j => (j, s.rdescRing j)) s.examined.length
    (s.filled.drop s.examined.length)
  last : ∀ k, s.calls.getLast? = some k → s.done.length = k.seen ∧ k.head = k.seen % c.numRdesc
  calls : ∀ k ∈ s.calls, k.Faithful s.rdescBuf
  running : s.pc.Holds c s.rdescRing s.rdescBuf s.done.length s.filled.length

theorem length_examined : s.examined.length = s.done.length + s.pc.examined.length :=
  List.length_append

namespace Inv

theorem start (ring : Nat → RDesc) (buf : Nat → Nat) :
    Inv c ⟨true, 0, c.numRdesc - 1, ring, buf, [], .idle, []⟩ := by
  have hn := c.two_le_numRdesc
  refine ⟨rfl, (Nat.zero_mod _).symm, ?_, Nat.le_refl _, ?_, rfl, Ring.Holds.nil, nofun, nofun,
    trivial⟩
  · show c.numRdesc - 1 = (0 + (c.numRdesc - 1)) % c.numRdesc
    rw [Nat.zero_add, Nat.mod_eq_of_lt (by omega)]
  · show 0 < 0 + c.numRdesc
    omega

/-- The device fills a descriptor that the driver has given back. -/
theorem device (h : Inv c s) (howns : s.rdh ≠ s.rdt) (d : RDesc) :
    Inv c (s.fill c.numRdesc d) := by
  have hle := h.le
  have hroom := h.room
  have hlen := length_examined (s := s)
  have hfree : s.filled.length + 1 < s.done.length + c.numRdesc := by
    by_contra hfull
    apply howns
    rw [h.rdh, h.rdt]
    congr 1
    omega
  have hfilled : (s.fill c.numRdesc d).filled.length = s.filled.length + 1 := by
    show (s.filled ++ [_]).length = _
    rw [List.length_append, List.length_singleton]
  -- a slot between the examined and the filled ones is another one
  have hother : ∀ i, s.examined.length ≤ i → i < s.filled.length →
      (s.fill c.numRdesc d).rdescRing (i % c.numRdesc) = s.rdescRing (i % c.numRdesc) := by
    intro i hlo hhi
    apply Function.update_of_ne
    rw [h.rdh]
    exact (Ring.mod_ne hhi (by omega)).symm
  have hdrop : (s.fill c.numRdesc d).filled.drop s.examined.length =
      s.filled.drop s.examined.length ++ [(s.rdh, d)] := List.drop_append_of_le_length hle
  refine ⟨h.enabled, ?_, h.rdt, ?_, ?_, ?_, ?_, h.last, h.calls, ?_⟩
  · rw [hfilled, ← Nat.mod_add_mod, ← h.rdh]
    rfl
  · rw [hfilled]
    exact Nat.le_succ_of_le hle
  · rw [hfilled]
    exact hfree
  · show s.examined = (s.filled ++ [(s.rdh, d)]).take s.examined.length
    rw [List.take_append_of_le_length hle]
    exact h.order
  · show Ring.Holds _ _ s.examined.length ((s.fill c.numRdesc d).filled.drop s.examined.length)
    have hcount : s.examined.length + (s.filled.drop s.examined.length).length = s.filled.length := by
      rw [List.length_drop]
      omega
    rw [hdrop]
    apply Ring.Holds.snoc
    · apply h.slots.frame
      intro i hi
      rw [hother _ (Nat.le_add_right ..) (by omega)]
    · rw [hcount, ← h.rdh]
      show (s.rdh, Function.update s.rdescRing s.rdh d s.rdh) = (s.rdh, d)
      rw [Function.update_self]
  · show s.pc.Holds c (s.fill c.numRdesc d).rdescRing s.rdescBuf s.done.length _
    rw [hfilled]
    apply h.running.fill
    intro i hlo hhi
    rw [← hlen] at hlo
    exact hother i hlo hhi

/-- The driver moves on without examining anything. -/
theorem goto (h : Inv c s) {pc : Pc} (hexamined : pc.examined = s.pc.examined)
    (hpc : pc.Holds c s.rdescRing s.rdescBuf s.done.length s.filled.length) :
    Inv c {s with pc := pc} := by
  have hsame : Queue.examined {s with pc := pc} = s.examined := by
    show s.done ++ pc.examined = s.done ++ s.pc.examined
    rw [hexamined]
  refine ⟨h.enabled, h.rdh, h.rdt, ?_, h.room, ?_, ?_, h.last, h.calls, hpc⟩
  · rw [hsame]
    exact h.le
  · rw [hsame]
    exact h.order
  · rw [hsame]
    exact h.slots

/-- The next descriptor is one that was filled before the head was read. -/
theorem fetch {v' : Vars} {k' : Call} (h : Inv c s) (hpc : s.pc = .loop k v)
    (hlocal : Local c s.rdescBuf s.done.length s.filled.length k)
    (hlt : s.done.length + k.examined.length < k.seen) (hk : k' = {k with batches := k'.batches})
    (hcollected : Collected s.rdescBuf k' v') (hi : v'.i < 16) :
    Inv c (s.fetch k' v' ((s.done.length + k.examined.length) % c.numRdesc)) := by
  have hexamined : k'.examined = k.examined := by rw [hk]
  have hseen : k'.seen = k.seen := by rw [hk]
  have hhead : k'.head = k.head := by rw [hk]
  apply h.goto
  · rw [hpc]
    exact hexamined
  · refine ⟨⟨?_, ?_, ?_⟩, ⟨hcollected.short, hcollected.room, ?_⟩, ?_, ?_, hi, ?_, ?_⟩
    · rw [hseen]
      exact hlocal.seen
    · rw [hhead, hseen]
      exact hlocal.head
    · rw [hexamined, hseen]
      exact hlocal.within
    · rw [← hcollected.frames]
      congr 1
      exact batch_update
    · rw [hexamined]
    · rw [hexamined, hseen]
      exact hlt
    · exact Function.update_self ..
    · exact Function.update_self ..

/-- The call has reached the head it read. -/
theorem finish (h : Inv c s) (hpc : s.pc = .loop k v)
    (hlocal : Local c s.rdescBuf s.done.length s.filled.length k)
    (hcollected : Collected s.rdescBuf k v)
    (htail : v.tail = (s.done.length + k.examined.length + (c.numRdesc - 1)) % c.numRdesc)
    (hend : s.done.length + k.examined.length = k.seen) :
    Inv c {s.finish (k.report v) with rdt := v.tail} := by
  obtain ⟨s', hs'⟩ : ∃ s' : Queue, s' = {s.finish (k.report v) with rdt := v.tail} := ⟨_, rfl⟩
  have hdone : s'.done = s.done ++ k.examined := by
    rw [hs']
    show ((s.calls ++ [k.report v]).map Call.examined).flatten = _
    rw [List.map_append, List.flatten_append, List.map_singleton, List.flatten_singleton]
    rfl
  have hexamined : s'.examined = s.examined := by
    rw [Queue.examined, hdone, hs', Queue.examined, hpc]
    exact List.append_nil _
  have hlen : s'.done.length = s.done.length + k.examined.length := by
    rw [hdone, List.length_append]
  have hfilled : s'.filled = s.filled := by rw [hs']; rfl
  have hroom := h.room
  rw [← hs']
  refine ⟨?_, ?_, ?_, ?_, ?_, ?_, ?_, fun k' hk' => ?_, fun k' hk' => ?_, ?_⟩
  · rw [hs']
    exact h.enabled
  · rw [hs']
    exact h.rdh
  · rw [hlen, hs']
    exact htail
  · rw [hexamined, hfilled]
    exact h.le
  · rw [hfilled, hlen]
    omega
  · rw [hexamined, hfilled]
    exact h.order
  · rw [hexamined, hfilled, hs']
    exact h.slots
  · have hlast : s'.calls.getLast? = some (k.report v) := by
      rw [hs']
      exact List.getLast?_concat
    obtain rfl := Option.some.inj (hlast.symm.trans hk')
    rw [hlen, hend]
    exact ⟨rfl, hlocal.head⟩
  · rw [hs'] at hk' ⊢
    rcases List.mem_append.mp hk' with hk' | hk'
    · exact h.calls k' hk'
    · rw [List.mem_singleton.mp hk']
      exact hcollected.faithful
  · rw [hs']
    exact trivial

/-- The next descriptor is examined: it is the next fill, as the device left it. -/
theorem examine {k' : Call} {v' : Vars} (h : Inv c s) (hpc : s.pc = .check k v)
    (hlocal : Local c s.rdescBuf s.done.length s.filled.length k)
    (htail : v.tail = (s.done.length + k.examined.length) % c.numRdesc)
    (hlt : s.done.length + k.examined.length < k.seen)
    (hk : k' = {k with
      examined := k.examined ++ [(v.tail, s.rdescRing v.tail)]
      errstate := k'.errstate})
    (hcollected : Collected s.rdescBuf k' v') (hv : v'.tail = v.tail) :
    Inv c {s with pc := .loop k' v'} := by
  have hseen := hlocal.seen
  have hlen : s.examined.length = s.done.length + k.examined.length := by
    rw [length_examined, hpc]
    rfl
  have hexamined' : k'.examined = k.examined ++ [(v.tail, s.rdescRing v.tail)] := by rw [hk]
  have hexamined : Queue.examined {s with pc := .loop k' v'} =
      s.examined ++ [(v.tail, s.rdescRing v.tail)] := by
    show s.done ++ k'.examined = s.done ++ s.pc.examined ++ _
    rw [hexamined', hpc, List.append_assoc]
    rfl
  have hin : s.examined.length < s.filled.length := by omega
  have hdrop := List.drop_eq_getElem_cons hin
  have hslots := h.slots
  rw [hdrop] at hslots
  have hhead : s.filled[s.examined.length] = (v.tail, s.rdescRing v.tail) := by
    rw [← hslots.head, hlen, ← htail]
  have hlen' : (s.examined ++ [(v.tail, s.rdescRing v.tail)]).length = s.examined.length + 1 := by
    rw [List.length_append, List.length_singleton]
  refine ⟨h.enabled, h.rdh, h.rdt, ?_, h.room, ?_, ?_, h.last, h.calls, ⟨?_, ?_, ?_⟩, hcollected, ?_⟩
  · rw [hexamined, hlen']
    exact hin
  · rw [hexamined, hlen']
    show _ = s.filled.take (s.examined.length + 1)
    rw [List.take_add_one, ← h.order, List.getElem?_eq_getElem hin, hhead]
    rfl
  · rw [hexamined, hlen']
    exact hslots.tail
  · rw [hk]
    exact hseen
  · rw [hk]
    exact hlocal.head
  · rw [hexamined', List.length_append, List.length_singleton, hk]
    exact hlt
  · have hn := c.two_le_numRdesc
    rw [hv, htail, hexamined', List.length_append, List.length_singleton]
    show _ = (s.done.length + (k.examined.length + 1) + (c.numRdesc - 1)) % c.numRdesc
    rw [show s.done.length + (k.examined.length + 1) + (c.numRdesc - 1) =
      s.done.length + k.examined.length + c.numRdesc by omega, Nat.add_mod_right]

/-- The head is read. -/
theorem enter {frames frameSizes : Nat → Nat} (h : Inv c s) (hpc : s.pc = .enter frames frameSizes) :
    Inv c {s with pc := .readTail ⟨s.filled.length, s.rdh, [], [], 0⟩ frames frameSizes} := by
  apply h.goto
  · rw [hpc]
    rfl
  · refine ⟨⟨Nat.le_refl _, h.rdh, ?_⟩, rfl, rfl⟩
    show s.done.length + 0 ≤ s.filled.length
    have hle := h.le
    have hlen := length_examined (s := s)
    omega

/-- Both registers are positions of the ring, and the loop starts behind the tail. -/
theorem readTail {frames frameSizes : Nat → Nat} (h : Inv c s)
    (hpc : s.pc = .readTail k frames frameSizes) :
    ¬ (c.numRdesc < k.head ∨ c.numRdesc < s.rdt) ∧
      Inv c {s with pc := .loop k ⟨s.rdt, 0, frames, frameSizes⟩} := by
  have hrunning := h.running
  rw [hpc] at hrunning
  obtain ⟨hlocal, hexamined, hbatches⟩ := hrunning
  have hpos : 0 < c.numRdesc := by
    have := c.two_le_numRdesc
    omega
  constructor
  · have h1 := Nat.mod_lt k.seen hpos
    have h2 := Nat.mod_lt (s.done.length + (c.numRdesc - 1)) hpos
    rw [← hlocal.head] at h1
    rw [← h.rdt] at h2
    omega
  · apply h.goto
    · rw [hpc]
      exact hexamined
    · refine ⟨hlocal, ⟨?_, Nat.zero_le _, ?_⟩, ?_⟩
      · rw [hbatches]
        nofun
      · rw [hbatches, hexamined]
        rfl
      · rw [hexamined]
        exact h.rdt

/-- The position behind the tail is the one to examine next; it is the head when all are. -/
theorem next_slot (h : Inv c s) (hlocal : Local c s.rdescBuf s.done.length s.filled.length k)
    (htail : v.tail = (s.done.length + k.examined.length + (c.numRdesc - 1)) % c.numRdesc) :
    nextDesc c.numRdesc v.tail = (s.done.length + k.examined.length) % c.numRdesc ∧
      (k.head = nextDesc c.numRdesc v.tail ↔ k.seen = s.done.length + k.examined.length) := by
  have hn := c.two_le_numRdesc
  have hroom := h.room
  have hseen := hlocal.seen
  have hnt : nextDesc c.numRdesc v.tail = (s.done.length + k.examined.length) % c.numRdesc := by
    rw [htail, nextDesc_mod hn c.numRdesc_lt, Nat.add_assoc, Nat.sub_add_cancel (by omega),
      Nat.add_mod_right]
  refine ⟨hnt, ?_⟩
  rw [hnt, hlocal.head]
  exact Ring.mod_inj hlocal.within (by omega)

/-- Each access of the driver. -/
theorem driver (h : Inv c s) (hnow : Receive.driver c s = some s') : Inv c s' := by
  have hrunning := h.running
  unfold Receive.driver at hnow
  split at hnow
  · cases hnow
  · next frames frameSizes hpc =>
    dsimp only at hnow
    rw [if_pos h.enabled] at hnow
    obtain rfl := Option.some.inj hnow
    exact h.enter hpc
  · next k frames frameSizes hpc =>
    rw [if_neg (h.readTail hpc).1] at hnow
    obtain rfl := Option.some.inj hnow
    exact (h.readTail hpc).2
  · next k v hpc =>
    rw [hpc] at hrunning
    obtain ⟨hlocal, hcollected, htail⟩ := hrunning
    have hwithin := hlocal.within
    obtain ⟨hnt, hiff⟩ := h.next_slot hlocal htail
    dsimp only at hnow
    split at hnow
    · split at hnow
      · next hend =>
        obtain rfl := Option.some.inj hnow
        exact h.finish hpc hlocal hcollected htail (hiff.mp hend).symm
      · next hmore =>
        obtain rfl := Option.some.inj hnow
        have hne := mt hiff.mpr hmore
        rw [hnt]
        exact h.fetch hpc hlocal (by omega) rfl hcollected.restart (Nat.succ_pos 15)
    · next hmore =>
      obtain rfl := Option.some.inj hnow
      obtain ⟨hmore, hi⟩ := not_or.mp hmore
      have hne := mt hiff.mpr hmore
      have hle16 := hcollected.room
      rw [hnt]
      exact h.fetch hpc hlocal (by omega) rfl hcollected (by omega)
  · next k v hpc =>
    rw [hpc] at hrunning
    obtain ⟨hlocal, hcollected, htail, hlt, hi, hframe, hsize⟩ := hrunning
    obtain ⟨hbad, hgood⟩ := hcollected.status hi hframe hsize
    dsimp only at hnow
    split at hnow
    · next herror =>
      obtain rfl := Option.some.inj hnow
      exact h.examine hpc hlocal htail hlt rfl (hbad herror) rfl
    · next herror =>
      obtain rfl := Option.some.inj hnow
      exact h.examine hpc hlocal htail hlt rfl (hgood herror) rfl

end Inv

theorem Reachable.inv (h : Reachable c s) : Inv c s := by
  induction h with
  | start ring buf => exact Inv.start ring buf
  | step past now ih =>
    cases now with
    | device owns => exact ih.device owns _
    | @call frames frameSizes now =>
      apply ih.goto
      · rw [now]
        rfl
      · exact trivial
    | driver now => exact ih.driver now

/-- Every fill is examined once, in order and before its descriptor is given back; and the batches
are the frames without error. -/
theorem Reachable.exactlyOnce (h : Reachable c s) : ExactlyOnce c s := by
  have hinv := h.inv
  have hn := c.two_le_numRdesc
  have hle := hinv.le
  have hroom := hinv.room
  have hlen := length_examined (s := s)
  refine ⟨hinv.order, fun i hlo hhi hmem => ?_, fun k hk => ?_, hinv.calls⟩
  · rw [hinv.rdh, hinv.rdt, Ring.upto_mod (by omega) (by omega)] at hmem
    obtain ⟨d, hd, heq⟩ := List.mem_map.mp hmem
    have hd := List.mem_range.mp hd
    exact Ring.mod_ne (k := i) (l := s.filled.length + d) (by omega) (by omega) heq
  · obtain ⟨hdone, hhead⟩ := hinv.last k hk
    refine ⟨hdone, ?_⟩
    rw [hinv.rdt, hdone, hhead, Nat.add_sub_assoc (by omega), Nat.mod_add_mod]

/-! ### What the calls were given -/

variable {gs : List (Option Given)} {g : Option Given}

/-- An access takes down what it reads, and nothing else changes. -/
theorem driver_given (h : Inv c s) (hnow : driver c s = some s') (hgiven : gs ++ [g] = s.given) :
    gs ++ [Given.look s g] = s'.given := by
  rw [Queue.given] at hgiven
  unfold driver at hnow
  split at hnow
  · cases hnow
  · next frames frameSizes hpc =>
    obtain ⟨rfl, rfl⟩ := last_of_append hgiven (by rw [hpc]; rfl)
    dsimp only at hnow
    rw [if_pos h.enabled] at hnow
    obtain rfl := Option.some.inj hnow
    simp [Queue.given, Pc.given, Call.given, Given.look, hpc]
  · next k frames frameSizes hpc =>
    obtain ⟨rfl, rfl⟩ := last_of_append hgiven (by rw [hpc]; rfl)
    rw [if_neg (h.readTail hpc).1] at hnow
    obtain rfl := Option.some.inj hnow
    simp [Queue.given, Pc.given, Given.look, hpc]
  · next k v hpc =>
    obtain ⟨rfl, rfl⟩ := last_of_append hgiven (by rw [hpc]; rfl)
    dsimp only at hnow
    split at hnow
    · split at hnow
      · obtain rfl := Option.some.inj hnow
        simp [Queue.given, Queue.finish, Pc.given, Call.given, Call.report, Given.look, hpc]
      · obtain rfl := Option.some.inj hnow
        simp [Queue.given, Queue.fetch, Pc.given, Call.given, Call.report, Given.look, hpc]
    · obtain rfl := Option.some.inj hnow
      simp [Queue.given, Queue.fetch, Pc.given, Given.look, hpc]
  · next k v hpc =>
    obtain ⟨rfl, rfl⟩ := last_of_append hgiven (by rw [hpc]; rfl)
    dsimp only at hnow
    split at hnow
    · obtain rfl := Option.some.inj hnow
      simp [Queue.given, Pc.given, Call.given, Given.look, hpc]
    · obtain rfl := Option.some.inj hnow
      simp [Queue.given, Pc.given, Call.given, Given.look, hpc]

theorem Watched.reachable (h : Watched c gs s) : Reachable c s := by
  induction h with
  | start ring buf => exact .start ring buf
  | device past owns ih => exact ih.step (.device owns)
  | call past now ih => exact ih.step (.call now)
  | driver past now ih => exact ih.step (.driver now)

/-- Every call has the head as it read it. -/
theorem Watched.given (h : Watched c gs s) : gs = s.given := by
  induction h with
  | start ring buf => rfl
  | device past owns ih => exact ih
  | call past now ih =>
    rw [ih]
    simp [Queue.given, Pc.given, now]
  | driver past now ih => exact driver_given past.reachable.inv now ih

/-- An access is part of the last call. -/
theorem Watched.access (h : Watched c gs s) (hnow : Receive.driver c s = some s') :
    ∃ gs₀ g, gs = gs₀ ++ [g] ∧ Watched c (gs₀ ++ [Given.look s g]) s' := by
  have hbusy : gs ≠ [] := by
    intro hnone
    have hpc := (List.append_eq_nil_iff.mp (h.given.symm.trans hnone)).2
    rw [Receive.driver.eq_def] at hnow
    cases heq : s.pc with
    | idle => simp [heq] at hnow
    | _ => simp [heq, Pc.given] at hpc
  have hlast := (List.dropLast_concat_getLast hbusy).symm
  rw [hlast] at h
  exact ⟨_, _, hlast, h.driver hnow⟩

/-- Every run can be watched. -/
theorem Reachable.watched (h : Reachable c s) : ∃ gs, Watched c gs s := by
  induction h with
  | start ring buf => exact ⟨[], .start ring buf⟩
  | step past now ih =>
    obtain ⟨gs, hs⟩ := ih
    cases now with
    | device owns => exact ⟨gs, hs.device owns⟩
    | call now => exact ⟨_, hs.call now⟩
    | driver now =>
      obtain ⟨_, _, _, hs'⟩ := hs.access now
      exact ⟨_, hs'⟩

end Kvi.Ixgbe.Receive
