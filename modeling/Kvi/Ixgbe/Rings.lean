import Kvi.Alloc.Aligned
import Kvi.Ixgbe.Linkup

/-! The rings, as the device sees them.

`ixgbe_alloc_tdesc` and `ixgbe_alloc_rdesc` get the ring of each queue from `malloc`,
which puts its own header of 48 bytes in front, and the two halves of its address go
to a pair of registers. The device ignores the low 7 bits of the first one. So a ring
at the start of fresh pages is read 48 bytes too low, from the header on; a ring is
where the device looks for it only if the header was 80 bytes behind a multiple of
128 (`rings_seen_iff`). -/
namespace Kvi.Ixgbe
open Alloc

def PAGESIZE : Nat := 4096

/-- `num_tdesc_ring_pages`, `num_rdesc_ring_pages` -/
def ringPages (num : Nat) : Nat := (num * 16 - 1) / PAGESIZE + 1

/-- `num_tdesc_buf_pages`, `num_rdesc_buf_pages` -/
def bufPages (bufsize : Nat) : Nat := (bufsize - 1) / PAGESIZE + 1

/-- Memory is written. -/
def poke (m : Memory) (σ : System) : System := {σ with heap := {σ.heap with mem := m}}

/-- One buffer, noted in the array `buf` and in its descriptor. -/
def allocBuf (src : PageSource) (bytes ring buf : Nat) (σ : System) (i : Nat) : Option System := do
  let (vaddr, σ) ← step src (.malloc bytes) σ
  let m := σ.heap.mem.store (buf + 8 * i) 8 vaddr
  some (poke (m.store (ring + 16 * i) 8 vaddr) σ)

/-- The ring of one queue, its array of buffers, and the buffers. -/
def allocQueue (src : PageSource) (num bufsize : Nat) (σ : System) : Option (Nat × System) := do
  let (ring, σ) ← step src (.malloc (ringPages num * PAGESIZE)) σ
  let σ := poke (σ.heap.mem.fill ring 0 (num * 16)) σ
  let (buf, σ) ← step src (.malloc (num * 8)) σ
  let σ ← (List.range num).foldlM (allocBuf src (bufPages bufsize * PAGESIZE) ring buf) σ
  some (ring, σ)

/-- The rings of the queues below `qnum`. -/
def allocRings (src : PageSource) (num bufsize : Nat) : Nat → System → Option (List Nat × System)
  | 0, σ => some ([], σ)
  | q + 1, σ => do
    let (rings, σ) ← allocRings src num bufsize q σ
    let (ring, σ) ← allocQueue src num bufsize σ
    some (rings ++ [ring], σ)

/-- `ixgbe_alloc_tdesc` -/
def ixgbeAllocTdesc (src : PageSource) (c : Config) : Nat → System → Option (List Nat × System) :=
  allocRings src c.numTdesc c.bufsize

/-- `ixgbe_alloc_rdesc` -/
def ixgbeAllocRdesc (src : PageSource) (c : Config) : Nat → System → Option (List Nat × System) :=
  allocRings src c.numRdesc c.bufsize

/-- What the device has in a register: the value written last. -/
def Nic.holds (s : Nic) (offset : Nat) : UInt32 :=
  s.written.foldl (fun v w => if w.1 = offset then w.2 else v) 0

/-- Where the device looks for a ring: the low 7 bits of its address are ignored. -/
def Nic.ringBase (s : Nic) (bal bah q : Nat) : Nat :=
  (s.holds (bah + 0x40 * q)).toNat * 2 ^ 32 + (s.holds (bal + 0x40 * q)).toNat / 128 * 128

/-- Transmission or reception. -/
inductive Direction where
  | xmit | recv
  deriving DecidableEq, Repr

namespace Direction

def num (c : Config) : Direction → Nat
  | xmit => c.numTdesc
  | recv => c.numRdesc

def alloc (src : PageSource) (c : Config) : Direction → Nat → System → Option (List Nat × System)
  | xmit => ixgbeAllocTdesc src c
  | recv => ixgbeAllocRdesc src c

/-- `tdesc_ring` and `rdesc_ring` -/
def ring (b : Board) : Direction → Nat → UInt64
  | xmit => b.tdescRing
  | recv => b.rdescRing

def write (b : Board) : Direction → Nat → Nic → Nic
  | xmit => b.ixgbeWriteTdesc
  | recv => b.ixgbeWriteRdesc

def base (s : Nic) : Direction → Nat → Nat
  | xmit => s.ringBase IXGBE_REG_TDBAL IXGBE_REG_TDBAH
  | recv => s.ringBase IXGBE_REG_RDBAL IXGBE_REG_RDBAH

end Direction

/-- The device's descriptors from `base` on are the driver's, in the block that starts with them. -/
structure Seen (base ring num : Nat) : Prop where
  same : ∀ i < num, base + 16 * i = ring + 16 * i
  inside : ∀ i < num, ring ≤ base + 16 * i ∧ base + 16 * i + 16 ≤ ring + ringPages num * PAGESIZE

/-- There is a queued block for a ring, and the tag of the first that fits is 80 bytes behind a
multiple of 128. -/
def Requeued (num : Nat) (s : Heap) : Prop :=
  ∃ t, search (setup s) (ringPages num * PAGESIZE)
    ((setup s).freePages (searchBin (ringPages num * PAGESIZE))) = some t ∧ t % 128 = 80

/-- The same of the tag that `malloc` is about to use, for a page layer whose ranges need not start at
pages. -/
def Offset (src : PageSource) (num : Nat) (s : Heap) : Prop :=
  ∃ t real, offer src (ringPages num * PAGESIZE) s = some (t, real) ∧ t % 128 = 80

variable {σ σ' : System} {L : Layout} {src : PageSource} {n p q num bufsize ring buf i bytes : Nat}
  {m : Memory} {is rings : List Nat}

/-! ### The allocation of one queue -/

theorem le_ringPages (num : Nat) : num * 16 ≤ ringPages num * PAGESIZE := by
  unfold ringPages PAGESIZE
  omega

/-- The ring and the array are there to be written. -/
structure Ready (num ring buf : Nat) (σ : System) : Prop where
  sound : ∃ L, Sound σ L
  ring : ⟨ring, ringPages num * PAGESIZE⟩ ∈ σ.live
  buf : ⟨buf, num * 8⟩ ∈ σ.live

theorem Ready.written {b : Block} (h : Ready num ring buf σ) (hb : b ∈ σ.live)
    (hm : ∀ c, c < b.ptr ∨ b.ptr + b.size ≤ c → m c = σ.heap.mem c) :
    Ready num ring buf (poke m σ) := by
  obtain ⟨L, hs⟩ := h.sound
  exact ⟨⟨L, hs.written_live hb hm⟩, h.ring, h.buf⟩

theorem allocBuf_steps (hnow : allocBuf src bytes ring buf σ i = some σ') :
    ∃ vaddr σ₁, step src (.malloc bytes) σ = some (vaddr, σ₁) ∧
      σ' = poke ((σ₁.heap.mem.store (buf + 8 * i) 8 vaddr).store (ring + 16 * i) 8 vaddr) σ₁ := by
  obtain ⟨⟨vaddr, σ₁⟩, hstep, hret⟩ := Option.bind_eq_some_iff.mp hnow
  exact ⟨vaddr, σ₁, hstep, (Option.some.inj hret).symm⟩

theorem allocQueue_steps (hnow : allocQueue src num bufsize σ = some (ring, σ')) :
    ∃ σ₁ buf σ₂, step src (.malloc (ringPages num * PAGESIZE)) σ = some (ring, σ₁) ∧
      step src (.malloc (num * 8)) (poke (σ₁.heap.mem.fill ring 0 (num * 16)) σ₁) = some (buf, σ₂) ∧
      (List.range num).foldlM (allocBuf src (bufPages bufsize * PAGESIZE) ring buf) σ₂ = some σ' := by
  obtain ⟨⟨ring', σ₁⟩, hring, hnow⟩ := Option.bind_eq_some_iff.mp hnow
  obtain ⟨⟨buf, σ₂⟩, hbuf, hnow⟩ := Option.bind_eq_some_iff.mp hnow
  obtain ⟨σ₃, hbufs, hret⟩ := Option.bind_eq_some_iff.mp hnow
  obtain ⟨rfl, rfl⟩ := Prod.mk.inj (Option.some.inj hret)
  exact ⟨σ₁, buf, σ₂, hring, hbuf, hbufs⟩

/-- A buffer is allocated, and its address noted twice. -/
theorem Ready.allocBuf (h : Ready num ring buf σ) (hi : i < num) (hbytes : Small bytes)
    (hnow : Ixgbe.allocBuf src bytes ring buf σ i = some σ') (hg : Granted σ'.heap.calls) :
    Ready num ring buf σ' := by
  obtain ⟨L, hs⟩ := h.sound
  obtain ⟨vaddr, σ₁, hstep, rfl⟩ := allocBuf_steps hnow
  obtain ⟨t, real, L₁, _, _, hs₁, hlive⟩ := hs.step_malloc hbytes.sized hstep hg
  have h₁ : Ready num ring buf σ₁ := by
    refine ⟨⟨L₁, hs₁⟩, ?_, ?_⟩
    · rw [hlive]
      exact List.mem_cons_of_mem _ h.ring
    · rw [hlive]
      exact List.mem_cons_of_mem _ h.buf
  have hle := le_ringPages num
  have h₂ : Ready num ring buf (poke (σ₁.heap.mem.store (buf + 8 * i) 8 vaddr) σ₁) :=
    h₁.written h₁.buf fun c hc => Memory.store_outside (by simp only at hc; omega)
  exact h₂.written h₂.ring fun c hc => Memory.store_outside (by simp only at hc; omega)

theorem granted_of_allocBuf (hnow : allocBuf src bytes ring buf σ i = some σ')
    (hg : Granted σ'.heap.calls) : Granted σ.heap.calls := by
  obtain ⟨vaddr, σ₁, hstep, rfl⟩ := allocBuf_steps hnow
  exact granted_of_step hstep hg

theorem granted_of_allocBufs (hnow : is.foldlM (allocBuf src bytes ring buf) σ = some σ')
    (hg : Granted σ'.heap.calls) : Granted σ.heap.calls := by
  induction is generalizing σ with
  | nil => rwa [Option.some.inj hnow]
  | cons i is ih =>
    rw [List.foldlM_cons] at hnow
    obtain ⟨σ₁, hone, hrest⟩ := Option.bind_eq_some_iff.mp hnow
    exact granted_of_allocBuf hone (ih hrest)

/-- All buffers. -/
theorem Ready.allocBufs (h : Ready num ring buf σ) (his : ∀ i ∈ is, i < num) (hbytes : Small bytes)
    (hnow : is.foldlM (Ixgbe.allocBuf src bytes ring buf) σ = some σ') (hg : Granted σ'.heap.calls) :
    Ready num ring buf σ' := by
  induction is generalizing σ with
  | nil => rwa [← Option.some.inj hnow]
  | cons i is ih =>
    rw [List.foldlM_cons] at hnow
    obtain ⟨σ₁, hone, hrest⟩ := Option.bind_eq_some_iff.mp hnow
    have h₁ := h.allocBuf (his i (List.mem_cons_self ..)) hbytes hone
      (granted_of_allocBufs hrest hg)
    exact ih h₁ (fun j hj => his j (List.mem_cons_of_mem _ hj)) hrest

theorem granted_of_allocQueue (hnow : allocQueue src num bufsize σ = some (ring, σ'))
    (hg : Granted σ'.heap.calls) : Granted σ.heap.calls := by
  obtain ⟨σ₁, buf, σ₂, hring, hbuf, hbufs⟩ := allocQueue_steps hnow
  have hg₁ : Granted (poke (σ₁.heap.mem.fill ring 0 (num * 16)) σ₁).heap.calls :=
    granted_of_step hbuf (granted_of_allocBufs hbufs hg)
  exact granted_of_step hring hg₁

/-- The sizes that a queue asks for. -/
structure Sizes (num bufsize : Nat) : Prop where
  ring : Small (ringPages num * PAGESIZE)
  bufs : Small (bufPages bufsize * PAGESIZE)

/-- The ring is allocated and cleared. -/
theorem ring_cleared (h : Sound σ L) (hz : Small (ringPages num * PAGESIZE))
    (hring : step src (.malloc (ringPages num * PAGESIZE)) σ = some (ring, σ'))
    (hg : Granted σ'.heap.calls) :
    ∃ t real L', offer src (ringPages num * PAGESIZE) σ.heap = some (t, real) ∧ ring = t + 48 ∧
      ⟨ring, ringPages num * PAGESIZE⟩ ∈ σ'.live ∧
      Sound (poke (σ'.heap.mem.fill ring 0 (num * 16)) σ') L' := by
  obtain ⟨t, real, L', hoffer, hptr, hs, hlive⟩ := h.step_malloc hz.sized hring hg
  have hle := le_ringPages num
  have hmem : ⟨ring, ringPages num * PAGESIZE⟩ ∈ σ'.live := by
    rw [hlive]
    exact List.mem_cons_self ..
  refine ⟨t, real, L', hoffer, hptr, hmem, hs.written_live hmem fun c hc => ?_⟩
  simp only at hc
  rw [Memory.fill_apply, if_neg (by omega)]

/-- Then comes the array. -/
theorem ready_of_array (h : Sound σ L) (hz : Small (ringPages num * PAGESIZE))
    (hring : ⟨ring, ringPages num * PAGESIZE⟩ ∈ σ.live)
    (hbuf : step src (.malloc (num * 8)) σ = some (buf, σ')) (hg : Granted σ'.heap.calls) :
    Ready num ring buf σ' := by
  have hle := le_ringPages num
  obtain ⟨_, _, L', _, _, hs, hlive⟩ := h.step_malloc (hz.le (by omega)).sized hbuf hg
  refine ⟨⟨L', hs⟩, ?_, ?_⟩
  · rw [hlive]
    exact List.mem_cons_of_mem _ hring
  · rw [hlive]
    exact List.mem_cons_self ..

/-- The ring of a queue is the block that `malloc` was offered for it. -/
theorem allocQueue_spec (h : Sound σ L) (hz : Sizes num bufsize)
    (hnow : allocQueue src num bufsize σ = some (ring, σ')) (hg : Granted σ'.heap.calls) :
    (∃ L', Sound σ' L') ∧
      ∃ t real, offer src (ringPages num * PAGESIZE) σ.heap = some (t, real) ∧ ring = t + 48 ∧
        ring + ringPages num * PAGESIZE < 2 ^ 64 := by
  obtain ⟨σ₁, buf, σ₂, hring, hbuf, hbufs⟩ := allocQueue_steps hnow
  have hg₂ := granted_of_allocBufs hbufs hg
  have hg₁ : Granted (poke (σ₁.heap.mem.fill ring 0 (num * 16)) σ₁).heap.calls :=
    granted_of_step hbuf hg₂
  obtain ⟨t, real, L₁, hoffer, hptr, hmem, hs₁⟩ := ring_cleared h hz.ring hring hg₁
  have h₂ := ready_of_array hs₁ hz.ring hmem hbuf hg₂
  have h₃ := h₂.allocBufs (fun i hi => List.mem_range.mp hi) hz.bufs hbufs hg
  exact ⟨h₃.sound, t, real, hoffer, hptr, (hs₁.live_lt hmem).1⟩

/-- Every ring is the block that `malloc` was offered for it when the rings before were there. -/
theorem allocRings_spec (h : Sound σ L) (hz : Sizes num bufsize)
    (hnow : allocRings src num bufsize n σ = some (rings, σ')) (hg : Granted σ'.heap.calls) :
    (∃ L', Sound σ' L') ∧ rings.length = n ∧
      ∀ q < n, ∃ before σq t real, allocRings src num bufsize q σ = some (before, σq) ∧
        offer src (ringPages num * PAGESIZE) σq.heap = some (t, real) ∧
        rings[q]? = some (t + 48) ∧ t + 48 + ringPages num * PAGESIZE < 2 ^ 64 := by
  induction n generalizing rings σ' with
  | zero =>
    obtain ⟨rfl, rfl⟩ := Prod.mk.inj (Option.some.inj hnow)
    exact ⟨⟨L, h⟩, rfl, nofun⟩
  | succ n ih =>
    obtain ⟨⟨rings₁, σ₁⟩, hrings, hnow⟩ := Option.bind_eq_some_iff.mp hnow
    obtain ⟨⟨ring, σ₂⟩, hqueue, hret⟩ := Option.bind_eq_some_iff.mp hnow
    obtain ⟨rfl, rfl⟩ := Prod.mk.inj (Option.some.inj hret)
    have hg₁ := granted_of_allocQueue hqueue hg
    obtain ⟨⟨L₁, hs₁⟩, hlen, hrest⟩ := ih hrings hg₁
    obtain ⟨hs₂, t, real, hoffer, hptr, hlt⟩ := allocQueue_spec hs₁ hz hqueue hg
    refine ⟨hs₂, ?_, fun q hq => ?_⟩
    · rw [List.length_append, hlen, List.length_singleton]
    · rcases Nat.lt_succ_iff_lt_or_eq.mp hq with hq | rfl
      · obtain ⟨before, σq, t, real, hbefore, hoffer, hget, hlt⟩ := hrest q hq
        refine ⟨before, σq, t, real, hbefore, hoffer, ?_, hlt⟩
        rwa [List.getElem?_append_left (by omega)]
      · refine ⟨rings₁, σ₁, t, real, hrings, hoffer, ?_, by rwa [← hptr]⟩
        rw [← hlen, List.getElem?_concat_length, hptr]

/-! ### The registers -/

section
variable {b : Board} {s : Nic} {bal bah tail head len size offset o : Nat} {v : UInt32}
  {ring : Nat → UInt64}

theorem holds_write32 (hb : b.mmioBase ≠ 0) :
    (b.write32 offset v s).holds o = if offset = o then v else s.holds o := by
  rw [Board.write32, if_pos hb]
  show List.foldl _ 0 (s.written ++ [(offset, v)]) = _
  rw [List.foldl_append]
  rfl

variable (hb : b.mmioBase ≠ 0) (hbah : bah = bal + 4) (htail : tail = bal + 0x18)
  (hhead : head = bal + 0x10) (hlen : len = bal + 8)
include hb hbah htail hhead hlen

/-- What a queue's registers get does not reach the address registers of another one. -/
theorem holds_writeRing (s : Nic) (ring : Nat → UInt64) (size q q' : Nat) :
    (b.writeRing bal bah tail head len ring size s q).holds (bal + 0x40 * q') =
        (if q = q' then (ring q).toUInt32 else s.holds (bal + 0x40 * q')) ∧
      (b.writeRing bal bah tail head len ring size s q).holds (bah + 0x40 * q') =
        (if q = q' then (ring q >>> 32).toUInt32 else s.holds (bah + 0x40 * q')) := by
  simp only [Board.writeRing, holds_write32 hb]
  constructor
  · rw [if_neg (by omega), if_neg (by omega), if_neg (by omega), if_neg (by omega)]
    exact if_congr (by omega) rfl rfl
  · rw [if_neg (by omega), if_neg (by omega), if_neg (by omega)]
    by_cases hq : q = q'
    · rw [if_pos (by omega), if_pos hq]
    · rw [if_neg (by omega), if_neg (by omega), if_neg hq]

theorem holds_writeRings (s : Nic) (ring : Nat → UInt64) (size : Nat) (hq : q < n) :
    ((List.range n).foldl (b.writeRing bal bah tail head len ring size) s).holds (bal + 0x40 * q) =
        (ring q).toUInt32 ∧
      ((List.range n).foldl (b.writeRing bal bah tail head len ring size) s).holds (bah + 0x40 * q) =
        (ring q >>> 32).toUInt32 := by
  induction n with
  | zero => exact absurd hq (Nat.not_lt_zero q)
  | succ n ih =>
    rw [List.range_succ, List.foldl_append]
    have hlast := holds_writeRing hb hbah htail hhead hlen
      ((List.range n).foldl (b.writeRing bal bah tail head len ring size) s) ring size n q
    by_cases hn : n = q
    · rw [if_pos hn, if_pos hn, hn] at hlast
      rw [hn]
      exact hlast
    · rw [if_neg hn, if_neg hn] at hlast
      have hrest := ih (by omega)
      exact ⟨hlast.1.trans hrest.1, hlast.2.trans hrest.2⟩

/-- The two halves of an address, without the low 7 bits. -/
theorem ringBase_writeRings (hq : q < n) (hring : ring q = UInt64.ofNat p) (hp : p < 2 ^ 64) :
    ((List.range n).foldl (b.writeRing bal bah tail head len ring size) s).ringBase bal bah q =
      p / 128 * 128 := by
  obtain ⟨hlow, hhigh⟩ := holds_writeRings hb hbah htail hhead hlen s ring size hq
  have hval : (UInt64.ofNat p).toNat = p := by
    rw [UInt64.toNat_ofNat', Nat.mod_eq_of_lt hp]
  have hlow' : (UInt64.ofNat p).toUInt32.toNat = p % 2 ^ 32 := by
    rw [UInt64.toNat_toUInt32, hval]
  have hhigh' : (UInt64.ofNat p >>> 32).toUInt32.toNat = p / 2 ^ 32 := by
    rw [UInt64.toNat_toUInt32, UInt64.toNat_shiftRight, hval]
    show p >>> 32 % 2 ^ 32 = _
    rw [Nat.shiftRight_eq_div_pow]
    omega
  rw [Nic.ringBase, hlow, hhigh, hring, hlow', hhigh']
  omega

end

/-- Where the device looks for a ring that was given to it. -/
theorem Direction.base_write {d : Direction} {b : Board} {s : Nic} (hb : b.mmioBase ≠ 0) (hq : q < n)
    (hring : d.ring b q = UInt64.ofNat p) (hp : p < 2 ^ 64) : d.base (d.write b n s) q = p / 128 * 128 := by
  cases d with
  | xmit => exact ringBase_writeRings hb rfl rfl rfl rfl hq hring hp
  | recv => exact ringBase_writeRings hb rfl rfl rfl rfl hq hring hp

/-- A ring is seen where it is if the low 7 bits of its address are zero. -/
theorem seen_iff (hnum : 0 < num) : Seen (p / 128 * 128) p num ↔ p % 128 = 0 := by
  have hle := le_ringPages num
  constructor
  · intro h
    have := h.same 0 hnum
    omega
  · intro hp
    have hbase : p / 128 * 128 = p := by omega
    rw [hbase]
    exact ⟨fun _ _ => rfl, fun i hi => by omega⟩

/-- Fresh ranges start at pages, so only a queued block can have its tag there. -/
theorem offset_iff_requeued (hsrc : ∀ calls pages, src calls pages % pageSize = 0) (s : Heap) :
    Offset src num s ↔ Requeued num s := by
  constructor
  · intro hoffset
    obtain ⟨t, real, hoffer, ht⟩ := hoffset
    obtain ⟨tag, hsearch, hret⟩ := Option.bind_eq_some_iff.mp hoffer
    by_cases htag : tag = 0
    · rw [if_pos htag] at hret
      obtain ⟨rfl, _⟩ := Prod.mk.inj (Option.some.inj hret)
      have hpage := hsrc (setup s).calls (pagesFor (ringPages num * PAGESIZE + tagSize))
      rw [pageSize] at hpage
      omega
    · rw [if_neg htag] at hret
      obtain ⟨rfl, _⟩ := Prod.mk.inj (Option.some.inj hret)
      exact ⟨tag, hsearch, ht⟩
  · intro hrequeued
    obtain ⟨t, hsearch, ht⟩ := hrequeued
    have ht0 : t ≠ 0 := by omega
    refine ⟨t, (setup s).get t .realSize, ?_, ht⟩
    simp only [offer, hsearch, Option.bind_eq_bind, Option.bind_some, if_neg ht0]

theorem Direction.alloc_eq {c : Config} {d : Direction} :
    d.alloc src c = allocRings src (d.num c) c.bufsize := by
  cases d with
  | xmit => rfl
  | recv => rfl

theorem Direction.num_pos (c : Config) (d : Direction) : 0 < d.num c := by
  have h1 := c.two_le_numTdesc
  have h2 := c.two_le_numRdesc
  cases d with
  | xmit => exact Nat.lt_of_lt_of_le (by decide) h1
  | recv => exact Nat.lt_of_lt_of_le (by decide) h2

/-- Where ranges start at pages, the ring of a queue has an address without low bits, and the device sees
it where the driver has it, exactly if it is `Requeued`, which a ring in a new range never is. For ranges
that start anywhere the tag that `malloc` is about to use decides. -/
theorem rings_seen_iff {d : Direction} {b : Board} {s : Nic} (h : Past σ) (hb : b.mmioBase ≠ 0)
    (hz : Sizes (d.num b.config) b.config.bufsize)
    (hnow : d.alloc src b.config n σ = some (rings, σ')) (hg : Granted σ'.heap.calls)
    (hring : ∀ q < n, d.ring b q = UInt64.ofNat (rings.getD q 0)) (hq : q < n) :
    ∃ before σq, d.alloc src b.config q σ = some (before, σq) ∧
      ((∀ calls pages, src calls pages % pageSize = 0) →
        (rings.getD q 0 % 128 = 0 ↔ Requeued (d.num b.config) σq.heap) ∧
        (Seen (d.base (d.write b n s) q) (rings.getD q 0) (d.num b.config) ↔
          Requeued (d.num b.config) σq.heap)) ∧
      (rings.getD q 0 % 128 = 0 ↔ Offset src (d.num b.config) σq.heap) ∧
      (Seen (d.base (d.write b n s) q) (rings.getD q 0) (d.num b.config) ↔
        Offset src (d.num b.config) σq.heap) := by
  obtain ⟨L, hL⟩ := h.sound
  rw [Direction.alloc_eq] at hnow ⊢
  obtain ⟨_, _, hall⟩ := allocRings_spec hL hz hnow hg
  obtain ⟨before, σq, t, real, hbefore, hoffer, hget, hlt⟩ := hall q hq
  have hgetD : rings.getD q 0 = t + 48 := by rw [List.getD_eq_getElem?_getD, hget, Option.getD_some]
  have hbase := Direction.base_write (s := s) hb hq (hring q hq) (by rw [hgetD]; omega)
  have haligned : rings.getD q 0 % 128 = 0 ↔ Offset src (d.num b.config) σq.heap := by
    rw [hgetD]
    constructor
    · intro hmod
      exact ⟨t, real, hoffer, by omega⟩
    · intro ⟨t', real', hoffer', hmod⟩
      obtain ⟨rfl, _⟩ := Prod.mk.inj (Option.some.inj (hoffer.symm.trans hoffer'))
      omega
  have hseen : Seen (d.base (d.write b n s) q) (rings.getD q 0) (d.num b.config) ↔
      Offset src (d.num b.config) σq.heap := by
    rw [hbase, seen_iff (d.num_pos b.config), haligned]
  refine ⟨before, σq, hbefore, fun hsrc => ?_, haligned, hseen⟩
  rw [haligned, hseen, and_self]
  exact offset_iff_requeued hsrc σq.heap

/-! ### A page layer with enough ranges -/

/-- The log of the page layer that has a range every 16 MiB. -/
def Spaced : List PageCall → Prop
  | [] => True
  | .alloc pages base :: cs => base = apart16 cs pages ∧ pages ≤ 4096 ∧ Spaced cs
  | .free _ _ :: cs => Spaced cs

theorem Spaced.stop_le {cs : List PageCall} (h : Spaced cs) :
    ∀ r ∈ held cs, r.stop ≤ 0x1000000 * (cs.length + 1) := by
  induction cs with
  | nil => exact nofun
  | cons c cs ih =>
    intro r hr
    cases c with
    | alloc pages base =>
      obtain ⟨hbase, hpages, hrest⟩ := h
      rcases List.mem_cons.mp hr with rfl | hr
      · have hstop : (PageRange.mk base pages).stop = base + pages * 4096 := rfl
        rw [hstop, hbase, apart16, List.length_cons]
        omega
      · have := ih hrest r hr
        rw [List.length_cons]
        omega
    | free base pages =>
      have := ih h r (List.mem_filter.mp hr).1
      rw [List.length_cons]
      omega

theorem Spaced.granted {cs : List PageCall} (h : Spaced cs) (hlen : cs.length < 2 ^ 39) : Granted cs := by
  induction cs with
  | nil => trivial
  | cons c cs ih =>
    rw [List.length_cons] at hlen
    cases c with
    | alloc pages base =>
      obtain ⟨hbase, hpages, hrest⟩ := h
      rw [apart16] at hbase
      have hstop : (PageRange.mk base pages).stop = base + pages * 4096 := rfl
      refine ⟨by omega, by rw [hstop]; omega, fun r hr => ?_, ih hrest (by omega)⟩
      have := hrest.stop_le r hr
      exact .inr (by rw [hbase]; exact this)
    | free base pages => exact ih h (by omega)

/-- At most `k` calls of that page layer. -/
structure Supplied (k : Nat) (σ : System) : Prop where
  spaced : Spaced σ.heap.calls
  length_le : σ.heap.calls.length ≤ k

theorem Supplied.granted {k : Nat} (h : Supplied k σ) (hk : k < 2 ^ 39) : Granted σ.heap.calls :=
  h.spaced.granted (Nat.lt_of_le_of_lt h.length_le hk)

theorem small_of_le (hn : n + 48 ≤ 2 ^ 24) : Small n := by
  rw [Alloc.small_iff]
  omega

theorem Supplied.step {k : Nat} (hs : Supplied k σ) (h : Sound σ L) (hn : n + 48 ≤ 2 ^ 24) :
    ∃ p σ', step apart16 (.malloc n) σ = some (p, σ') ∧ Supplied (k + 1) σ' := by
  obtain ⟨p, s', hmalloc, hcalls, _⟩ := h.inv.malloc apart16 (small_of_le hn).sized
  have hnow : Alloc.step apart16 (.malloc n) σ = some (p, ⟨s', note p n σ.live⟩) := by
    simp only [Alloc.step, hmalloc, Option.bind_eq_bind, Option.bind_some]
  refine ⟨p, _, hnow, ?_⟩
  have hlen := hs.length_le
  rcases hcalls with hc | ⟨r, hpages, hbase, hc⟩
  · refine ⟨?_, ?_⟩
    · show Spaced s'.calls
      rw [hc]
      exact hs.spaced
    · show s'.calls.length ≤ k + 1
      rw [hc]
      omega
  · refine ⟨?_, ?_⟩
    · show Spaced s'.calls
      rw [hc]
      refine ⟨hbase, ?_, hs.spaced⟩
      rw [hpages, pagesFor_eq, pageCount]
      omega
    · show s'.calls.length ≤ k + 1
      rw [hc, List.length_cons]
      omega

variable {k : Nat}

theorem Ready.supplied_bufs (h : Ready num ring buf σ) (hs : Supplied k σ) (his : ∀ i ∈ is, i < num)
    (hbytes : bytes + 48 ≤ 2 ^ 24) (hk : k + is.length < 2 ^ 39) :
    ∃ σ', is.foldlM (Ixgbe.allocBuf apart16 bytes ring buf) σ = some σ' ∧
      Supplied (k + is.length) σ' := by
  induction is generalizing σ k with
  | nil => exact ⟨σ, rfl, hs⟩
  | cons i is ih =>
    rw [List.length_cons] at hk ⊢
    obtain ⟨L, hsound⟩ := h.sound
    obtain ⟨p, σ₁, hstep, hs₁⟩ := hs.step hsound hbytes
    have hone : Ixgbe.allocBuf apart16 bytes ring buf σ i = some (Ixgbe.poke
        ((σ₁.heap.mem.store (buf + 8 * i) 8 p).store (ring + 16 * i) 8 p) σ₁) := by
      rw [Ixgbe.allocBuf, hstep]
      rfl
    have hs₂ : Supplied (k + 1) (Ixgbe.poke
        ((σ₁.heap.mem.store (buf + 8 * i) 8 p).store (ring + 16 * i) 8 p) σ₁) :=
      ⟨hs₁.spaced, hs₁.length_le⟩
    have h₂ := h.allocBuf (his i (List.mem_cons_self ..)) (small_of_le hbytes) hone
      (hs₂.granted (by omega))
    obtain ⟨σ', hrest, hs'⟩ := ih h₂ hs₂ (fun j hj => his j (List.mem_cons_of_mem _ hj)) (by omega)
    refine ⟨σ', ?_, by rwa [Nat.add_right_comm, Nat.add_assoc] at hs'⟩
    rw [List.foldlM_cons, hone, Option.bind_eq_bind, Option.bind_some, hrest]

theorem Supplied.allocQueue (hs : Supplied k σ) (h : Sound σ L)
    (hring : ringPages num * PAGESIZE + 48 ≤ 2 ^ 24) (hbufs : bufPages bufsize * PAGESIZE + 48 ≤ 2 ^ 24)
    (hk : k + num + 2 < 2 ^ 39) :
    ∃ ring σ', allocQueue apart16 num bufsize σ = some (ring, σ') ∧ Supplied (k + num + 2) σ' := by
  have hle := le_ringPages num
  obtain ⟨ring, σ₁, hstep, hs₁⟩ := hs.step h hring
  obtain ⟨_, _, L₁, _, _, hmem, hcleared⟩ :=
    ring_cleared h (small_of_le hring) hstep (hs₁.granted (by omega))
  have hs₁' : Supplied (k + 1) (poke (σ₁.heap.mem.fill ring 0 (num * 16)) σ₁) :=
    ⟨hs₁.spaced, hs₁.length_le⟩
  obtain ⟨buf, σ₂, hbuf, hs₂⟩ := hs₁'.step hcleared (n := num * 8) (by omega)
  have hready := ready_of_array hcleared (small_of_le hring) hmem hbuf (hs₂.granted (by omega))
  have hlen : (List.range num).length = num := List.length_range
  obtain ⟨σ', hrest, hs'⟩ := hready.supplied_bufs hs₂ (fun i hi => List.mem_range.mp hi) hbufs
    (by rw [hlen]; omega)
  refine ⟨ring, σ', ?_, ?_⟩
  · simp only [Ixgbe.allocQueue, hstep, hbuf, hrest, Option.bind_eq_bind, Option.bind_some]
  · rw [hlen] at hs'
    exact ⟨hs'.spaced, hs'.length_le.trans (by omega)⟩

/-- There are ranges for all rings. -/
theorem Supplied.allocRings (hs : Supplied 0 σ) (h : Sound σ L)
    (hring : ringPages num * PAGESIZE + 48 ≤ 2 ^ 24) (hbufs : bufPages bufsize * PAGESIZE + 48 ≤ 2 ^ 24)
    (hn : n * (num + 2) < 2 ^ 39) :
    ∃ rings σ', allocRings apart16 num bufsize n σ = some (rings, σ') ∧ Supplied (n * (num + 2)) σ' := by
  induction n with
  | zero => exact ⟨[], σ, rfl, by rwa [Nat.zero_mul]⟩
  | succ n ih =>
    rw [Nat.succ_mul] at hn ⊢
    obtain ⟨rings, σ₁, hrings, hs₁⟩ := ih (by omega)
    obtain ⟨⟨L₁, h₁⟩, _⟩ := allocRings_spec h ⟨small_of_le hring, small_of_le hbufs⟩ hrings
      (hs₁.granted (by omega))
    obtain ⟨ring, σ₂, hqueue, hs₂⟩ := hs₁.allocQueue h₁ hring hbufs (by omega)
    refine ⟨rings ++ [ring], σ₂, ?_, hs₂⟩
    simp only [Ixgbe.allocRings, hrings, hqueue, Option.bind_eq_bind, Option.bind_some]

/-- The driver's first call, before which nobody has allocated anything. -/
theorem first_rings (d : Direction) : ∃ rings σ',
    d.alloc apart16 defaultConfig IXGBE_NUM_QUEUE_PAIRS (boot fun _ => 0) = some (rings, σ') ∧
      Granted σ'.heap.calls := by
  have hnum : d.num defaultConfig = 256 := by
    cases d with
    | xmit => rfl
    | recv => rfl
  have hs : Supplied 0 (boot fun _ => 0) := ⟨trivial, le_rfl⟩
  obtain ⟨rings, σ', hnow, hs'⟩ : ∃ rings σ', allocRings apart16 256 2048 IXGBE_NUM_QUEUE_PAIRS
      (boot fun _ => 0) = some (rings, σ') ∧ Supplied (IXGBE_NUM_QUEUE_PAIRS * (256 + 2)) σ' :=
    hs.allocRings (Sound.boot fun _ => 0) (by decide) (by decide) (by decide)
  refine ⟨rings, σ', ?_, hs'.granted (by decide)⟩
  rw [Direction.alloc_eq, hnum]
  exact hnow

theorem sizes_default (d : Direction) : Sizes (d.num defaultConfig) defaultConfig.bufsize := by
  cases d with
  | xmit => exact ⟨by decide, by decide⟩
  | recv => exact ⟨by decide, by decide⟩

/-- A device with these rings for both directions, whose registers read zero. -/
def given (rings : List Nat) : Board where
  config := defaultConfig
  useJumboframe := false
  jumboframeSize := 9000
  tdescRing q := UInt64.ofNat (rings.getD q 0)
  rdescRing q := UInt64.ofNat (rings.getD q 0)
  mmioBase := 0xf0000000
  master _ := 0
  resetCtrl _ := 0
  resetStatus _ := 0
  links _ := 0
  txdctl _ _ := 0
  rxdctl _ _ := 0
  reg _ _ := 0

theorem rings_seen_first : ∃ rings σ' before σq,
    Direction.xmit.alloc apart16 defaultConfig IXGBE_NUM_QUEUE_PAIRS (boot fun _ => 0) =
        some (rings, σ') ∧ Granted σ'.heap.calls ∧
      Direction.xmit.alloc apart16 defaultConfig 0 (boot fun _ => 0) = some (before, σq) ∧
      (rings.getD 0 0 % 128 = 0 ↔ Requeued 256 σq.heap) ∧
      (Seen (Direction.xmit.base (Direction.xmit.write (given rings) IXGBE_NUM_QUEUE_PAIRS
        ⟨false, false, [], 0, 0⟩) 0) (rings.getD 0 0) 256 ↔ Requeued 256 σq.heap) ∧
      (rings.getD 0 0 % 128 = 0 ↔ Offset apart16 256 σq.heap) ∧
      (Seen (Direction.xmit.base (Direction.xmit.write (given rings) IXGBE_NUM_QUEUE_PAIRS
        ⟨false, false, [], 0, 0⟩) 0) (rings.getD 0 0) 256 ↔ Offset apart16 256 σq.heap) := by
  obtain ⟨rings, σ', hnow, hg⟩ := first_rings .xmit
  have hmmio : (given rings).mmioBase ≠ 0 := show (0xf0000000 : UInt64) ≠ 0 by decide
  obtain ⟨before, σq, hbefore, hqueued, haligned, hseen⟩ := rings_seen_iff (d := .xmit)
    (b := given rings) (s := ⟨false, false, [], 0, 0⟩) (.boot _) hmmio (sizes_default .xmit) hnow hg
    (fun _ _ => rfl) (show 0 < IXGBE_NUM_QUEUE_PAIRS by decide)
  have hpaged : ∀ calls pages, apart16 calls pages % pageSize = 0 := by
    intro calls pages
    rw [apart16, pageSize]
    omega
  obtain ⟨halignedR, hseenR⟩ := hqueued hpaged
  exact ⟨rings, σ', before, σq, hnow, hg, hbefore, halignedR, hseenR, haligned, hseen⟩

/-- The first request is offered fresh pages. -/
theorem offer_first : offer apart16 4096 (boot fun _ => 0).heap = some (0x1000000, 65536) := by
  rw [offer, search_boot]
  decide

/-- The first ring is behind the header of the first pages, where the device takes it to begin. -/
theorem header_read : ∃ rings σ',
    ixgbeAllocTdesc apart16 defaultConfig IXGBE_NUM_QUEUE_PAIRS (boot fun _ => 0) = some (rings, σ') ∧
      Granted σ'.heap.calls ∧ rings.getD 0 0 = 0x1000030 ∧
      ∀ s, Direction.xmit.base ((given rings).ixgbeWriteTdesc IXGBE_NUM_QUEUE_PAIRS s) 0 = 0x1000000 ∧
        ¬ Seen (Direction.xmit.base ((given rings).ixgbeWriteTdesc IXGBE_NUM_QUEUE_PAIRS s) 0)
          (rings.getD 0 0) defaultConfig.numTdesc := by
  obtain ⟨rings, σ', hnow, hg⟩ := first_rings .xmit
  have hnow : ixgbeAllocTdesc apart16 defaultConfig IXGBE_NUM_QUEUE_PAIRS (boot fun _ => 0) =
    some (rings, σ') := hnow
  obtain ⟨_, _, hall⟩ := allocRings_spec (Sound.boot fun _ => 0) (sizes_default .xmit) hnow hg
  obtain ⟨before, σq, t, real, hbefore, hoffer, hget, _⟩ := hall 0 (by decide)
  obtain ⟨_, rfl⟩ := Prod.mk.inj (Option.some.inj hbefore)
  obtain ⟨rfl, _⟩ := Prod.mk.inj (Option.some.inj (offer_first.symm.trans hoffer))
  have hgetD : rings.getD 0 0 = 0x1000030 := by
    rw [List.getD_eq_getElem?_getD, hget, Option.getD_some]
  refine ⟨rings, σ', hnow, hg, hgetD, fun s => ?_⟩
  have hring : (given rings).tdescRing 0 = UInt64.ofNat 0x1000030 := by
    rw [← hgetD]
    rfl
  have hmmio : (given rings).mmioBase ≠ 0 := show (0xf0000000 : UInt64) ≠ 0 by decide
  have hbase : Direction.xmit.base ((given rings).ixgbeWriteTdesc IXGBE_NUM_QUEUE_PAIRS s) 0 = _ :=
    Direction.base_write (d := .xmit) hmmio (by decide) hring (by decide)
  refine ⟨hbase, fun hseen => ?_⟩
  have hsame := hseen.same 0 (by decide)
  rw [hbase, hgetD] at hsame
  exact absurd hsame (by decide)

end Kvi.Ixgbe
