import Kvi.Alloc.Tenants
import Kvi.Ixgbe.Rings

/-! What goes through memory.

The driver copies a frame to the buffer whose address its array notes, the card reads and
writes the buffers whose addresses it finds in the descriptors, and both write the second
half of descriptors. All of that memory came from `malloc`. Here
the rings are followed from the calls that allocate them to any later state, with calls of
other clients in between: the addresses stay those of buffers that belong to one queue
each, and to the other clients the card is not there (`transfers_hidden`). That the card
looks for the rings where the driver has them is what is asked of it here. -/
namespace Kvi.Ixgbe
open Alloc

/-- What a queue has: its ring, the array of its buffers' addresses, and the buffers. -/
structure Kit where
  num : Nat
  ring : Nat
  buf : Nat
  bufs : List Nat

namespace Kit

def blocks (bufsize : Nat) (k : Kit) : List Block :=
  ⟨k.ring, ringPages k.num * PAGESIZE⟩ :: ⟨k.buf, k.num * 8⟩ ::
    k.bufs.map fun v => ⟨v, bufPages bufsize * PAGESIZE⟩

def ptrs (k : Kit) : List Nat := k.ring :: k.buf :: k.bufs

/-- Each descriptor and each entry of the array has the address of its buffer. -/
structure Noted (k : Kit) (m : Memory) : Prop where
  length : k.bufs.length = k.num
  descs : ∀ i < k.num, m.load (k.ring + 16 * i) 8 = k.bufs.getD i 0
  array : ∀ i < k.num, m.load (k.buf + 8 * i) 8 = k.bufs.getD i 0

/-- The second halves of the descriptors are zero. -/
def Blank (k : Kit) (m : Memory) : Prop := ∀ i < k.num, m.load (k.ring + 16 * i + 8) 8 = 0

end Kit

def blocks (bufsize : Nat) (ks : List Kit) : List Block := ks.flatMap (Kit.blocks bufsize)

/-- The queues have all that they need, and nothing twice. -/
structure Equipped (bufsize : Nat) (ks : List Kit) (σ : System) : Prop where
  tenant : Tenant (blocks bufsize ks) σ
  apart : (ks.flatMap Kit.ptrs).Nodup
  noted : ∀ k ∈ ks, k.Noted σ.heap.mem

/-- A step of another client, or an access to the memory of a queue. The card looks for the ring of a
queue at `base`. -/
inductive Move (src : PageSource) (bufsize : Nat) (ks : List Kit) (base : Kit → Nat) :
    System → Option (Op × Nat) → System → Prop where
  | others {σ σ' : System} {op : Op} {p : Nat} (legal : Legal op σ) (served : Served src op σ)
      (spares : Spares (blocks bufsize ks) op) (now : step src op σ = some (p, σ')) :
      Move src bufsize ks base σ (some (op, p)) σ'
  /-- The card writes a byte of a frame. -/
  | received {σ : System} {k : Kit} {i j : Nat} {v : UInt8} (kit : k ∈ ks) (desc : i < k.num)
      (inside : j < bufsize) : Move src bufsize ks base σ none
        (poke (Function.update σ.heap.mem (σ.heap.mem.load (base k + 16 * i) 8 + j) v) σ)
  /-- The card is done with a descriptor. -/
  | reported {σ : System} {k : Kit} {i v : Nat} (kit : k ∈ ks) (desc : i < k.num) :
      Move src bufsize ks base σ none (poke (σ.heap.mem.store (base k + 16 * i + 8) 8 v) σ)
  /-- The driver copies a byte of a frame. -/
  | copied {σ : System} {k : Kit} {i j : Nat} {v : UInt8} (kit : k ∈ ks) (desc : i < k.num)
      (inside : j < bufsize) : Move src bufsize ks base σ none
        (poke (Function.update σ.heap.mem (σ.heap.mem.load (k.buf + 8 * i) 8 + j) v) σ)
  /-- The driver fills a descriptor in. -/
  | described {σ : System} {k : Kit} {i v : Nat} (kit : k ∈ ks) (desc : i < k.num) :
      Move src bufsize ks base σ none (poke (σ.heap.mem.store (k.ring + 16 * i + 8) 8 v) σ)

variable {src : PageSource} {σ σ' σ₀ σ₁ σ₂ : System} {L : Layout} {k k' : Kit} {ks ks' : List Kit} {m m' : Memory}
  {bufsize num ring buf i j n a v : Nat} {vs rings : List Nat} {base : Kit → Nat} {b : Block}
  {e : Option (Op × Nat)} {acts : List (Option (Op × Nat))}

/-! ### The memory of a queue -/

theorem le_bufPages (bufsize : Nat) : bufsize ≤ bufPages bufsize * PAGESIZE := by
  unfold bufPages PAGESIZE
  omega

theorem map_ptr_blocks : (blocks bufsize ks).map Block.ptr = ks.flatMap Kit.ptrs := by
  rw [blocks, List.map_flatMap]
  congr 1
  funext k
  simp [Kit.blocks, Kit.ptrs, Function.comp_def]

theorem mem_blocks (hk : k ∈ ks) (hb : b ∈ k.blocks bufsize) : b ∈ blocks bufsize ks :=
  List.mem_flatMap.mpr ⟨k, hk, hb⟩

namespace Kit

theorem ring_mem : ⟨k.ring, ringPages k.num * PAGESIZE⟩ ∈ k.blocks bufsize := List.mem_cons_self ..

theorem buf_mem : ⟨k.buf, k.num * 8⟩ ∈ k.blocks bufsize := List.mem_cons_of_mem _ (List.mem_cons_self ..)

theorem bufs_mem (hv : v ∈ k.bufs) : ⟨v, bufPages bufsize * PAGESIZE⟩ ∈ k.blocks bufsize :=
  List.mem_cons_of_mem _ (List.mem_cons_of_mem _ (List.mem_map_of_mem hv))

/-- Other bytes of the ring may have changed. -/
theorem Noted.congr (h : k.Noted m)
    (hring : ∀ i < k.num, ∀ x, k.ring + 16 * i ≤ x → x < k.ring + 16 * i + 8 → m' x = m x)
    (hbuf : ∀ x, k.buf ≤ x → x < k.buf + k.num * 8 → m' x = m x) : k.Noted m' := by
  refine ⟨h.length, fun i hi => ?_, fun i hi => ?_⟩
  · rw [Memory.load_congr (hring i hi), h.descs i hi]
  · rw [Memory.load_congr fun x hlo hhi => hbuf x (by omega) (by omega), h.array i hi]

/-- Nothing of the ring or the array has changed. -/
theorem Noted.same (h : k.Noted m)
    (hm : ∀ b ∈ k.blocks bufsize, ∀ x, b.ptr ≤ x → x < b.ptr + b.size → m' x = m x) : k.Noted m' := by
  have hle := le_ringPages k.num
  refine h.congr (fun i hi x hlo hhi => ?_) fun x hlo hhi => hm _ buf_mem x hlo hhi
  exact hm _ ring_mem x (by show k.ring ≤ x; omega) (by show x < k.ring + ringPages k.num * PAGESIZE; omega)

theorem Blank.same (h : k.Blank m)
    (hm : ∀ b ∈ k.blocks bufsize, ∀ x, b.ptr ≤ x → x < b.ptr + b.size → m' x = m x) : k.Blank m' := by
  have hle := le_ringPages k.num
  intro i hi
  rw [← h i hi]
  refine Memory.load_congr fun x hlo hhi => ?_
  exact hm _ ring_mem x (by show k.ring ≤ x; omega) (by show x < k.ring + ringPages k.num * PAGESIZE; omega)

end Kit

/-! ### Every access -/

namespace Equipped

/-- An address belongs to one queue. -/
theorem kit_unique (h : Equipped bufsize ks σ) (hk : k ∈ ks) (hk' : k' ∈ ks) (ha : a ∈ k.ptrs)
    (ha' : a ∈ k'.ptrs) : k = k' := by
  by_contra hne
  have : Std.Symm (Function.onFun List.Disjoint Kit.ptrs) := ⟨fun _ _ hd => hd.symm⟩
  exact (List.nodup_flatMap.mp h.apart).2.forall hk hk' hne ha ha'

theorem nodup_kit (h : Equipped bufsize ks σ) (hk : k ∈ ks) : k.ptrs.Nodup :=
  (List.nodup_flatMap.mp h.apart).1 k hk

/-- A buffer is no ring and no array. -/
theorem buffer_ne (h : Equipped bufsize ks σ) (hk : k ∈ ks) (hk' : k' ∈ ks) (hv : v ∈ k.bufs) :
    v ≠ k'.ring ∧ v ≠ k'.buf := by
  have hmem : v ∈ k.ptrs := List.mem_cons_of_mem _ (List.mem_cons_of_mem _ hv)
  have hnd := h.nodup_kit hk
  rw [Kit.ptrs, List.nodup_cons, List.nodup_cons] at hnd
  obtain ⟨hring, hbuf, _⟩ := hnd
  constructor
  · intro heq
    obtain rfl := h.kit_unique hk hk' hmem (heq ▸ List.mem_cons_self ..)
    exact hring (heq ▸ List.mem_cons_of_mem _ hv)
  · intro heq
    obtain rfl := h.kit_unique hk hk' hmem (heq ▸ List.mem_cons_of_mem _ (List.mem_cons_self ..))
    exact hbuf (heq ▸ hv)

/-- A ring is no array, and the ring of no other queue. -/
theorem ring_ne (h : Equipped bufsize ks σ) (hk : k ∈ ks) (hk' : k' ∈ ks) :
    k.ring ≠ k'.buf ∧ (k.ring = k'.ring → k = k') := by
  have hmem : k.ring ∈ k.ptrs := List.mem_cons_self ..
  have hnd := h.nodup_kit hk
  rw [Kit.ptrs, List.nodup_cons] at hnd
  constructor
  · intro heq
    obtain rfl := h.kit_unique hk hk' hmem (heq ▸ List.mem_cons_of_mem _ (List.mem_cons_self ..))
    exact hnd.1 (heq ▸ List.mem_cons_self ..)
  · exact fun heq => h.kit_unique hk hk' hmem (heq ▸ List.mem_cons_self ..)

theorem blocks_apart (h : Equipped bufsize ks σ) {b c : Block} (hb : b ∈ blocks bufsize ks)
    (hc : c ∈ blocks bufsize ks) (hne : b.ptr ≠ c.ptr) :
    b.ptr + b.size ≤ c.ptr ∨ c.ptr + c.size ≤ b.ptr := by
  obtain ⟨L, hL⟩ := h.tenant.sound
  exact hL.blocks_apart (h.tenant.live b hb) (h.tenant.live c hc) hne

/-- A buffer is written. -/
theorem buffer (h : Equipped bufsize ks σ) (hk : k ∈ ks) (hv : v ∈ k.bufs)
    (hm : ∀ x, x < v ∨ v + bufPages bufsize * PAGESIZE ≤ x → m x = σ.heap.mem x) :
    Tenancy src (blocks bufsize ks) σ none (poke m σ) ∧ Equipped bufsize ks (poke m σ) := by
  have hmem : ⟨v, bufPages bufsize * PAGESIZE⟩ ∈ blocks bufsize ks := mem_blocks hk (Kit.bufs_mem hv)
  refine ⟨.own hmem hm, (h.tenant.own hmem hm).1, h.apart, fun k' hk' => ?_⟩
  obtain ⟨hring, hbuf⟩ := h.buffer_ne hk hk' hv
  have hle := le_ringPages k'.num
  have hd := h.blocks_apart hmem (mem_blocks hk' Kit.ring_mem) hring
  have hd' := h.blocks_apart hmem (mem_blocks hk' Kit.buf_mem) hbuf
  dsimp only at hd hd'
  exact (h.noted k' hk').congr (fun i hi x hlo hhi => hm x (by omega)) fun x hlo hhi => hm x (by omega)

/-- The second half of a descriptor is written. -/
theorem descriptor (h : Equipped bufsize ks σ) (hk : k ∈ ks) (hi : i < k.num) :
    Tenancy src (blocks bufsize ks) σ none (poke (σ.heap.mem.store (k.ring + 16 * i + 8) 8 v) σ) ∧
      Equipped bufsize ks (poke (σ.heap.mem.store (k.ring + 16 * i + 8) 8 v) σ) := by
  have hmem : ⟨k.ring, ringPages k.num * PAGESIZE⟩ ∈ blocks bufsize ks := mem_blocks hk Kit.ring_mem
  have hle := le_ringPages k.num
  have hm : ∀ x, x < k.ring ∨ k.ring + ringPages k.num * PAGESIZE ≤ x →
      σ.heap.mem.store (k.ring + 16 * i + 8) 8 v x = σ.heap.mem x :=
    fun x hx => Memory.store_outside (by omega)
  refine ⟨.own hmem hm, (h.tenant.own hmem hm).1, h.apart, fun k' hk' => ?_⟩
  obtain ⟨hbuf, hring⟩ := h.ring_ne hk hk'
  have hd' := h.blocks_apart hmem (mem_blocks hk' Kit.buf_mem) hbuf
  dsimp only at hd'
  refine (h.noted k' hk').congr (fun i' hi' x hlo hhi => ?_) fun x hlo hhi => hm x (by omega)
  by_cases heq : k.ring = k'.ring
  · rw [heq]
    exact Memory.store_outside (by omega)
  · have hle' := le_ringPages k'.num
    have hd := h.blocks_apart hmem (mem_blocks hk' Kit.ring_mem) heq
    dsimp only at hd
    exact hm x (by omega)

/-- A byte of a buffer, whose address is read from memory, is written. -/
theorem byte {w : UInt8} (h : Equipped bufsize ks σ) (hk : k ∈ ks) (hi : i < k.num) (hj : j < bufsize)
    (ha : a = k.bufs.getD i 0) :
    Tenancy src (blocks bufsize ks) σ none (poke (Function.update σ.heap.mem (a + j) w) σ) ∧
      Equipped bufsize ks (poke (Function.update σ.heap.mem (a + j) w) σ) := by
  have hle := le_bufPages bufsize
  have hv : a ∈ k.bufs := by
    have hlen := (h.noted k hk).length
    rw [ha, List.getD_eq_getElem?_getD, List.getElem?_eq_getElem (by omega), Option.getD_some]
    exact List.getElem_mem _
  exact h.buffer hk hv fun x hx => Function.update_of_ne (by omega) ..

/-- Every step keeps the queues as they are, and is one that does not concern the others. -/
theorem step (h : Equipped bufsize ks σ) (hseen : ∀ k ∈ ks, Seen (base k) k.ring k.num)
    (hnow : Move src bufsize ks base σ e σ') :
    Tenancy src (blocks bufsize ks) σ e σ' ∧ Equipped bufsize ks σ' := by
  cases hnow with
  | others legal served spares now =>
    obtain ⟨htenant, _, hsame⟩ := h.tenant.others legal served spares now
    exact ⟨.others legal served spares now, htenant, h.apart,
      fun k hk => (h.noted k hk).same fun b hb => hsame b (mem_blocks hk hb)⟩
  | received kit desc inside =>
    refine h.byte kit desc inside ?_
    rw [(hseen _ kit).same _ desc, (h.noted _ kit).descs _ desc]
  | reported kit desc =>
    rw [(hseen _ kit).same _ desc]
    exact h.descriptor kit desc
  | copied kit desc inside => exact h.byte kit desc inside ((h.noted _ kit).array _ desc)
  | described kit desc => exact h.descriptor kit desc

theorem run (h : Equipped bufsize ks σ) (hseen : ∀ k ∈ ks, Seen (base k) k.ring k.num)
    (hrun : Steps (Move src bufsize ks base) σ acts σ') :
    Steps (Tenancy src (blocks bufsize ks)) σ acts σ' ∧ Equipped bufsize ks σ' := by
  induction hrun with
  | nil σ => exact ⟨.nil σ, h⟩
  | cons head _ ih =>
    obtain ⟨hstep, h₁⟩ := h.step hseen head
    obtain ⟨hrest, h'⟩ := ih h₁
    exact ⟨.cons hstep hrest, h'⟩

end Equipped

/-! ### Link-up -/

/-- What is there of a queue when `vs` are allocated. -/
structure Filling (bufsize num : Nat) (σ₀ σ : System) (ring buf : Nat) (vs : List Nat) : Prop where
  gains : Gains (Kit.blocks bufsize ⟨num, ring, buf, vs⟩) σ₀ σ
  descs : ∀ i < vs.length, σ.heap.mem.load (ring + 16 * i) 8 = vs.getD i 0
  array : ∀ i < vs.length, σ.heap.mem.load (buf + 8 * i) 8 = vs.getD i 0
  blank : ∀ i < num, σ.heap.mem.load (ring + 16 * i + 8) 8 = 0

/-- What there is after an allocation is what there was, and these queues. -/
structure Fitted (bufsize : Nat) (ks : List Kit) (σ σ' : System) : Prop where
  gains : Gains (blocks bufsize ks) σ σ'
  noted : ∀ k ∈ ks, k.Noted σ'.heap.mem
  blank : ∀ k ∈ ks, k.Blank σ'.heap.mem

theorem getD_concat_lt (hi : i < vs.length) : (vs ++ [v]).getD i 0 = vs.getD i 0 := by
  rw [List.getD_eq_getElem?_getD, List.getElem?_append_left hi, ← List.getD_eq_getElem?_getD]

theorem getD_concat_length : (vs ++ [v]).getD vs.length 0 = v := by
  rw [List.getD_eq_getElem?_getD, List.getElem?_concat_length, Option.getD_some]

namespace Filling

/-- One buffer more. -/
theorem allocBuf (h : Filling bufsize num σ₀ σ ring buf vs) (hi : vs.length < num)
    (hbytes : Small (bufPages bufsize * PAGESIZE))
    (hnow : Ixgbe.allocBuf src (bufPages bufsize * PAGESIZE) ring buf σ vs.length = some σ')
    (hg : Granted σ'.heap.calls) : ∃ v, Filling bufsize num σ₀ σ' ring buf (vs ++ [v]) := by
  obtain ⟨L, hL⟩ := h.gains.sound
  obtain ⟨v, σ₁, hstep, rfl⟩ := allocBuf_steps hnow
  have hnew := Gains.malloc hL hbytes hstep hg
  have hperm : List.Perm ([⟨v, bufPages bufsize * PAGESIZE⟩] ++ Kit.blocks bufsize ⟨num, ring, buf, vs⟩)
      (Kit.blocks bufsize ⟨num, ring, buf, vs ++ [v]⟩) := by
    simp only [Kit.blocks, List.map_append, List.map_cons, List.map_nil]
    exact List.perm_append_comm
  have hgains := (h.gains.trans hnew).perm hperm
  obtain ⟨L₁, hL₁⟩ := hgains.sound
  obtain ⟨k, hk⟩ : ∃ k : Kit, k = ⟨num, ring, buf, vs ++ [v]⟩ := ⟨_, rfl⟩
  rw [← hk] at hgains
  have hring : ⟨ring, ringPages num * PAGESIZE⟩ ∈ k.blocks bufsize := hk ▸ Kit.ring_mem
  have hbuf : ⟨buf, num * 8⟩ ∈ k.blocks bufsize := hk ▸ Kit.buf_mem
  have hv : ⟨v, bufPages bufsize * PAGESIZE⟩ ∈ k.blocks bufsize := hk ▸ Kit.bufs_mem (by simp)
  have hlt := (hL₁.live_lt (hgains.tenant.live _ hv)).1
  dsimp only at hlt
  have hle := le_ringPages num
  have hne : ring ≠ buf := by
    have hnd := hgains.nodup
    rw [hk, List.map_append, Kit.blocks, List.map_cons, List.map_cons] at hnd
    intro heq
    simp [heq] at hnd
  have hd := hL₁.blocks_apart (hgains.tenant.live _ hring) (hgains.tenant.live _ hbuf) hne
  dsimp only at hd
  -- the bytes of the ring and of the array are as they were before the allocation
  have hring₁ : ∀ x, ring ≤ x → x < ring + ringPages num * PAGESIZE → σ₁.heap.mem x = σ.heap.mem x :=
    hnew.same _ (h.gains.tenant.live _ Kit.ring_mem)
  have hbuf₁ : ∀ x, buf ≤ x → x < buf + num * 8 → σ₁.heap.mem x = σ.heap.mem x :=
    hnew.same _ (h.gains.tenant.live _ Kit.buf_mem)
  have hlen : (vs ++ [v]).length = vs.length + 1 := by simp
  have hv8 : v % 256 ^ 8 = v := Nat.mod_eq_of_lt (by omega)
  refine ⟨v, ?_, fun i hi' => ?_, fun i hi' => ?_, fun i hi' => ?_⟩
  · rw [← hk]
    have hgains₁ := hgains.written (m := σ₁.heap.mem.store (buf + 8 * vs.length) 8 v) hbuf
      fun x hx => Memory.store_outside (by dsimp only at hx; omega)
    exact hgains₁.written hring fun x hx => Memory.store_outside (by dsimp only at hx; omega)
  · show ((σ₁.heap.mem.store _ 8 v).store _ 8 v).load _ 8 = _
    rcases Nat.lt_succ_iff_lt_or_eq.mp (hlen ▸ hi') with hi'' | rfl
    · rw [Memory.load_store_disjoint (by omega), Memory.load_store_disjoint (by omega), getD_concat_lt hi'',
        ← h.descs i hi'']
      exact Memory.load_congr fun x hlo hhi => hring₁ x (by omega) (by omega)
    · rw [Memory.load_store_same, hv8, getD_concat_length]
  · show ((σ₁.heap.mem.store _ 8 v).store _ 8 v).load _ 8 = _
    rw [Memory.load_store_disjoint (by omega)]
    rcases Nat.lt_succ_iff_lt_or_eq.mp (hlen ▸ hi') with hi'' | rfl
    · rw [Memory.load_store_disjoint (by omega), getD_concat_lt hi'', ← h.array i hi'']
      exact Memory.load_congr fun x hlo hhi => hbuf₁ x (by omega) (by omega)
    · rw [Memory.load_store_same, hv8, getD_concat_length]
  · show ((σ₁.heap.mem.store _ 8 v).store _ 8 v).load _ 8 = _
    rw [Memory.load_store_disjoint (by omega), Memory.load_store_disjoint (by omega), ← h.blank i hi']
    exact Memory.load_congr fun x hlo hhi => hring₁ x (by omega) (by omega)

/-- All buffers that are left. -/
theorem allocBufs (h : Filling bufsize num σ₀ σ ring buf vs) (hn : vs.length + n ≤ num)
    (hbytes : Small (bufPages bufsize * PAGESIZE))
    (hnow : (List.range' vs.length n).foldlM (Ixgbe.allocBuf src (bufPages bufsize * PAGESIZE) ring buf) σ =
      some σ') (hg : Granted σ'.heap.calls) :
    ∃ ws, ws.length = vs.length + n ∧ Filling bufsize num σ₀ σ' ring buf ws := by
  induction n generalizing σ vs with
  | zero =>
    obtain rfl := Option.some.inj hnow
    exact ⟨vs, rfl, h⟩
  | succ n ih =>
    rw [List.range'_succ, List.foldlM_cons] at hnow
    obtain ⟨σ₁, hone, hrest⟩ := Option.bind_eq_some_iff.mp hnow
    obtain ⟨v, h₁⟩ := h.allocBuf (by omega) hbytes hone (granted_of_allocBufs hrest hg)
    have hlen : (vs ++ [v]).length = vs.length + 1 := by simp
    rw [← hlen] at hrest
    obtain ⟨ws, hws, h'⟩ := ih h₁ (by omega) hrest
    exact ⟨ws, by omega, h'⟩

/-- The ring is cleared, and the array is there. -/
theorem start (h : Sound σ L) (hz : Sizes num bufsize)
    (hring : step src (.malloc (ringPages num * PAGESIZE)) σ = some (ring, σ₁))
    (hbuf : step src (.malloc (num * 8)) (poke (σ₁.heap.mem.fill ring 0 (num * 16)) σ₁) = some (buf, σ₂))
    (hg : Granted σ₂.heap.calls) : Filling bufsize num σ σ₂ ring buf [] := by
  have hle := le_ringPages num
  have hg₁ : Granted (poke (σ₁.heap.mem.fill ring 0 (num * 16)) σ₁).heap.calls := granted_of_step hbuf hg
  have hnew : Gains [⟨ring, ringPages num * PAGESIZE⟩] σ (poke (σ₁.heap.mem.fill ring 0 (num * 16)) σ₁) := by
    refine (Gains.malloc h hz.ring hring hg₁).written (List.mem_singleton_self _) fun x hx => ?_
    dsimp only at hx
    rw [Memory.fill_apply, if_neg (by omega)]
  obtain ⟨L₁, hL₁⟩ := hnew.sound
  have hnew' := Gains.malloc hL₁ (hz.ring.le (by omega)) hbuf hg
  refine ⟨(hnew.trans hnew').perm (List.Perm.swap ..), nofun, nofun, fun i hi => ?_⟩
  refine Memory.load_zero fun j hj => ?_
  have hsame := hnew'.same _ (hnew.tenant.live _ (List.mem_singleton_self _)) (ring + 16 * i + 8 + j)
  dsimp only at hsame
  rw [hsame (by omega) (by omega)]
  show σ₁.heap.mem.fill ring 0 (num * 16) _ = 0
  rw [Memory.fill_apply, if_pos (by omega)]

end Filling

namespace Fitted

theorem trans (h : Fitted bufsize ks σ σ₁) (h' : Fitted bufsize ks' σ₁ σ₂) :
    Fitted bufsize (ks ++ ks') σ σ₂ := by
  have hsame : ∀ k ∈ ks, ∀ b ∈ k.blocks bufsize, ∀ x, b.ptr ≤ x → x < b.ptr + b.size →
      σ₂.heap.mem x = σ₁.heap.mem x :=
    fun k hk b hb => h'.gains.same b (h.gains.tenant.live b (mem_blocks hk hb))
  refine ⟨?_, fun k hk => ?_, fun k hk => ?_⟩
  · rw [blocks, List.flatMap_append]
    exact (h.gains.trans h'.gains).perm List.perm_append_comm
  · rcases List.mem_append.mp hk with hk | hk
    · exact (h.noted k hk).same (hsame k hk)
    · exact h'.noted k hk
  · rcases List.mem_append.mp hk with hk | hk
    · exact (h.blank k hk).same (hsame k hk)
    · exact h'.blank k hk

theorem equipped (h : Fitted bufsize ks σ σ') : Equipped bufsize ks σ' := by
  have hnd := h.gains.nodup
  rw [List.map_append, map_ptr_blocks] at hnd
  exact ⟨h.gains.tenant, hnd.of_append_left, h.noted⟩

/-- One queue. -/
theorem allocQueue (h : Sound σ L) (hz : Sizes num bufsize)
    (hnow : Ixgbe.allocQueue src num bufsize σ = some (ring, σ')) (hg : Granted σ'.heap.calls) :
    ∃ k : Kit, k.ring = ring ∧ k.num = num ∧ Fitted bufsize [k] σ σ' := by
  obtain ⟨σ₁, buf, σ₂, hring, hbuf, hbufs⟩ := allocQueue_steps hnow
  have hstart := Filling.start h hz hring hbuf (granted_of_allocBufs hbufs hg)
  rw [List.range_eq_range'] at hbufs
  obtain ⟨ws, hlen, hfull⟩ := hstart.allocBufs (Nat.le_of_eq (Nat.zero_add num)) hz.bufs hbufs hg
  rw [List.length_nil, Nat.zero_add] at hlen
  refine ⟨⟨num, ring, buf, ws⟩, rfl, rfl, ?_, fun k hk => ?_, fun k hk => ?_⟩
  · rw [blocks, List.flatMap_singleton]
    exact hfull.gains
  · obtain rfl := List.mem_singleton.mp hk
    exact ⟨hlen, fun i hi => hfull.descs i (by rw [hlen]; exact hi), fun i hi => hfull.array i (by rw [hlen]; exact hi)⟩
  · obtain rfl := List.mem_singleton.mp hk
    exact hfull.blank

/-- The queues of one direction. -/
theorem allocRings (h : Sound σ L) (hz : Sizes num bufsize)
    (hnow : Ixgbe.allocRings src num bufsize n σ = some (rings, σ')) (hg : Granted σ'.heap.calls) :
    ∃ ks : List Kit, ks.map (fun k => (k.ring, k.num)) = rings.map (·, num) ∧ Fitted bufsize ks σ σ' := by
  induction n generalizing rings σ' with
  | zero =>
    obtain ⟨rfl, rfl⟩ := Prod.mk.inj (Option.some.inj hnow)
    exact ⟨[], rfl, Gains.refl h, nofun, nofun⟩
  | succ n ih =>
    obtain ⟨⟨rings₁, σ₁⟩, hrings, hnow⟩ := Option.bind_eq_some_iff.mp hnow
    obtain ⟨⟨ring, σ₂⟩, hqueue, hret⟩ := Option.bind_eq_some_iff.mp hnow
    obtain ⟨rfl, rfl⟩ := Prod.mk.inj (Option.some.inj hret)
    obtain ⟨ks, hks, h₁⟩ := ih hrings (granted_of_allocQueue hqueue hg)
    obtain ⟨L₁, hL₁⟩ := h₁.gains.sound
    obtain ⟨k, hk, hnum, h₂⟩ := allocQueue hL₁ hz hqueue hg
    refine ⟨ks ++ [k], ?_, h₁.trans h₂⟩
    rw [List.map_append, hks, List.map_singleton, hk, hnum, List.map_append, List.map_singleton]

end Fitted

theorem granted_of_allocRings (hnow : allocRings src num bufsize n σ = some (rings, σ'))
    (hg : Granted σ'.heap.calls) : Granted σ.heap.calls := by
  induction n generalizing rings σ' with
  | zero =>
    obtain ⟨_, rfl⟩ := Prod.mk.inj (Option.some.inj hnow)
    exact hg
  | succ n ih =>
    obtain ⟨⟨rings₁, σ₁⟩, hrings, hnow⟩ := Option.bind_eq_some_iff.mp hnow
    obtain ⟨⟨ring, σ₂⟩, hqueue, hret⟩ := Option.bind_eq_some_iff.mp hnow
    obtain ⟨_, rfl⟩ := Prod.mk.inj (Option.some.inj hret)
    exact ih hrings (granted_of_allocQueue hqueue hg)

/-- Link-up gives every queue a ring, an array and buffers that nobody else has, and empty descriptors.
From then on, in any order of the calls of other clients and the accesses of the driver and the
card, the descriptors and the arrays have the addresses of these buffers; and the store of the others
is what their own requests make of the one there was before link-up. -/
theorem transfers_hidden {c : Config} {ts rs : List Nat} (h : Past σ) (hxmit : Sizes c.numTdesc c.bufsize)
    (hrecv : Sizes c.numRdesc c.bufsize) (htdesc : ixgbeAllocTdesc src c n σ = some (ts, σ₁))
    (hrdesc : ixgbeAllocRdesc src c n σ₁ = some (rs, σ₂)) (hg : Granted σ₂.heap.calls) :
    ∃ ks : List Kit, ks.map (fun k => (k.ring, k.num)) = ts.map (·, c.numTdesc) ++ rs.map (·, c.numRdesc) ∧
      Equipped c.bufsize ks σ₂ ∧ (∀ k ∈ ks, k.Blank σ₂.heap.mem) ∧
      ∀ base acts σ', (∀ k ∈ ks, Seen (base k) k.ring k.num) →
        Steps (Move src c.bufsize ks base) σ₂ acts σ' →
          Equipped c.bufsize ks σ' ∧
          Steps Store.Request σ.store (acts.filterMap id) (σ'.store.hide (ks.flatMap Kit.ptrs)) := by
  obtain ⟨L, hL⟩ := h.sound
  obtain ⟨ks, hks, h₁⟩ := Fitted.allocRings hL hxmit htdesc (granted_of_allocRings hrdesc hg)
  obtain ⟨L₁, hL₁⟩ := h₁.gains.sound
  obtain ⟨ks', hks', h₂⟩ := Fitted.allocRings hL₁ hrecv hrdesc hg
  have hall := h₁.trans h₂
  refine ⟨ks ++ ks', ?_, hall.equipped, hall.blank, fun base acts σ' hseen hrun => ?_⟩
  · rw [List.map_append, hks, hks']
  · obtain ⟨hsteps, hend⟩ := hall.equipped.run hseen hrun
    obtain ⟨_, hstore⟩ := hall.equipped.tenant.hidden hsteps
    rw [hall.gains.hide, map_ptr_blocks] at hstore
    exact ⟨hend, hstore⟩

/-- The rings of one queue, from a page layer with enough ranges. -/
theorem Supplied.one {s : Nat} (hs : Supplied s σ) (h : Sound σ L) (hlt : s + 258 < 2 ^ 39) :
    ∃ ring σ', Ixgbe.allocRings apart16 256 2048 1 σ = some ([ring], σ') ∧ Supplied (s + 258) σ' := by
  obtain ⟨ring, σ', hqueue, hs'⟩ : ∃ ring σ', Ixgbe.allocQueue apart16 256 2048 σ = some (ring, σ') ∧
      Supplied (s + 256 + 2) σ' := hs.allocQueue h (by decide) (by decide) hlt
  refine ⟨ring, σ', ?_, hs'⟩
  simp only [Ixgbe.allocRings, hqueue, Option.bind_eq_bind, Option.bind_some, List.nil_append]

theorem Supplied.served {s : Nat} (hs : Supplied s σ) (h : Sound σ L) (hn : n + 48 ≤ 2 ^ 24) (hlt : s + 1 < 2 ^ 39) :
    Served apart16 (.malloc n) σ := by
  intro k hk p s' hmalloc
  obtain rfl := Option.some.inj hk
  obtain ⟨q, σ', hstep, hs'⟩ := hs.step h hn
  simp only [Alloc.step, hmalloc, Option.bind_eq_bind, Option.bind_some] at hstep
  obtain ⟨_, rfl⟩ := Prod.mk.inj (Option.some.inj hstep)
  exact hs'.granted hlt

/-- A client asks for a hundred bytes, and then the first byte is received by a card that looks for the
rings where they are. -/
theorem transfers_hidden_received : ∃ ts σ₁ rs σ₂ ks p σ',
    ixgbeAllocTdesc apart16 defaultConfig 1 (boot fun _ => 0) = some (ts, σ₁) ∧
      ixgbeAllocRdesc apart16 defaultConfig 1 σ₁ = some (rs, σ₂) ∧ ks.map Kit.ring = ts ++ rs ∧
      Equipped 2048 ks σ₂ ∧ (∀ k ∈ ks, k.Blank σ₂.heap.mem) ∧
      Steps (Move apart16 2048 ks Kit.ring) σ₂ [some (.malloc 100, p), none] σ' ∧ Equipped 2048 ks σ' ∧
      Steps Store.Request (boot fun _ => 0).store [(.malloc 100, p)] (σ'.store.hide (ks.flatMap Kit.ptrs)) := by
  have hs : Supplied 0 (boot fun _ => 0) := ⟨trivial, le_rfl⟩
  have hsound := Sound.boot fun _ => 0
  obtain ⟨t, σ₁, htdesc, hs₁⟩ := hs.one hsound (by decide)
  obtain ⟨⟨L₁, h₁⟩, _⟩ := allocRings_spec hsound (sizes_default .xmit) htdesc (hs₁.granted (by decide))
  obtain ⟨r, σ₂, hrdesc, hs₂⟩ := hs₁.one h₁ (by decide)
  obtain ⟨⟨L₂, h₂⟩, _⟩ := allocRings_spec h₁ (sizes_default .recv) hrdesc (hs₂.granted (by decide))
  obtain ⟨ks, hks, hequipped, hblank, hall⟩ :=
    transfers_hidden (.boot _) (sizes_default .xmit) (sizes_default .recv) htdesc hrdesc (hs₂.granted (by decide))
  have hseen : ∀ k ∈ ks, Seen k.ring k.ring k.num := by
    intro k _
    have hle := le_ringPages k.num
    exact ⟨fun _ _ => rfl, fun i hi => by omega⟩
  obtain ⟨p, σ₃, hmalloc, _⟩ := hs₂.step (n := 100) h₂ (by decide)
  have hclient : Move apart16 2048 ks Kit.ring σ₂ (some (.malloc 100, p)) σ₃ :=
    .others (show Small 100 by decide) (hs₂.served h₂ (by decide) (by decide)) trivial hmalloc
  match ks, hks with
  | k :: ks, hks =>
    obtain ⟨hk, hrest⟩ := List.cons.inj hks
    have hnum : k.num = 256 := (Prod.mk.inj hk).2
    have hrun : Steps (Move apart16 2048 (k :: ks) Kit.ring) σ₂ [some (.malloc 100, p), none] _ :=
      .cons hclient (.single (.received (v := 1) (i := 0) (j := 0) (List.mem_cons_self ..) (by omega) (by decide)))
    obtain ⟨hend, hstore⟩ := hall Kit.ring _ _ hseen hrun
    refine ⟨[t], σ₁, [r], σ₂, k :: ks, p, _, htdesc, hrdesc, ?_, hequipped, hblank, hrun, hend, hstore⟩
    have hmap := congrArg (List.map Prod.fst) hks
    simpa using hmap

end Kvi.Ixgbe
