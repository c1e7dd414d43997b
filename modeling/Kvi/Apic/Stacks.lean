import Kvi.Alloc.System

/-! The stacks of the processors.

`apic_init` leaves one record for every processor, its APIC id and a stack base,
and starts the others one by one. Each of them looks for the record with its own
id and takes the base as its stack pointer. For the boot processor's constant the
base is the end of the stack; for the others it is the pointer that `malloc`
returned, which is the beginning of the block, while the stack grows down. -/
namespace Kvi.Apic
open Alloc

@[irreducible] def BOOT_STACK_SIZE : Nat := 0x4000000

@[irreducible] def BOOT_BSP_STACK_BASE : Nat := 0x4100000

structure State where
  system : System
  /-- The global pointer to the records. -/
  stacklist : Nat
  /-- The processors started so far and the blocks `malloc`'ed for them, latest first. -/
  started : List (UInt8 × Block)

namespace State

def mem (a : State) : Memory := a.system.heap.mem

/-- A 64-bit store `off` bytes into the records. -/
def poke (off v : Nat) (a : State) : State :=
  {a with system := {a.system with heap := {a.system.heap with
    mem := a.mem.store (u64 (a.stacklist + off)) 8 v}}}

/-- The heap after `malloc (n)` returned `p`. -/
def note (p n : Nat) (s : Heap) (a : State) : State :=
  {a with system := ⟨s, Alloc.note p n a.system.live⟩}

/-- The interrupts that start a processor. -/
def start (id : UInt8) (b : Block) (a : State) : State := {a with started := (id, b) :: a.started}

end State

/-- The loop body of `apic_init`, for record `i`. -/
def startOne (src : PageSource) (bootApicId i : Nat) (apicId : UInt8) (a : State) : Option State :=
  if apicId.toNat = bootApicId then
    some ((a.poke (16 * i) apicId.toNat).poke (16 * i + 8) BOOT_BSP_STACK_BASE)
  else do
    let a := a.poke (16 * i) apicId.toNat
    let (p, s) ← malloc src BOOT_STACK_SIZE a.system.heap
    let a := (a.note p BOOT_STACK_SIZE s).poke (16 * i + 8) p
    some (a.start apicId ⟨p, BOOT_STACK_SIZE⟩)

/-- The loop of `apic_init` from record `i` on. -/
def startLoop (src : PageSource) (bootApicId : Nat) : Nat → List UInt8 → State → Option State
  | _, [], a => some a
  | i, id :: ids, a => do
    let a ← startOne src bootApicId i id a
    startLoop src bootApicId (i + 1) ids a

/-- `apic_init`, given the APIC ids in `cpulist`. -/
def apicInit (src : PageSource) (bootApicId : Nat) (cpulist : List UInt8) (σ : System) :
    Option State := do
  let (p, s) ← malloc src (cpulist.length * 16) σ.heap
  startLoop src bootApicId 0 cpulist
    ⟨⟨s, Alloc.note p (cpulist.length * 16) σ.live⟩, p, []⟩

end Kvi.Apic

namespace Kvi.Memory

/-- The scan of `start_ap` from the record at offset `i` on, which `rsi` is: the stack base found. -/
def getStack (m : Memory) (rdi rbx i : Nat) : Option Nat :=
  if m.load (u64 (rbx + i)) 8 = rdi then some (m.load (u64 (rbx + u64 (i + 8))) 8)
  else m |>.getStack rdi rbx (u64 (i + 16))
partial_fixpoint

end Kvi.Memory

namespace Kvi.Apic
open Alloc
export Memory (getStack)

/-- The stack pointer that `start_ap` loads. -/
def rsp (a : State) (apicId : UInt8) : Option Nat := getStack a.mem apicId.toNat a.stacklist 0

variable {σ : System} {L : Layout} {a a' : State} {ids done : List UInt8} {id : UInt8} {src : PageSource}
  {bootApicId n i off v : Nat} {b : Block} {k : Nat} {L' : Layout} {id' : UInt8} {trace : List (Op × Nat)} {m : Memory}

/-! ### Calls of the page layer -/

theorem granted_of_startOne (h : startOne src bootApicId i id a = some a')
    (hg : Granted a'.system.heap.calls) : Granted a.system.heap.calls := by
  rw [startOne] at h
  split at h
  · rw [← Option.some.inj h] at hg
    exact hg
  · obtain ⟨⟨p, s⟩, hmalloc, hrest⟩ := Option.bind_eq_some_iff.mp h
    rw [← Option.some.inj hrest] at hg
    have hpoked : Granted (a.poke (16 * i) id.toNat).system.heap.calls :=
      granted_of_malloc hmalloc hg
    exact hpoked

theorem granted_of_startLoop (h : startLoop src bootApicId i ids a = some a')
    (hg : Granted a'.system.heap.calls) : Granted a.system.heap.calls := by
  induction ids generalizing i a with
  | nil => rwa [Option.some.inj h]
  | cons id ids ih =>
    obtain ⟨a₁, hone, hrest⟩ := Option.bind_eq_some_iff.mp h
    exact granted_of_startOne hone (ih hrest)

/-! ### The records -/

/-- What holds when the processors `done` have their records, of `n`. -/
structure Ready (n : Nat) (done : List UInt8) (a : State) : Prop where
  sound : ∃ L, Sound a.system L
  list : ⟨a.stacklist, n * 16⟩ ∈ a.system.live
  ids : ∀ j id, done[j]? = some id → a.mem.load (a.stacklist + 16 * j) 8 = id.toNat
  /-- The base of a processor that was started is the pointer of its block. -/
  started : ∀ id b, (id, b) ∈ a.started → b ∈ a.system.live ∧ b.size = BOOT_STACK_SIZE ∧
    ∃ j, done[j]? = some id ∧ a.mem.load (a.stacklist + 16 * j + 8) 8 = b.ptr

/-- A store into the records leaves the heap and all the other blocks alone. -/
theorem poke_sound (h : Sound a.system L) (hl : ⟨a.stacklist, n * 16⟩ ∈ a.system.live)
    (hoff : off + 8 ≤ n * 16) : Sound (a.poke off v).system L := by
  have hlt := (h.live_lt hl).1
  simp only at hlt
  refine h.written_live hl fun c hc => Memory.store_outside ?_
  simp only at hc
  rw [u64_of_lt (by omega)]
  omega

theorem load_poke (h : Sound a.system L) (hl : ⟨a.stacklist, n * 16⟩ ∈ a.system.live)
    (hoff : off + 8 ≤ n * 16) (hv : v < 2 ^ 64) :
    (a.poke off v).mem.load (a.stacklist + off) 8 = v := by
  have hlt := (h.live_lt hl).1
  simp only at hlt
  show (a.mem.store (u64 (a.stacklist + off)) 8 v).load (a.stacklist + off) 8 = v
  rw [u64_of_lt (by omega), Memory.load_store_same]
  exact Nat.mod_eq_of_lt hv

theorem load_poke_other (h : Sound a.system L) (hl : ⟨a.stacklist, n * 16⟩ ∈ a.system.live)
    (hoff : off + 8 ≤ n * 16) (hd : k + 8 ≤ off ∨ off + 8 ≤ k) :
    (a.poke off v).mem.load (a.stacklist + k) 8 = a.mem.load (a.stacklist + k) 8 := by
  have hlt := (h.live_lt hl).1
  simp only at hlt
  show (a.mem.store (u64 (a.stacklist + off)) 8 v).load (a.stacklist + k) 8 = _
  rw [u64_of_lt (by omega), Memory.load_store_disjoint (by omega)]

/-- `malloc` keeps the records. -/
theorem load_handed {s : Heap} {t size : Nat} (h : Sound a.system L)
    (hl : ⟨a.stacklist, n * 16⟩ ∈ a.system.live) (hh : Handed size t a.system.heap s L L')
    (hk : k + 8 ≤ n * 16) : s.mem.load (a.stacklist + k) 8 = a.mem.load (a.stacklist + k) 8 := by
  apply Memory.load_congr
  intro c hlo hhi
  obtain ⟨u, hu, _, hp⟩ := h.payload hl (x := c) (by simp only; omega) (by simp only; omega)
  exact hh.keeps.payload u hu c hp

theorem small_stack : Alloc.Small BOOT_STACK_SIZE := by
  unfold BOOT_STACK_SIZE
  decide

theorem getElem?_done {j : Nat} (h : (done ++ [id])[j]? = some id') :
    done[j]? = some id' ∧ j < done.length ∨ j = done.length ∧ id' = id := by
  by_cases hj : j < done.length
  · rw [List.getElem?_append_left hj] at h
    exact .inl ⟨h, hj⟩
  · have hlt := (List.getElem?_eq_some_iff.mp h).1
    rw [List.length_append, List.length_singleton] at hlt
    have hj : j = done.length := by omega
    subst hj
    rw [List.getElem?_concat_length] at h
    exact .inr ⟨rfl, (Option.some.inj h).symm⟩

/-- The records written are kept, and so are the blocks. -/
theorem Ready.kept (h : Ready n done a) (hsound : ∃ L, Sound a'.system L)
    (hlist : a'.stacklist = a.stacklist) (hstarted : a'.started = a.started)
    (hlive : ∀ b ∈ a.system.live, b ∈ a'.system.live)
    (hkeep : ∀ k, k + 8 ≤ 16 * done.length →
      a'.mem.load (a.stacklist + k) 8 = a.mem.load (a.stacklist + k) 8) : Ready n done a' := by
  refine ⟨hsound, ?_, fun j id hj => ?_, fun id b hb => ?_⟩
  · rw [hlist]
    exact hlive _ h.list
  · have hlt := (List.getElem?_eq_some_iff.mp hj).1
    rw [hlist]
    exact (hkeep (16 * j) (by omega)).trans (h.ids j id hj)
  · rw [hstarted] at hb
    obtain ⟨hb, hsize, j, hj, hbase⟩ := h.started id b hb
    have hlt := (List.getElem?_eq_some_iff.mp hj).1
    refine ⟨hlive b hb, hsize, j, hj, ?_⟩
    rw [hlist]
    exact (hkeep (16 * j + 8) (by omega)).trans hbase

/-- An id that is in place makes one more record. -/
theorem Ready.snoc (h : Ready n done a)
    (hid : a.mem.load (a.stacklist + 16 * done.length) 8 = id.toNat) : Ready n (done ++ [id]) a := by
  refine ⟨h.sound, h.list, fun j id' hj => ?_, fun id' b hb => ?_⟩
  · rcases getElem?_done hj with ⟨hj, _⟩ | ⟨rfl, rfl⟩
    · exact h.ids j id' hj
    · exact hid
  · obtain ⟨hlive, hsize, j, hj, hbase⟩ := h.started id' b hb
    refine ⟨hlive, hsize, j, ?_, hbase⟩
    rw [List.getElem?_append_left (List.getElem?_eq_some_iff.mp hj).1, hj]

/-- The id goes to the next record. -/
theorem Ready.pokeId (h : Ready n done a) (hn : done.length < n) (id : UInt8) :
    Ready n done (a.poke (16 * done.length) id.toNat) ∧
      (a.poke (16 * done.length) id.toNat).mem.load (a.stacklist + 16 * done.length) 8 =
        id.toNat := by
  obtain ⟨L, hs⟩ := h.sound
  have hoff : 16 * done.length + 8 ≤ n * 16 := by omega
  constructor
  · exact h.kept ⟨L, poke_sound hs h.list hoff⟩ rfl rfl (fun _ hb => hb) fun k hk =>
      load_poke_other hs h.list hoff (.inl hk)
  · have hid := id.toNat_lt
    exact load_poke hs h.list hoff (by omega)

/-- The base goes behind the id, which makes one more record. -/
theorem Ready.pokeBase (h : Ready n done a) (hn : done.length < n)
    (hid : a.mem.load (a.stacklist + 16 * done.length) 8 = id.toNat) (hv : v < 2 ^ 64) :
    Ready n (done ++ [id]) (a.poke (16 * done.length + 8) v) ∧
      (a.poke (16 * done.length + 8) v).mem.load (a.stacklist + (16 * done.length + 8)) 8 = v := by
  obtain ⟨L, hs⟩ := h.sound
  have hoff : 16 * done.length + 8 + 8 ≤ n * 16 := by omega
  have hkeep : ∀ k, k + 8 ≤ 16 * done.length + 8 →
      (a.poke (16 * done.length + 8) v).mem.load (a.stacklist + k) 8 =
        a.mem.load (a.stacklist + k) 8 :=
    fun k hk => load_poke_other hs h.list hoff (.inl hk)
  have hkept : Ready n done (a.poke (16 * done.length + 8) v) :=
    h.kept ⟨L, poke_sound hs h.list hoff⟩ rfl rfl (fun _ hb => hb) fun k hk => hkeep k (by omega)
  exact ⟨hkept.snoc ((hkeep (16 * done.length) (by omega)).trans hid), load_poke hs h.list hoff hv⟩

/-- `malloc` in between keeps all of it. -/
theorem Ready.malloc {s : Heap} {p size : Nat} (h : Ready n done a) (hn : done.length < n)
    (hsmall : Alloc.Small size)
    (hnow : Alloc.malloc src size a.system.heap = some (p, s)) (hg : Granted s.calls) :
    Ready n done (a.note p size s) ∧ ⟨p, size⟩ ∈ (a.note p size s).system.live ∧
      ∀ k, k + 8 ≤ n * 16 →
        (a.note p size s).mem.load (a.stacklist + k) 8 = a.mem.load (a.stacklist + k) 8 := by
  obtain ⟨L, hs⟩ := h.sound
  obtain ⟨t, s', L', heq, hh, hs'⟩ := hs.call_malloc hsmall.sized fun p' s'' (heq : Alloc.malloc src _ _ = _) => by
    obtain ⟨_, rfl⟩ := Prod.mk.inj (Option.some.inj (heq.symm.trans hnow))
    exact hg
  obtain ⟨rfl, rfl⟩ := Prod.mk.inj (Option.some.inj (heq.symm.trans hnow))
  have hsystem : (a.note (t + 48) size s').system = ⟨s', ⟨t + 48, size⟩ :: a.system.live⟩ := by
    rw [State.note, Sound.note_ptr]
  have hkeep : ∀ k, k + 8 ≤ n * 16 →
      (a.note (t + 48) size s').mem.load (a.stacklist + k) 8 = a.mem.load (a.stacklist + k) 8 :=
    fun k hk => load_handed hs h.list hh hk
  refine ⟨h.kept ⟨L', ?_⟩ rfl rfl (fun b hb => ?_) fun k hk => hkeep k (by omega), ?_, hkeep⟩
  · rw [hsystem]
    exact hs'
  · rw [hsystem]
    exact List.mem_cons_of_mem _ hb
  · rw [hsystem]
    exact List.mem_cons_self ..

/-- The base of the processor's own block goes behind the id. -/
theorem Ready.start {p : Nat} (h : Ready n done a) (hn : done.length < n)
    (hid : a.mem.load (a.stacklist + 16 * done.length) 8 = id.toNat)
    (hlive : ⟨p, BOOT_STACK_SIZE⟩ ∈ a.system.live) :
    Ready n (done ++ [id]) ((a.poke (16 * done.length + 8) p).start id ⟨p, BOOT_STACK_SIZE⟩) := by
  obtain ⟨L, hs⟩ := h.sound
  have hlt := (hs.live_lt hlive).1
  obtain ⟨h₁, hbase⟩ := h.pokeBase (v := p) hn hid (by simp only at hlt; omega)
  refine ⟨h₁.sound, h₁.list, h₁.ids, fun id' b hb => ?_⟩
  rcases List.mem_cons.mp hb with heq | hb
  · obtain ⟨rfl, rfl⟩ := Prod.mk.inj heq
    exact ⟨hlive, rfl, done.length, List.getElem?_concat_length, hbase⟩
  · exact h₁.started id' b hb

/-- One turn of the loop. The processor has its record, and if it is not the boot processor, a block
of its own. -/
theorem Ready.startOne (h : Ready n done a) (hn : done.length < n)
    (hnow : Apic.startOne src bootApicId done.length id a = some a')
    (hg : Granted a'.system.heap.calls) :
    Ready n (done ++ [id]) a' ∧ a'.stacklist = a.stacklist ∧
      ((id.toNat = bootApicId ∧ a'.started = a.started) ∨
        id.toNat ≠ bootApicId ∧ ∃ b, a'.started = (id, b) :: a.started) := by
  obtain ⟨h₁, hid⟩ := h.pokeId hn id
  rw [Apic.startOne] at hnow
  split at hnow
  · next hboot =>
    obtain ⟨h₂, _⟩ := h₁.pokeBase (v := BOOT_BSP_STACK_BASE) hn hid (by
      unfold BOOT_BSP_STACK_BASE
      decide)
    rw [← Option.some.inj hnow]
    exact ⟨h₂, rfl, .inl ⟨hboot, rfl⟩⟩
  · next hboot =>
    obtain ⟨⟨p, s⟩, hmalloc, hrest⟩ := Option.bind_eq_some_iff.mp hnow
    rw [← Option.some.inj hrest] at hg
    obtain ⟨h₂, hlive, hkeep⟩ := h₁.malloc hn small_stack hmalloc hg
    have hid₂ := (hkeep (16 * done.length) (by omega)).trans hid
    rw [← Option.some.inj hrest]
    exact ⟨h₂.start hn hid₂ hlive, rfl, .inr ⟨hboot, _, rfl⟩⟩

/-- The loop leaves a record for every processor and a block for every one it started. -/
theorem Ready.startLoop (h : Ready n done a) (hn : done.length + ids.length = n)
    (hnow : Apic.startLoop src bootApicId done.length ids a = some a')
    (hg : Granted a'.system.heap.calls) :
    Ready n (done ++ ids) a' ∧ (∀ id b, (id, b) ∈ a.started → (id, b) ∈ a'.started) ∧
      ∀ id ∈ ids, id.toNat ≠ bootApicId → ∃ b, (id, b) ∈ a'.started := by
  induction ids generalizing done a with
  | nil =>
    obtain rfl := Option.some.inj hnow
    rw [List.append_nil]
    exact ⟨h, fun _ _ hb => hb, nofun⟩
  | cons id ids ih =>
    rw [List.length_cons] at hn
    obtain ⟨a₁, hone, hrest⟩ := Option.bind_eq_some_iff.mp hnow
    obtain ⟨h₁, _, hstarted⟩ := h.startOne (by omega) hone (granted_of_startLoop hrest hg)
    have hlen : (done ++ [id]).length = done.length + 1 := by
      rw [List.length_append, List.length_singleton]
    rw [← hlen] at hrest
    obtain ⟨h₂, hkeep, hall⟩ := ih h₁ (by omega) hrest
    rw [List.append_assoc, List.singleton_append] at h₂
    have hmore : ∀ id' b, (id', b) ∈ a.started → (id', b) ∈ a₁.started := by
      intro id' b hb
      rcases hstarted with ⟨_, heq⟩ | ⟨_, b', heq⟩
      · rwa [heq]
      · rw [heq]
        exact List.mem_cons_of_mem _ hb
    refine ⟨h₂, fun id' b hb => hkeep id' b (hmore id' b hb), fun id' hid' hne => ?_⟩
    rcases List.mem_cons.mp hid' with rfl | hid'
    · rcases hstarted with ⟨heq, _⟩ | ⟨_, b, heq⟩
      · exact absurd heq hne
      · exact ⟨b, hkeep id' b (heq ▸ List.mem_cons_self ..)⟩
    · exact hall id' hid' hne

/-- Distinct ids are at most 256. -/
theorem length_le_of_nodup (h : ids.Nodup) : ids.length ≤ 256 := by
  have hmap : (ids.map UInt8.toNat).Nodup := h.map fun _ _ heq => UInt8.toNat_inj.mp heq
  have hsub : ids.map UInt8.toNat ⊆ List.range 256 := by
    intro x hx
    obtain ⟨id, _, rfl⟩ := List.mem_map.mp hx
    exact List.mem_range.mpr id.toNat_lt
  have hle := (hmap.subperm hsub).length_le
  rwa [List.length_map, List.length_range] at hle

/-- The records are allocated. -/
theorem Ready.nil {p : Nat} {s : Heap} (h : Sound σ L) (hd : ids.Nodup)
    (hmalloc : Alloc.malloc src (ids.length * 16) σ.heap = some (p, s)) (hg : Granted s.calls) :
    Ready ids.length [] ⟨⟨s, Alloc.note p (ids.length * 16) σ.live⟩, p, []⟩ := by
  have hlen := length_le_of_nodup hd
  have hsmall : Alloc.Small (ids.length * 16) := by
    rw [Alloc.small_iff]
    omega
  obtain ⟨t, s', L', heq, _, hs'⟩ := h.call_malloc hsmall.sized fun p' s'' (heq : Alloc.malloc src _ _ = _) => by
    obtain ⟨_, rfl⟩ := Prod.mk.inj (Option.some.inj (heq.symm.trans hmalloc))
    exact hg
  obtain ⟨rfl, rfl⟩ := Prod.mk.inj (Option.some.inj (heq.symm.trans hmalloc))
  rw [Sound.note_ptr]
  exact ⟨⟨L', hs'⟩, List.mem_cons_self .., nofun, nofun⟩

/-- `apic_init` from any state of the allocator. -/
theorem apicInit_ready (h : Sound σ L) (hd : ids.Nodup)
    (hnow : apicInit src bootApicId ids σ = some a) (hg : Granted a.system.heap.calls) :
    Ready ids.length ids a ∧
      ∀ id ∈ ids, id.toNat ≠ bootApicId → ∃ b, (id, b) ∈ a.started := by
  obtain ⟨⟨p, s⟩, hmalloc, hloop⟩ := Option.bind_eq_some_iff.mp hnow
  have hstart := Ready.nil h hd hmalloc (granted_of_startLoop hloop hg)
  obtain ⟨hready, _, hall⟩ := hstart.startLoop (Nat.zero_add _) hloop hg
  exact ⟨hready, hall⟩

/-! ### The stack pointer -/

/-- The scan passes the records of other ids. -/
theorem getStack_record {rbx j : Nat} (hlt : rbx + ids.length * 16 < 2 ^ 64) (hd : ids.Nodup)
    (hids : ∀ i id, ids[i]? = some id → m.load (rbx + 16 * i) 8 = id.toNat)
    (hj : ids[j]? = some id) (hi : i ≤ j) :
    getStack m id.toNat rbx (16 * i) = some (m.load (rbx + 16 * j + 8) 8) := by
  have hjlt := (List.getElem?_eq_some_iff.mp hj).1
  obtain ⟨k, hk⟩ := Nat.exists_eq_add_of_le hi
  induction k generalizing i with
  | zero =>
    obtain rfl : j = i := hk
    rw [getStack, u64_of_lt (n := rbx + 16 * j) (by omega), hids j id hj, if_pos rfl,
      u64_of_lt (n := 16 * j + 8) (by omega), u64_of_lt (by omega), Nat.add_assoc]
  | succ k ih =>
    have hilt : i < ids.length := by omega
    have hget : ids[i]? = some ids[i] := List.getElem?_eq_getElem hilt
    have hne : ids[i].toNat ≠ id.toNat := by
      intro heq
      rw [UInt8.toNat_inj.mp heq] at hget
      have := (List.getElem?_inj hilt hd).mp (hget.trans hj.symm)
      omega
    rw [getStack, u64_of_lt (n := rbx + 16 * i) (by omega), hids i _ hget, if_neg hne,
      u64_of_lt (by omega)]
    exact ih (i := i + 1) (by omega) (by omega)

/-- Every processor that was started takes the pointer of its own block. -/
theorem Ready.rsp_eq (h : Ready ids.length ids a) (hd : ids.Nodup) (hb : (id, b) ∈ a.started) :
    rsp a id = some b.ptr := by
  obtain ⟨L, hs⟩ := h.sound
  have hlt := (hs.live_lt h.list).1
  obtain ⟨_, _, j, hj, hbase⟩ := h.started id b hb
  rw [rsp, ← hbase]
  exact getStack_record hlt hd h.ids hj (Nat.zero_le j)

/-! ### The stacks -/

/-- The bytes that pushes may write, as deep as the stack is meant to be. -/
def Pushed (rsp x : Nat) : Prop := rsp ≤ x + BOOT_STACK_SIZE ∧ x < rsp

/-- The stack of the processor `id` is the block `malloc`'ed for it. -/
structure StackSafe (a : State) (id : UInt8) (p : Nat) (b : Block) : Prop where
  own : (id, b) ∈ a.started
  loads : rsp a id = some p
  inside : ∀ x, Pushed p x → b.ptr ≤ x ∧ x < b.ptr + b.size
  apart : ∀ x, Pushed p x → ∀ c ∈ a.system.live, c ≠ b → ¬ (c.ptr ≤ x ∧ x < c.ptr + c.size)
  apart_boot : ∀ x, Pushed p x → ¬ Pushed BOOT_BSP_STACK_BASE x
  headers : ∀ x, Pushed p x → ∀ L, Sound a.system L → ∀ t ∈ tags a.system.heap L,
    ¬ (t ≤ x ∧ x < t + tagSize)

def Safe (bootApicId : Nat) (cpulist : List UInt8) (a : State) : Prop :=
  ∀ id ∈ cpulist, id.toNat ≠ bootApicId → ∃ p b, StackSafe a id p b

/-- The first byte pushed is outside of the block: it belongs to the tag in front of it. -/
theorem Ready.not_stackSafe (h : Ready ids.length ids a) (hd : ids.Nodup) {p : Nat} :
    ¬ StackSafe a id p b := by
  intro hsafe
  obtain ⟨L, hs⟩ := h.sound
  have hrsp := h.rsp_eq hd hsafe.own
  obtain rfl := Option.some.inj (hrsp.symm.trans hsafe.loads)
  have hlive := (h.started id b hsafe.own).1
  have hptr := (hs.live_lt hlive).2
  have hpushed : Pushed b.ptr (b.ptr - 1) := by
    unfold Pushed BOOT_STACK_SIZE
    omega
  have := (hsafe.inside (b.ptr - 1) hpushed).1
  omega

/-- The stacks are the blocks exactly when there is no other processor than the boot processor. -/
theorem stacks_safe_iff (h : History src trace σ) (hd : ids.Nodup)
    (hnow : apicInit src bootApicId ids σ = some a) (hg : Granted a.system.heap.calls) :
    Safe bootApicId ids a ↔ ∀ id ∈ ids, id.toNat = bootApicId := by
  obtain ⟨L, hs⟩ := h.sound
  obtain ⟨hready, _⟩ := apicInit_ready hs hd hnow hg
  constructor
  · intro hsafe id hid
    by_contra hne
    obtain ⟨p, b, hstack⟩ := hsafe id hid hne
    exact hready.not_stackSafe hd hstack
  · intro hboot id hid hne
    exact absurd (hboot id hid) hne

/-! ### One and two processors -/

/-- A page layer whose ranges start at 16 MiB and at 32 MiB. -/
def twoRanges : PageSource
  | [], _ => 0x1000000
  | _ :: _, _ => 0x2000000

/-- The records are allocated first. -/
theorem records_allocated (hn : n ≤ 4096) :
    ∃ t s L, malloc twoRanges n (boot fun _ => 0).heap = some (t + 48, s) ∧
      Sound ⟨s, [⟨t + 48, n⟩]⟩ L ∧ (s.calls = [] ∨ s.calls = [.alloc 16 0x1000000]) := by
  have h := Sound.boot fun _ => 0
  have hsmall : Alloc.Small n := by
    rw [Alloc.small_iff]
    omega
  have hpages : pagesFor (n + 48) = 16 := by
    rw [pagesFor_eq, pageCount]
    omega
  have hcalls : ∀ p s, malloc twoRanges n (boot fun _ => 0).heap = some (p, s) →
      s.calls = [] ∨ s.calls = [.alloc 16 0x1000000] := by
    intro p s hs
    rcases h.inv.malloc twoRanges hsmall.sized with ⟨p', s', heq, hc, _⟩
    obtain ⟨_, rfl⟩ := Prod.mk.inj (Option.some.inj (heq.symm.trans hs))
    rcases hc with hc | ⟨r, hr, hbase, hc⟩
    · exact .inl hc
    · rw [hc, hbase, hr, hpages]
      exact .inr rfl
  obtain ⟨t, s, L, heq, _, hs⟩ := h.call_malloc hsmall.sized fun p s hs => by
    rcases hcalls p s hs with hc | hc
    · rw [hc]
      trivial
    · rw [hc]
      exact ⟨by decide, by decide, by simp [held], trivial⟩
  exact ⟨t, s, L, heq, hs, hcalls _ _ heq⟩

theorem granted_records {cs : List PageCall} (h : cs = [] ∨ cs = [.alloc 16 0x1000000]) :
    Granted cs := by
  rcases h with rfl | rfl
  · trivial
  · exact ⟨by decide, by decide, nofun, trivial⟩

theorem stacks_safe_alone :
    ∃ a, apicInit twoRanges 0 [0] (boot fun _ => 0) = some a ∧ Safe 0 [0] a := by
  obtain ⟨t, s, L, heq, _, hcalls⟩ := records_allocated (n := 16) (by decide)
  have hnow : apicInit twoRanges 0 [0] (boot fun _ => 0) = some
      (((⟨⟨s, Alloc.note (t + 48) 16 []⟩, t + 48, []⟩ : State).poke 0 0).poke 8
        BOOT_BSP_STACK_BASE) := by
    rw [apicInit, List.length_singleton, Nat.one_mul, heq]
    rfl
  refine ⟨_, hnow, (stacks_safe_iff (.boot _) (by decide) hnow (granted_records hcalls)).mpr ?_⟩
  intro id hid
  rw [List.mem_singleton.mp hid]
  rfl

/-- `apic_init` with a processor besides the boot processor. -/
theorem two_started : ∃ a, apicInit twoRanges 0 [0, 1] (boot fun _ => 0) = some a ∧
    Granted a.system.heap.calls := by
  obtain ⟨t, s, L, heq, hs, hcalls⟩ := records_allocated (n := 32) (by decide)
  obtain ⟨a₀, ha₀⟩ : ∃ a₀ : State, a₀ = ⟨⟨s, [⟨t + 48, 2 * 16⟩]⟩, t + 48, []⟩ := ⟨_, rfl⟩
  have hl₀ : ⟨a₀.stacklist, 2 * 16⟩ ∈ a₀.system.live := by
    rw [ha₀]
    exact List.mem_singleton.mpr rfl
  have hs₀ : Sound a₀.system L := by
    rw [ha₀]
    exact hs
  have hc₀ : a₀.system.heap.calls = s.calls := by rw [ha₀]
  -- the record of the boot processor, and the id of the other
  obtain ⟨a₁, ha₁⟩ : ∃ a₁, a₁ = ((a₀.poke 0 0).poke 8 BOOT_BSP_STACK_BASE).poke 16 1 := ⟨_, rfl⟩
  have hs₁ : Sound a₁.system L := by
    rw [ha₁]
    exact poke_sound (poke_sound (poke_sound hs₀ hl₀ (by decide)) hl₀ (by decide)) hl₀ (by decide)
  have hc₁ : a₁.system.heap.calls = s.calls := by
    rw [ha₁]
    exact hc₀
  obtain ⟨p, s₂, hmalloc, hcalls₂, _⟩ := hs₁.inv.malloc twoRanges small_stack.sized
  have hg : Granted s₂.calls := by
    have hpages : pagesFor (BOOT_STACK_SIZE + 48) = 16385 := by
      unfold BOOT_STACK_SIZE
      decide
    rw [hc₁] at hcalls₂
    rcases hcalls₂ with hc | ⟨r, hr, hbase, hc⟩
    · rw [hc]
      exact granted_records hcalls
    · rw [hc, hbase, hr, hpages]
      rcases hcalls with hc | hc
      · rw [hc]
        exact ⟨by decide, by decide, nofun, trivial⟩
      · rw [hc]
        refine ⟨by decide, by decide, fun r hr => ?_, granted_records (.inr rfl)⟩
        obtain rfl := List.mem_singleton.mp hr
        exact .inr (by decide)
  have hone : startOne twoRanges 0 0 0 a₀ =
      some ((a₀.poke 0 0).poke 8 BOOT_BSP_STACK_BASE) := if_pos rfl
  have htwo : startOne twoRanges 0 1 1 ((a₀.poke 0 0).poke 8 BOOT_BSP_STACK_BASE) =
      some (((a₁.note p BOOT_STACK_SIZE s₂).poke 24 p).start 1 ⟨p, BOOT_STACK_SIZE⟩) := by
    rw [startOne, if_neg (by decide)]
    show (malloc twoRanges BOOT_STACK_SIZE (State.poke 16 1 _).system.heap).bind _ = _
    rw [← ha₁, hmalloc, ha₁]
    rfl
  have hnow : apicInit twoRanges 0 [0, 1] (boot fun _ => 0) =
      some (((a₁.note p BOOT_STACK_SIZE s₂).poke 24 p).start 1 ⟨p, BOOT_STACK_SIZE⟩) := by
    have hnote : Alloc.note (t + 48) (2 * 16) (boot fun _ => 0).live = [⟨t + 48, 2 * 16⟩] :=
      Sound.note_ptr
    rw [apicInit, show ([0, 1] : List UInt8).length * 16 = 2 * 16 from rfl, heq]
    show startLoop twoRanges 0 0 [0, 1] _ = _
    rw [hnote, ← ha₀, startLoop, hone]
    show (startOne twoRanges 0 1 1 _).bind _ = _
    rw [htwo]
    rfl
  exact ⟨_, hnow, hg⟩

/-- With a second processor its first push leaves the block. -/
theorem stack_outside : ∃ a, apicInit twoRanges 0 [0, 1] (boot fun _ => 0) = some a ∧
    Granted a.system.heap.calls ∧ ¬ Safe 0 [0, 1] a := by
  obtain ⟨a, hnow, hg⟩ := two_started
  obtain ⟨hready, _⟩ := apicInit_ready (Sound.boot _) (by decide) hnow hg
  refine ⟨a, hnow, hg, fun hsafe => ?_⟩
  obtain ⟨q, b, hstack⟩ := hsafe 1 (by decide) (by decide)
  exact hready.not_stackSafe (by decide) hstack

end Kvi.Apic
