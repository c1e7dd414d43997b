import Kvi.Apic.Stacks
import Kvi.Library.Runs

/-! The start of the processors, step by step.

The loop of `apic_init` writes a record and then sends the interrupts that let
the record's processor run, while the processors started before it scan the
records. Memory is sequentially consistent: a step is one access. Only `malloc`
is more than one access, so that a processor may read in the middle of it; what
it then sees is any memory in which the live blocks are as they were.

The records above the processor's own are not written yet, and hold what was
there before. `Ok` says that no scan goes that far: a processor that runs has its
record behind it in the loop, and no record below has its id. -/
namespace Kvi.Apic
open Alloc

/-- What is written to `MSR_X2APIC_ICR`, by delivery mode. -/
inductive Ipi where
  | init
  | startup (vector : Nat)
  deriving DecidableEq, Repr

/-- The interrupts that `apic_init` sends to each processor. -/
def ipis : List Ipi := [.init, .startup 8, .startup 8]

/-- What another processor does next, from `start_ap`'s load of `stacklist` on. -/
inductive Ap where
  | halted
  | table
  | scan (rbx rsi : Nat)
  | take (rbx rsi : Nat)
  | running (rsp : Nat)
  deriving DecidableEq, Repr

namespace Ap

/-- The second start-up interrupt finds the processor running and is ignored. -/
def deliver : Ipi → Ap → Ap
  | .init, _ => .halted
  | .startup _, .halted => .table
  | .startup _, q => q

/-- One instruction that touches memory, `rdi` being the processor's own id. -/
def next (stacklist rdi : Nat) (m : Memory) : Ap → Option Ap
  | .halted => none
  | .table => some (.scan stacklist 0)
  | .scan rbx rsi =>
    if m.load (u64 (rbx + rsi)) 8 = rdi then some (.take rbx rsi)
    else some (.scan rbx (u64 (rsi + 16)))
  | .take rbx rsi => some (.running (m.load (u64 (rbx + u64 (rsi + 8))) 8))
  | .running _ => none

/-- The address that the next instruction reads. -/
def reads : Ap → Option Nat
  | .scan rbx rsi => some (u64 (rbx + rsi))
  | .take rbx rsi => some (u64 (rbx + u64 (rsi + 8)))
  | .halted | .table | .running _ => none

/-- How many instructions are left for the processor with record `j`. -/
def left (j : Nat) : Ap → Nat
  | .halted | .table => j + 3
  | .scan _ rsi => j - rsi / 16 + 2
  | .take _ _ => 1
  | .running _ => 0

end Ap

/-- Where the boot processor is in the loop body. -/
inductive Phase where
  | test
  | boot (id : UInt8)
  | call (id : UInt8)
  | inside (id : UInt8)
  | fill (id : UInt8) (p : Nat)
  | send (id : UInt8) (ipis : List Ipi)
  deriving DecidableEq, Repr

/-- The processor whose record is begun. -/
def Phase.begun : Phase → List UInt8
  | .boot id | .call id | .inside id | .fill id _ => [id]
  | .test | .send _ _ => []

/-- The ids with a complete record are `done`, those the loop has not come to are `todo`. -/
structure Config where
  state : State
  phase : Phase
  done : List UInt8
  todo : List UInt8
  ap : UInt8 → Ap

inductive Actor where
  | bsp
  | ap (id : UInt8)
  deriving DecidableEq, Repr

namespace Config

/-- The memory another processor may find. -/
def Sees (c : Config) (m : Memory) : Prop :=
  match c.phase with
  | .inside _ => ∀ b ∈ c.state.system.live, ∀ x, b.ptr ≤ x → x < b.ptr + b.size → m x = c.state.mem x
  | _ => m = c.state.mem

/-- The two words of a complete record. -/
def Written (c : Config) (x : Nat) : Prop :=
  ∃ j < c.done.length, x = c.state.stacklist + 16 * j ∨ x = c.state.stacklist + 16 * j + 8

end Config

/-- One access, of the boot processor or of one that runs. -/
inductive Step (src : PageSource) (bootApicId : Nat) : Config → Actor → Config → Prop where
  /-- The next processor's id goes into its record. -/
  | pokeId {c : Config} {id : UInt8} {ids : List UInt8} (phase : c.phase = .test) (todo : c.todo = id :: ids) :
      Step src bootApicId c .bsp
        {c with state := c.state.poke (16 * c.done.length) id.toNat, todo := ids,
                phase := if id.toNat = bootApicId then .boot id else .call id}
  | bootBase {c : Config} {id : UInt8} (phase : c.phase = .boot id) :
      Step src bootApicId c .bsp
        {c with state := c.state.poke (16 * c.done.length + 8) BOOT_BSP_STACK_BASE,
                phase := .test, done := c.done ++ [id]}
  | call {c : Config} {id : UInt8} (phase : c.phase = .call id) :
      Step src bootApicId c .bsp {c with phase := .inside id}
  | malloc {c : Config} {id : UInt8} {p : Nat} {s : Heap} (phase : c.phase = .inside id)
      (now : malloc src BOOT_STACK_SIZE c.state.system.heap = some (p, s)) :
      Step src bootApicId c .bsp {c with state := c.state.note p BOOT_STACK_SIZE s, phase := .fill id p}
  | fill {c : Config} {id : UInt8} {p : Nat} (phase : c.phase = .fill id p) :
      Step src bootApicId c .bsp
        {c with state := (c.state.poke (16 * c.done.length + 8) p).start id ⟨p, BOOT_STACK_SIZE⟩,
                phase := .send id ipis, done := c.done ++ [id]}
  | send {c : Config} {id : UInt8} {m : Ipi} {ms : List Ipi} (phase : c.phase = .send id (m :: ms)) :
      Step src bootApicId c .bsp
        {c with phase := .send id ms, ap := Function.update c.ap id ((c.ap id).deliver m)}
  | sent {c : Config} {id : UInt8} (phase : c.phase = .send id []) :
      Step src bootApicId c .bsp {c with phase := .test}
  | ap {c : Config} {id : UInt8} {m : Memory} {q : Ap} (sees : c.Sees m)
      (now : (c.ap id).next c.state.stacklist id.toNat m = some q) :
      Step src bootApicId c (.ap id) {c with ap := Function.update c.ap id q}

/-- `apic_init` when it enters its loop. -/
def enter (src : PageSource) (cpulist : List UInt8) (σ : System) : Option Config := do
  let (p, s) ← malloc src (cpulist.length * 16) σ.heap
  some ⟨⟨⟨s, Alloc.note p (cpulist.length * 16) σ.live⟩, p, []⟩, .test, [], cpulist, fun _ => .halted⟩

variable {src : PageSource} {bootApicId n : Nat} {ids : List UInt8} {id : UInt8} {c c' : Config}
  {a a' : State} {q q' : Ap} {m : Memory} {p : Nat} {act : Actor} {acts : List Actor}
  {σ : System} {trace : List (Op × Nat)}

/-! ### The boot processor alone -/

/-- The processors after the loop has sent its interrupts to those of `ids`, if nobody else has
taken a step. -/
def wake (bootApicId : Nat) (ids : List UInt8) (ap : UInt8 → Ap) : UInt8 → Ap :=
  fun id => if id ∈ ids ∧ id.toNat ≠ bootApicId then .table else ap id

/-- The three interrupts bring a processor to `start_ap`, once. -/
theorem Step.wakes (hphase : c.phase = .send id ipis) :
    Steps (Step src bootApicId) c (List.replicate 4 .bsp)
      {c with phase := .test, ap := Function.update c.ap id .table} := by
  have h : Steps (Step src bootApicId) c (List.replicate 4 .bsp) _ :=
    .cons (.send hphase) (.cons (.send rfl) (.cons (.send rfl) (.single (.sent rfl))))
  simp only [Function.update_idem, Function.update_self, Ap.deliver] at h
  exact h

/-- One turn of the loop. -/
theorem Step.turn (hphase : c.phase = .test) {rest : List UInt8} (htodo : c.todo = id :: rest)
    (hnow : startOne src bootApicId c.done.length id c.state = some a) :
    ∃ k, Steps (Step src bootApicId) c (List.replicate k .bsp)
      ⟨a, .test, c.done ++ [id], rest, wake bootApicId [id] c.ap⟩ := by
  have hid : Step src bootApicId c .bsp _ := .pokeId hphase htodo
  rw [startOne] at hnow
  split at hnow
  · next hboot =>
    rw [if_pos hboot] at hid
    obtain rfl := Option.some.inj hnow
    have hwake : wake bootApicId [id] c.ap = c.ap := by
      funext id'
      rw [wake, if_neg]
      intro hand
      exact hand.2 (List.mem_singleton.mp hand.1 ▸ hboot)
    rw [hwake]
    exact ⟨2, .cons hid (.single (.bootBase rfl))⟩
  · next hboot =>
    rw [if_neg hboot] at hid
    obtain ⟨⟨p, s⟩, hmalloc, hrest⟩ := Option.bind_eq_some_iff.mp hnow
    obtain rfl := Option.some.inj hrest
    have hwake : wake bootApicId [id] c.ap = Function.update c.ap id .table := by
      funext id'
      rw [wake, Function.update_apply]
      by_cases hid' : id' = id
      · rw [if_pos ⟨List.mem_singleton.mpr hid', hid' ▸ hboot⟩, if_pos hid']
      · rw [if_neg fun hand => hid' (List.mem_singleton.mp hand.1), if_neg hid']
    rw [hwake]
    exact ⟨8, .cons hid (.cons (.call rfl) (.cons (.malloc rfl hmalloc) (.cons (.fill rfl) (Step.wakes rfl))))⟩

/-- If no other processor takes a step, the loop is the loop of `apicInit`. -/
theorem Step.loop (hphase : c.phase = .test) (htodo : c.todo = ids)
    (hnow : startLoop src bootApicId c.done.length ids c.state = some a) :
    ∃ k, Steps (Step src bootApicId) c (List.replicate k .bsp)
      ⟨a, .test, c.done ++ ids, [], wake bootApicId ids c.ap⟩ := by
  induction ids generalizing c with
  | nil =>
    obtain rfl := Option.some.inj hnow
    have hwake : wake bootApicId [] c.ap = c.ap := by
      funext id
      rw [wake, if_neg fun hand => List.not_mem_nil hand.1]
    rw [hwake, List.append_nil, ← hphase, ← htodo]
    exact ⟨0, .nil c⟩
  | cons id ids ih =>
    obtain ⟨a₁, hone, hrest⟩ := Option.bind_eq_some_iff.mp hnow
    obtain ⟨k, hrun⟩ := Step.turn hphase htodo hone
    obtain ⟨k', hrun'⟩ := ih (c := ⟨a₁, .test, c.done ++ [id], ids, wake bootApicId [id] c.ap⟩) rfl rfl (by
      rw [List.length_append, List.length_singleton]
      exact hrest)
    have hwake : wake bootApicId ids (wake bootApicId [id] c.ap) = wake bootApicId (id :: ids) c.ap := by
      funext id'
      simp only [wake, List.mem_cons, List.not_mem_nil, or_false]
      split_ifs <;> first | rfl | tauto
    rw [hwake, List.append_assoc, List.singleton_append] at hrun'
    refine ⟨k + k', ?_⟩
    rw [List.replicate_add]
    exact hrun.append hrun'

theorem apicInit_steps (hnow : apicInit src bootApicId ids σ = some a) :
    ∃ c₀ k, enter src ids σ = some c₀ ∧ Steps (Step src bootApicId) c₀ (List.replicate k .bsp)
      ⟨a, .test, ids, [], wake bootApicId ids fun _ => .halted⟩ := by
  obtain ⟨⟨p, s⟩, hmalloc, hloop⟩ := Option.bind_eq_some_iff.mp hnow
  obtain ⟨c₀, hc₀⟩ : ∃ c₀ : Config, c₀ =
      ⟨⟨⟨s, Alloc.note p (ids.length * 16) σ.live⟩, p, []⟩, .test, [], ids, fun _ => .halted⟩ := ⟨_, rfl⟩
  have hloop₀ : startLoop src bootApicId c₀.done.length ids c₀.state = some a := by
    rw [hc₀]
    exact hloop
  obtain ⟨k, hrun⟩ := Step.loop (by rw [hc₀]) (by rw [hc₀]) hloop₀
  refine ⟨c₀, k, ?_, ?_⟩
  · rw [enter, hmalloc, hc₀]
    rfl
  · rw [hc₀] at hrun ⊢
    exact hrun

/-! ### What holds in every interleaving -/

/-- What holds of the record that is begun, and of the interrupts to be sent. -/
def Phase.At (c : Config) : Phase → Prop
  | .test => True
  | .boot id | .call id | .inside id =>
    c.state.mem.load (c.state.stacklist + 16 * c.done.length) 8 = id.toNat
  | .fill id p =>
    c.state.mem.load (c.state.stacklist + 16 * c.done.length) 8 = id.toNat ∧
      ⟨p, BOOT_STACK_SIZE⟩ ∈ c.state.system.live ∧ ∀ e ∈ c.state.started, e.2.ptr ≠ p
  | .send id ms =>
    (∃ b, (id, b) ∈ c.state.started) ∧ .init ∉ ms.tail ∧ (.init ∈ ms → c.ap id = .halted)

/-- A processor that runs was started, and its scan has not passed its own record. -/
def Ap.At (ids : List UInt8) (a : State) (id : UInt8) : Ap → Prop
  | .halted => True
  | .table => ∃ b, (id, b) ∈ a.started
  | .scan rbx rsi => (∃ b, (id, b) ∈ a.started) ∧ rbx = a.stacklist ∧ ∃ k ≤ ids.idxOf id, rsi = 16 * k
  | .take rbx rsi => (∃ b, (id, b) ∈ a.started) ∧ rbx = a.stacklist ∧ rsi = 16 * ids.idxOf id
  | .running p => ∃ b, (id, b) ∈ a.started ∧ p = b.ptr

structure Ok (ids : List UInt8) (c : Config) : Prop where
  ready : Ready ids.length c.done c.state
  order : c.done ++ (c.phase.begun ++ c.todo) = ids
  phase : c.phase.At c
  apart : (c.state.started.map fun e => e.2.ptr).Nodup
  ap : ∀ id, (c.ap id).At ids c.state id

theorem Ap.At.mono (h : q.At ids a id) (hstarted : ∀ e ∈ a.started, e ∈ a'.started)
    (hlist : a'.stacklist = a.stacklist) : q.At ids a' id := by
  have hb : (∃ b, (id, b) ∈ a.started) → ∃ b, (id, b) ∈ a'.started := fun ⟨b, hb⟩ => ⟨b, hstarted _ hb⟩
  cases q with
  | halted => trivial
  | table => exact hb h
  | scan rbx rsi => exact ⟨hb h.1, h.2.1.trans hlist.symm, h.2.2⟩
  | take rbx rsi => exact ⟨hb h.1, h.2.1.trans hlist.symm, h.2.2⟩
  | running p =>
    obtain ⟨b, hmem, hp⟩ := h
    exact ⟨b, hstarted _ hmem, hp⟩

/-- One processor goes on, the others are where they were. -/
theorem Ap.At.update {f : UInt8 → Ap} (h : ∀ id, (f id).At ids a id) (hq : q.At ids a id) (id' : UInt8) :
    (Function.update f id q id').At ids a id' := by
  by_cases hid : id' = id
  · subst hid
    rw [Function.update_self]
    exact hq
  · rw [Function.update_of_ne hid]
    exact h id'

theorem Ap.At.started (h : q.At ids a id) (hq : q ≠ .halted) : ∃ b, (id, b) ∈ a.started := by
  cases q with
  | halted => exact absurd rfl hq
  | table => exact h
  | scan rbx rsi => exact h.1
  | take rbx rsi => exact h.1
  | running p =>
    obtain ⟨b, hmem, _⟩ := h
    exact ⟨b, hmem⟩

namespace Ok

theorem at_phase (h : Ok ids c) {f : Phase} (hphase : c.phase = f) :
    f.At c ∧ c.done ++ (f.begun ++ c.todo) = ids := by
  rw [← hphase]
  exact ⟨h.phase, h.order⟩

/-- The loop has room for the record that is begun. -/
theorem lt_length (h : Ok ids c) {f : Phase} (hphase : c.phase = f) (ho : f.begun ++ c.todo ≠ []) :
    c.done.length < ids.length := by
  have hlen := congrArg List.length (h.at_phase hphase).2
  have hpos := List.length_pos_iff.mpr ho
  rw [List.length_append] at hlen
  omega

/-- The complete records lie among the others, and all of them in the address space. -/
theorem bounds (h : Ok ids c) :
    c.done.length ≤ ids.length ∧ c.state.stacklist + ids.length * 16 < 2 ^ 64 := by
  obtain ⟨L, hs⟩ := h.ready.sound
  have hlen := congrArg List.length h.order
  rw [List.length_append] at hlen
  exact ⟨by omega, (hs.live_lt h.ready.list).1⟩

/-- The record of a processor that was started is complete, and it is the one with its id. -/
theorem record (h : Ok ids c) (hb : ∃ b, (id, b) ∈ c.state.started) :
    ids.idxOf id < c.done.length ∧ c.done[ids.idxOf id]? = some id := by
  obtain ⟨b, hb⟩ := hb
  obtain ⟨_, _, j, hj, _⟩ := h.ready.started id b hb
  have hmem : id ∈ c.done := List.mem_of_getElem? hj
  have hidx : ids.idxOf id = c.done.idxOf id := by
    rw [← h.order, List.idxOf_append_of_mem hmem]
  have hlt := List.idxOf_lt_length_iff.mpr hmem
  rw [hidx]
  exact ⟨hlt, by rw [List.getElem?_eq_getElem hlt, List.getElem_idxOf hlt]⟩

/-- Whatever another processor finds, the records are as the boot processor left them. -/
theorem load_seen (h : Ok ids c) (hm : c.Sees m) {k : Nat} (hk : k + 8 ≤ ids.length * 16) :
    m.load (c.state.stacklist + k) 8 = c.state.mem.load (c.state.stacklist + k) 8 := by
  rw [Config.Sees] at hm
  split at hm
  · exact Memory.load_congr fun x hlo hhi =>
      hm _ h.ready.list x (by simp only; omega) (by simp only; omega)
  · rw [hm]

/-- What a processor that runs can do next. -/
theorem next_cases (h : Ok ids c) (hd : ids.Nodup) (hm : c.Sees m)
    (hnow : (c.ap id).next c.state.stacklist id.toNat m = some q) :
    (c.ap id = .table ∧ q = .scan c.state.stacklist 0) ∨
    (∃ k < ids.idxOf id, c.ap id = .scan c.state.stacklist (16 * k) ∧
      q = .scan c.state.stacklist (16 * (k + 1))) ∨
    (c.ap id = .scan c.state.stacklist (16 * ids.idxOf id) ∧
      q = .take c.state.stacklist (16 * ids.idxOf id)) ∨
    ∃ b, c.ap id = .take c.state.stacklist (16 * ids.idxOf id) ∧ (id, b) ∈ c.state.started ∧
      q = .running b.ptr := by
  obtain ⟨hlen, hlt⟩ := h.bounds
  have hdone : c.done.Nodup := by
    rw [← h.order] at hd
    exact hd.of_append_left
  have hat := h.ap id
  cases hq : c.ap id with
  | halted =>
    rw [hq] at hnow
    cases hnow
  | running p =>
    rw [hq] at hnow
    cases hnow
  | table =>
    rw [hq] at hnow
    exact .inl ⟨rfl, (Option.some.inj hnow).symm⟩
  | scan rbx rsi =>
    rw [hq] at hat hnow
    obtain ⟨hb, rfl, k, hk, rfl⟩ := hat
    obtain ⟨hidx, hown⟩ := h.record hb
    obtain ⟨id', hget⟩ : ∃ id', c.done[k]? = some id' := ⟨_, List.getElem?_eq_getElem (by omega)⟩
    rw [Ap.next, u64_of_lt (by omega), h.load_seen hm (by omega), h.ready.ids k _ hget] at hnow
    split at hnow
    · next heq =>
      -- the record with the processor's own id
      rw [UInt8.toNat_inj.mp heq] at hget
      obtain rfl := (List.getElem?_inj (by omega) hdone).mp (hget.trans hown.symm)
      exact .inr (.inr (.inl ⟨rfl, (Option.some.inj hnow).symm⟩))
    · next hne =>
      have hlt : k < ids.idxOf id := by
        refine lt_of_le_of_ne hk fun heq => hne ?_
        subst heq
        rw [Option.some.inj (hget.symm.trans hown)]
      rw [u64_of_lt (by omega)] at hnow
      exact .inr (.inl ⟨k, hlt, rfl, (Option.some.inj hnow).symm⟩)
  | take rbx rsi =>
    rw [hq] at hat hnow
    obtain ⟨⟨b, hb⟩, rfl, rfl⟩ := hat
    obtain ⟨hidx, hown⟩ := h.record ⟨b, hb⟩
    obtain ⟨_, _, j, hj, hbase⟩ := h.ready.started id b hb
    obtain rfl := (List.getElem?_inj hidx hdone).mp (hown.trans hj.symm)
    rw [Ap.next, u64_of_lt (n := 16 * _ + 8) (by omega), u64_of_lt (by omega), h.load_seen hm (by omega),
      ← Nat.add_assoc, hbase] at hnow
    exact .inr (.inr (.inr ⟨b, rfl, hb, (Option.some.inj hnow).symm⟩))

/-! ### The steps of the boot processor -/

theorem pokeId (h : Ok ids c) (hphase : c.phase = .test) {rest : List UInt8} (htodo : c.todo = id :: rest) :
    Ok ids {c with state := c.state.poke (16 * c.done.length) id.toNat, todo := rest,
                   phase := if id.toNat = bootApicId then .boot id else .call id} := by
  obtain ⟨_, horder⟩ := h.at_phase hphase
  have hn := h.lt_length hphase (by simp [htodo])
  obtain ⟨hready, hload⟩ := h.ready.pokeId hn id
  refine ⟨hready, ?_, ?_, h.apart, fun id' => (h.ap id').mono (fun _ he => he) rfl⟩
  · rw [htodo] at horder
    dsimp only
    split <;> exact horder
  · dsimp only
    split <;> exact hload

theorem bootBase (h : Ok ids c) (hphase : c.phase = .boot id) :
    Ok ids {c with state := c.state.poke (16 * c.done.length + 8) BOOT_BSP_STACK_BASE,
                   phase := .test, done := c.done ++ [id]} := by
  obtain ⟨hat, horder⟩ := h.at_phase hphase
  have hn := h.lt_length hphase (List.cons_ne_nil _ _)
  have hbase : BOOT_BSP_STACK_BASE < 2 ^ 64 := by
    unfold BOOT_BSP_STACK_BASE
    decide
  refine ⟨(h.ready.pokeBase hn hat hbase).1, ?_, trivial, h.apart,
    fun id' => (h.ap id').mono (fun _ he => he) rfl⟩
  rw [← horder, List.append_assoc]
  rfl

theorem call (h : Ok ids c) (hphase : c.phase = .call id) : Ok ids {c with phase := .inside id} := by
  obtain ⟨hat, horder⟩ := h.at_phase hphase
  exact ⟨h.ready, horder, hat, h.apart, h.ap⟩

theorem malloc (h : Ok ids c) (hphase : c.phase = .inside id) {s : Heap}
    (hnow : Alloc.malloc src BOOT_STACK_SIZE c.state.system.heap = some (p, s)) (hg : Granted s.calls) :
    Ok ids {c with state := c.state.note p BOOT_STACK_SIZE s, phase := .fill id p} := by
  obtain ⟨hat, horder⟩ := h.at_phase hphase
  have hn := h.lt_length hphase (List.cons_ne_nil _ _)
  obtain ⟨hready, hlive, hkeep⟩ := h.ready.malloc hn small_stack hnow hg
  refine ⟨hready, horder, ⟨(hkeep (16 * c.done.length) (by omega)).trans hat, hlive, fun e he heq => ?_⟩, h.apart,
    fun id' => (h.ap id').mono (fun _ he => he) rfl⟩
  -- the blocks handed out before are live, and no two live blocks have one pointer
  obtain ⟨L, hs⟩ := hready.sound
  have hp := (hs.live_lt hlive).2
  have hnodup := hs.nodup
  rw [State.note, Alloc.note, if_neg (by simp only at hp; omega), List.map_cons, List.nodup_cons] at hnodup
  exact hnodup.1 (List.mem_map.mpr ⟨e.2, (h.ready.started e.1 e.2 he).1, heq⟩)

theorem fill (h : Ok ids c) (hphase : c.phase = .fill id p) (hd : ids.Nodup) :
    Ok ids {c with state := (c.state.poke (16 * c.done.length + 8) p).start id ⟨p, BOOT_STACK_SIZE⟩,
                   phase := .send id ipis, done := c.done ++ [id]} := by
  obtain ⟨hat, horder⟩ := h.at_phase hphase
  have hn := h.lt_length hphase (List.cons_ne_nil _ _)
  obtain ⟨hload, hlive, hnew⟩ := hat
  have hmem : ∀ e ∈ c.state.started, e ∈ (c.state.start id ⟨p, BOOT_STACK_SIZE⟩).started :=
    fun e he => List.mem_cons_of_mem _ he
  refine ⟨h.ready.start hn hload hlive, ?_, ⟨⟨_, List.mem_cons_self ..⟩, by decide, fun _ => ?_⟩, ?_,
    fun id' => (h.ap id').mono hmem rfl⟩
  · rw [← horder, List.append_assoc]
    rfl
  · -- its record was not complete before, so that it cannot have run
    by_contra hrun
    have hdone := List.mem_of_getElem? (h.record ((h.ap id).started hrun)).2
    rw [← horder] at hd
    exact List.disjoint_of_nodup_append hd hdone (List.mem_cons_self ..)
  · refine List.nodup_cons.mpr ⟨fun hin => ?_, h.apart⟩
    obtain ⟨e, he, heq⟩ := List.mem_map.mp hin
    exact hnew e he heq

theorem send (h : Ok ids c) {i : Ipi} {is : List Ipi} (hphase : c.phase = .send id (i :: is)) :
    Ok ids {c with phase := .send id is, ap := Function.update c.ap id ((c.ap id).deliver i)} := by
  obtain ⟨⟨hb, hlast, _⟩, horder⟩ := h.at_phase hphase
  rw [List.tail_cons] at hlast
  refine ⟨h.ready, horder, ⟨hb, fun hin => hlast (List.mem_of_mem_tail hin),
    fun hin => absurd hin hlast⟩, h.apart, .update h.ap ?_⟩
  have hq := h.ap id
  cases i with
  | init => trivial
  | startup vector =>
    cases hap : c.ap id with
    | halted => exact hb
    | table | scan | take | running =>
      rw [hap] at hq
      exact hq

theorem sent (h : Ok ids c) (hphase : c.phase = .send id []) : Ok ids {c with phase := .test} := by
  exact ⟨h.ready, (h.at_phase hphase).2, trivial, h.apart, h.ap⟩

/-! ### The steps of the others -/

theorem look (h : Ok ids c) (hd : ids.Nodup) (hm : c.Sees m)
    (hnow : (c.ap id).next c.state.stacklist id.toNat m = some q) :
    Ok ids {c with ap := Function.update c.ap id q} := by
  have hrun : c.ap id ≠ .halted := fun hq => by
    rw [hq] at hnow
    cases hnow
  have hb := (h.ap id).started hrun
  refine ⟨h.ready, h.order, ?_, h.apart, .update h.ap ?_⟩
  · have hat := h.phase
    dsimp only
    cases hphase : c.phase with
    | send id' ms =>
      rw [hphase] at hat
      refine ⟨hat.1, hat.2.1, fun hin => ?_⟩
      have hhalted := hat.2.2 hin
      have hne : id' ≠ id := fun heq => hrun (heq ▸ hhalted)
      exact (Function.update_of_ne hne ..).trans hhalted
    | test | boot | call | inside | fill =>
      rw [hphase] at hat
      exact hat
  · rcases h.next_cases hd hm hnow with ⟨_, rfl⟩ | ⟨k, hk, _, rfl⟩ | ⟨_, rfl⟩ | ⟨b, _, hmem, rfl⟩
    · exact ⟨hb, rfl, 0, Nat.zero_le _, rfl⟩
    · exact ⟨hb, rfl, k + 1, hk, rfl⟩
    · exact ⟨hb, rfl, rfl⟩
    · exact ⟨b, hmem, rfl⟩

theorem step (h : Ok ids c) (hd : ids.Nodup) (hnow : Step src bootApicId c act c')
    (hg : Granted c'.state.system.heap.calls) : Ok ids c' := by
  cases hnow with
  | pokeId hphase htodo => exact h.pokeId hphase htodo
  | bootBase hphase => exact h.bootBase hphase
  | call hphase => exact h.call hphase
  | malloc hphase hmalloc => exact h.malloc hphase hmalloc hg
  | fill hphase => exact h.fill hphase hd
  | send hphase => exact h.send hphase
  | sent hphase => exact h.sent hphase
  | ap hsees hnext => exact h.look hd hsees hnext

/-- Each instruction of a processor is one less for it. -/
theorem left_own (h : Ok ids c) (hd : ids.Nodup) (hnow : Step src bootApicId c (.ap id) c') :
    (c.ap id).left (ids.idxOf id) = (c'.ap id).left (ids.idxOf id) + 1 := by
  cases hnow with
  | ap hsees hnext =>
    dsimp only
    rw [Function.update_self]
    rcases h.next_cases hd hsees hnext with ⟨hq, rfl⟩ | ⟨k, hk, hq, rfl⟩ | ⟨hq, rfl⟩ | ⟨b, hq, _, rfl⟩
    · rw [hq, Ap.left, Ap.left]
      omega
    · rw [hq, Ap.left, Ap.left]
      omega
    · rw [hq, Ap.left, Ap.left]
      omega
    · rw [hq]
      rfl

/-- What the boot processor and the others do takes nothing from it. -/
theorem left_other (h : Ok ids c) (hnow : Step src bootApicId c act c') (hact : act ≠ .ap id) :
    (c'.ap id).left (ids.idxOf id) = (c.ap id).left (ids.idxOf id) := by
  cases hnow with
  | @send id' m ms hphase =>
    have hat := (h.at_phase hphase).1
    dsimp only
    by_cases hid : id = id'
    · subst hid
      rw [Function.update_self]
      cases m with
      | init => rw [hat.2.2 (List.mem_cons_self ..), Ap.deliver]
      | startup vector => cases hq : c.ap id <;> rfl
    · rw [Function.update_of_ne hid]
  | @ap id' m q hsees hnext =>
    have hid : id ≠ id' := fun heq => hact (heq ▸ rfl)
    dsimp only
    rw [Function.update_of_ne hid]
  | pokeId | bootBase | call | malloc | fill | sent => rfl

end Ok

/-- No step makes up for what the page layer has answered. -/
theorem Step.granted_before (hnow : Step src bootApicId c act c')
    (hg : Granted c'.state.system.heap.calls) : Granted c.state.system.heap.calls := by
  cases hnow with
  | malloc hphase hmalloc => exact granted_of_malloc hmalloc hg
  | pokeId | bootBase | call | fill | send | sent | ap => exact hg

/-- A processor that was sent its interrupt goes on until it has its stack. -/
theorem Step.go (hleft : (c.ap id).left n ≠ 0) (hrun : c.ap id ≠ .halted) :
    ∃ c', Step src bootApicId c (.ap id) c' := by
  have hsees : c.Sees c.state.mem := by
    rw [Config.Sees]
    split
    · exact fun _ _ _ _ _ => rfl
    · rfl
  obtain ⟨q, hnext⟩ : ∃ q, (c.ap id).next c.state.stacklist id.toNat c.state.mem = some q := by
    cases hq : c.ap id with
    | halted => exact absurd hq hrun
    | table => exact ⟨_, rfl⟩
    | scan rbx rsi =>
      rw [Ap.next]
      split
      · exact ⟨_, rfl⟩
      · exact ⟨_, rfl⟩
    | take rbx rsi => exact ⟨_, rfl⟩
    | running p =>
      rw [hq] at hleft
      exact absurd rfl hleft
  exact ⟨_, .ap hsees hnext⟩

/-! ### The lookup -/

theorem Ok.enter (h : History src trace σ) (hd : ids.Nodup) (hnow : Apic.enter src ids σ = some c)
    (hg : Granted c.state.system.heap.calls) : Ok ids c := by
  obtain ⟨L, hs⟩ := h.sound
  obtain ⟨⟨p, s⟩, hmalloc, hrest⟩ := Option.bind_eq_some_iff.mp hnow
  obtain rfl := Option.some.inj hrest
  exact ⟨.nil hs hd hmalloc hg, rfl, trivial, List.nodup_nil, fun _ => trivial⟩

/-- What is known when the parties have taken the steps `acts`. -/
structure LookedUp (src : PageSource) (bootApicId : Nat) (ids : List UInt8) (acts : List Actor)
    (c : Config) : Prop where
  /-- Only complete records are read. -/
  reads : ∀ id x, (c.ap id).reads = some x → c.Written x
  /-- The scan stops at the record with the processor's own id. -/
  own : ∀ id rbx rsi, c.ap id = .take rbx rsi → rsi = 16 * ids.idxOf id ∧
    c.state.mem.load (rbx + rsi) 8 = id.toNat
  /-- It stops: there is a bound on the instructions, and before it the processor can go on. -/
  bound : ∀ id, acts.count (.ap id) ≤ ids.idxOf id + 3
  goes : ∀ id, c.ap id ≠ .halted → acts.count (.ap id) < ids.idxOf id + 3 →
    ∃ c', Step src bootApicId c (.ap id) c'
  ends : ∀ id, acts.count (.ap id) = ids.idxOf id + 3 →
    ∃ b, (id, b) ∈ c.state.started ∧ c.ap id = .running b.ptr
  /-- No two processors have one stack base. -/
  apart : ∀ id id' p, c.ap id = .running p → c.ap id' = .running p → id = id'
  apart_boot : (∀ r ∈ held c.state.system.heap.calls, BOOT_BSP_STACK_BASE ≤ r.base) →
    ∀ id, c.ap id ≠ .running BOOT_BSP_STACK_BASE

namespace Ok

theorem written (h : Ok ids c) {x : Nat} (hx : (c.ap id).reads = some x) : c.Written x := by
  obtain ⟨hlen, hlt⟩ := h.bounds
  have hat := h.ap id
  cases hq : c.ap id with
  | halted | table | running =>
    rw [hq] at hx
    cases hx
  | scan rbx rsi =>
    rw [hq] at hat hx
    obtain ⟨hb, rfl, k, hk, rfl⟩ := hat
    have hidx := (h.record hb).1
    rw [← Option.some.inj hx, u64_of_lt (by omega)]
    exact ⟨k, by omega, .inl rfl⟩
  | take rbx rsi =>
    rw [hq] at hat hx
    obtain ⟨hb, rfl, rfl⟩ := hat
    have hidx := (h.record hb).1
    rw [← Option.some.inj hx, u64_of_lt (n := 16 * _ + 8) (by omega), u64_of_lt (by omega)]
    exact ⟨_, hidx, .inr (Nat.add_assoc ..).symm⟩

theorem own (h : Ok ids c) {rbx rsi : Nat} (hq : c.ap id = .take rbx rsi) :
    rsi = 16 * ids.idxOf id ∧ c.state.mem.load (rbx + rsi) 8 = id.toNat := by
  have hat := h.ap id
  rw [hq] at hat
  obtain ⟨hb, rfl, rfl⟩ := hat
  exact ⟨rfl, h.ready.ids _ id (h.record hb).2⟩

/-- Two processors that were started have two blocks. -/
theorem started_inj (h : Ok ids c) {id' : UInt8} {b b' : Block} (hb : (id, b) ∈ c.state.started)
    (hb' : (id', b') ∈ c.state.started) (heq : b.ptr = b'.ptr) : id = id' :=
  congrArg Prod.fst (List.inj_on_of_nodup_map h.apart hb hb' heq)

/-- The block of a processor lies above the first byte of a range. -/
theorem base_lt (h : Ok ids c) {b : Block} (hb : (id, b) ∈ c.state.started) :
    ∃ r ∈ held c.state.system.heap.calls, r.base < b.ptr := by
  obtain ⟨L, hs⟩ := h.ready.sound
  obtain ⟨t, ht, hptr, _⟩ := hs.header b (h.ready.started id b hb).1
  obtain ⟨r, hr, htr⟩ := ht.1
  have := (hs.inv.regions.within hr htr).1
  exact ⟨r, hr, by omega⟩

end Ok

theorem granted_back (c : Config) (act : Actor) (c' : Config) (hnow : Step src bootApicId c act c')
    (hg : Granted c'.state.system.heap.calls) : Granted c.state.system.heap.calls :=
  hnow.granted_before hg

/-- What holds when the loop begins holds in every interleaving. -/
theorem Ok.run {c₀ : Config} (hrun : Steps (Step src bootApicId) c₀ acts c)
    (h : History src trace σ) (hd : ids.Nodup) (henter : Apic.enter src ids σ = some c₀)
    (hg : Granted c.state.system.heap.calls) : Ok ids c :=
  hrun.keeps_while granted_back (fun _ _ _ hnow hg hok => hok.step hd hnow hg) hg
    (.enter h hd henter (hrun.before granted_back hg))

/-- The instructions a processor has executed and those that are left. -/
theorem count_left {c₀ : Config} (hrun : Steps (Step src bootApicId) c₀ acts c)
    (h : History src trace σ) (hd : ids.Nodup) (henter : enter src ids σ = some c₀)
    (hg : Granted c.state.system.heap.calls) :
    acts.count (.ap id) + (c.ap id).left (ids.idxOf id) = ids.idxOf id + 3 := by
  have hhalted : c₀.ap id = .halted := by
    obtain ⟨⟨p, s⟩, _, hrest⟩ := Option.bind_eq_some_iff.mp henter
    rw [← Option.some.inj hrest]
  have hcount := hrun.count_add (I := Ok ids) (f := fun c => (c.ap id).left (ids.idxOf id)) granted_back
    (fun _ _ _ hnow hg hok => hok.step hd hnow hg) (fun _ _ hnow hok => hok.left_own hd hnow)
    (fun _ _ _ hnow hok hact => hok.left_other hnow hact) hg
    (.enter h hd henter (hrun.before granted_back hg))
  rw [hcount, hhalted]
  rfl

/-- In any order of the steps, every processor finds its own record and a stack of its own. -/
theorem looked_up (h : History src trace σ) (hd : ids.Nodup) {c₀ : Config}
    (henter : enter src ids σ = some c₀) (hrun : Steps (Step src bootApicId) c₀ acts c)
    (hg : Granted c.state.system.heap.calls) : LookedUp src bootApicId ids acts c := by
  have hok := Ok.run hrun h hd henter hg
  have hcount : ∀ id, acts.count (.ap id) + (c.ap id).left (ids.idxOf id) = ids.idxOf id + 3 :=
    fun id => count_left hrun h hd henter hg
  refine ⟨fun id x => hok.written, fun id rbx rsi => hok.own, fun id => ?_, fun id hq hlt => ?_,
    fun id heq => ?_, fun id id' p hq hq' => ?_, fun hbase id hq => ?_⟩
  · have := hcount id
    omega
  · have := hcount id
    exact Step.go (n := ids.idxOf id) (by omega) hq
  · have hleft : (c.ap id).left (ids.idxOf id) = 0 := by
      have := hcount id
      omega
    have hat := hok.ap id
    cases hq : c.ap id with
    | running p =>
      rw [hq] at hat
      obtain ⟨b, hb, rfl⟩ := hat
      exact ⟨b, hb, rfl⟩
    | halted | table | scan | take =>
      rw [hq] at hleft
      cases hleft
  · have hat := hok.ap id
    have hat' := hok.ap id'
    rw [hq] at hat
    rw [hq'] at hat'
    obtain ⟨b, hb, heq⟩ := hat
    obtain ⟨b', hb', heq'⟩ := hat'
    exact hok.started_inj hb hb' (heq.symm.trans heq')
  · have hat := hok.ap id
    rw [hq] at hat
    obtain ⟨b, hb, heq⟩ := hat
    obtain ⟨r, hr, hlt⟩ := hok.base_lt hb
    have := hbase r hr
    omega

/-- A processor that runs comes to its stack without the help of the others. -/
theorem Ok.finish (src : PageSource) (bootApicId : Nat) (h : Ok ids c) (hd : ids.Nodup)
    (hrun : c.ap id ≠ .halted) (hg : Granted c.state.system.heap.calls) :
    ∃ k c', Steps (Step src bootApicId) c (List.replicate k (.ap id)) c' ∧
      Granted c'.state.system.heap.calls ∧ ∃ p, c'.ap id = .running p := by
  have hlook : ∀ c c', Step src bootApicId c (.ap id) c' →
      (Ok ids c ∧ Granted c.state.system.heap.calls ∧ c.ap id ≠ .halted) →
      Ok ids c' ∧ Granted c'.state.system.heap.calls ∧ c'.ap id ≠ .halted := by
    intro c c' hnow ⟨hok, hg, _⟩
    cases hnow with
    | ap hsees hnext =>
      refine ⟨hok.look hd hsees hnext, hg, ?_⟩
      dsimp only
      rw [Function.update_self]
      rcases hok.next_cases hd hsees hnext with ⟨_, rfl⟩ | ⟨k, _, _, rfl⟩ | ⟨_, rfl⟩ | ⟨b, _, _, rfl⟩ <;>
        nofun
  obtain ⟨c', hsteps, ⟨_, hg', _⟩, hend⟩ := Steps.exhaust
    (f := fun c => (c.ap id).left (ids.idxOf id)) hlook
    (fun c c' hnow hok => hok.1.left_own hd hnow) (fun c hok hleft => Step.go hleft hok.2.2) ⟨h, hg, hrun⟩
  refine ⟨_, c', hsteps, hg', ?_⟩
  cases hq : c'.ap id with
  | running p => exact ⟨p, rfl⟩
  | halted | table | scan | take =>
    rw [hq] at hend
    cases hend

/-- The second of two processors comes to its stack. -/
theorem looked_up_second : ∃ c₀ acts c p, enter twoRanges [0, 1] (boot fun _ => 0) = some c₀ ∧
    Steps (Step twoRanges 0) c₀ acts c ∧ c.ap 1 = .running p ∧
    LookedUp twoRanges 0 [0, 1] acts c := by
  obtain ⟨a, hnow, hg⟩ := two_started
  obtain ⟨c₀, k, henter, hrun⟩ := apicInit_steps hnow
  obtain ⟨c₁, hc₁⟩ : ∃ c₁ : Config, c₁ = ⟨a, .test, [0, 1], [], wake 0 [0, 1] fun _ => .halted⟩ := ⟨_, rfl⟩
  rw [← hc₁] at hrun
  have hg₁ : Granted c₁.state.system.heap.calls := by
    rw [hc₁]
    exact hg
  have hrun₁ : c₁.ap 1 ≠ .halted := by
    rw [hc₁]
    show wake 0 [0, 1] (fun _ => .halted) 1 ≠ .halted
    decide
  have hok₁ := Ok.run hrun (.boot _) (by decide) henter hg₁
  obtain ⟨k', c₂, hrun₂, hg₂, p, hp⟩ := hok₁.finish twoRanges 0 (by decide) hrun₁ hg₁
  have hall := hrun.append hrun₂
  exact ⟨c₀, _, c₂, p, henter, hall, hp, looked_up (.boot _) (by decide) henter hall hg₂⟩

end Kvi.Apic
