import Kvi.Apic.Startup
import Kvi.Printf.Console

/-! The processors are stopped.

`apic_deinit` goes through the list of the processors, sends an `INIT` interrupt to each
but its own, and prints that it has stopped. A processor that gets the interrupt takes no
further step, whatever it was doing. The others print meanwhile (`init_ap`), under the
lock of `do_printf` as `apic_deinit` does; so one may be stopped while it has that lock,
and then the message about it is never printed. That is the only thing that can keep
`apic_deinit` from its end (`deinit_ends_iff`). -/
namespace Kvi.Apic
open Lock Printf

/-- `"APIC: Processor %02x stopped.\n"`, without its NUL. -/
def stoppedFormat : List Int8 :=
  ['A', 'P', 'I', 'C', ':', ' ', 'P', 'r', 'o', 'c', 'e', 's', 's', 'o', 'r', ' ', '%', '0', '2', 'x',
    ' ', 's', 't', 'o', 'p', 'p', 'e', 'd', '.', '\n'].map ch

/-- The call that prints it. -/
structure Says (id : UInt8) (c : Call) : Prop where
  args : c.args.word 0 = id.toNat
  format : c.format = stoppedFormat ++ [0]
  console : c.console = true

/-- Where the boot processor is in the loop body. -/
inductive Halting where
  | test
  | stop (id : UInt8)
  | print (id : UInt8)
  | printing (id : UInt8)
  deriving DecidableEq, Repr

/-- All processors, those that print included, and those of which the `INIT` was sent. -/
structure Deinit where
  callers : Callers Actor Call Uart
  phase : Halting
  todo : List UInt8
  stopped : List UInt8

namespace Deinit

inductive Step (bootApicId : Nat) : Deinit → Option Actor → Deinit → Prop where
  | skip {c : Deinit} {id : UInt8} {ids : List UInt8} (phase : c.phase = .test) (todo : c.todo = id :: ids)
      (boot : id.toNat = bootApicId) : Step bootApicId c (some .bsp) {c with todo := ids}
  | next {c : Deinit} {id : UInt8} {ids : List UInt8} (phase : c.phase = .test) (todo : c.todo = id :: ids)
      (other : id.toNat ≠ bootApicId) :
      Step bootApicId c (some .bsp) {c with phase := .stop id, todo := ids}
  | stop {c : Deinit} {id : UInt8} (phase : c.phase = .stop id) :
      Step bootApicId c (some .bsp) {c with phase := .print id, stopped := id :: c.stopped}
  | call {c : Deinit} {id : UInt8} {m : Call} {x : Callers Actor Call Uart} (phase : c.phase = .print id)
      (message : Says id m) (now : Callers.Step Printf.console c.callers (some .bsp) x)
      (made : (x.own .bsp).made = (c.callers.own .bsp).made ++ [m]) :
      Step bootApicId c (some .bsp) {c with callers := x, phase := .printing id}
  | go {c : Deinit} {id : UInt8} {x : Callers Actor Call Uart} (phase : c.phase = .printing id)
      (now : Callers.Step Printf.console c.callers (some .bsp) x)
      (made : (x.own .bsp).made = (c.callers.own .bsp).made) :
      Step bootApicId c (some .bsp) {c with callers := x}
  | back {c : Deinit} {id : UInt8} (phase : c.phase = .printing id)
      (out : (c.callers.own .bsp).cpu.pc = .out) (free : (c.callers.own .bsp).cpu.holds = false) :
      Step bootApicId c (some .bsp) {c with phase := .test}
  | ap {c : Deinit} {id : UInt8} {x : Callers Actor Call Uart} (runs : id ∉ c.stopped)
      (now : Callers.Step Printf.console c.callers (some (.ap id)) x) :
      Step bootApicId c (some (.ap id)) {c with callers := x}
  | env {c : Deinit} {x : Callers Actor Call Uart} (now : Callers.Step Printf.console c.callers none x) :
      Step bootApicId c none {c with callers := x}

/-- `apic_deinit` is called: the boot processor is in no call, the others may be. -/
structure Begins (cpulist : List UInt8) (c : Deinit) : Prop where
  callers : Callers.Reachable Printf.console ⟨none, [], []⟩ c.callers
  out : (c.callers.own .bsp).cpu.pc = .out
  free : (c.callers.own .bsp).cpu.holds = false
  phase : c.phase = .test
  todo : c.todo = cpulist
  stopped : c.stopped = []

/-- `apic_deinit` has returned. -/
def Ended (c : Deinit) : Prop := c.phase = .test ∧ c.todo = []

variable {bootApicId : Nat} {cpulist : List UInt8} {c c' c₀ : Deinit} {act : Option Actor} {acts : List (Option Actor)}
  {id : UInt8} {x : Callers Actor Call Uart} {made : List Call}

/-- The processor whose interrupt is about to be sent, and the one whose message is not printed. -/
def due : Halting → List UInt8
  | .stop id => [id]
  | .test | .print _ | .printing _ => []

def unsaid : Halting → List UInt8
  | .print id => [id]
  | .test | .stop _ | .printing _ => []

/-- The processors that `apic_deinit` stops. -/
def others (bootApicId : Nat) (ids : List UInt8) : List UInt8 := ids.filter fun id => id.toNat ≠ bootApicId

/-- The boot processor waits for the message it is about to print. -/
def Waits (c : Deinit) : Prop :=
  (∃ id, c.phase = .print id) ∨
    ∃ id line, c.phase = .printing id ∧ (c.callers.own .bsp).cpu.pc = .run .spinlockLock line

/-- What holds in every order of the steps; `made` is what the boot processor has printed before. -/
structure Fine (bootApicId : Nat) (cpulist : List UInt8) (made : List Call) (c : Deinit) : Prop where
  callers : Callers.Reachable Printf.console ⟨none, [], []⟩ c.callers
  outside : (∀ id, c.phase ≠ .printing id) →
    (c.callers.own .bsp).cpu.pc = .out ∧ (c.callers.own .bsp).cpu.holds = false
  blocked : ∀ id ∈ c.stopped, Has (c.callers.own (.ap id)).cpu → Waits c
  order : c.stopped.reverse ++ (due c.phase ++ others bootApicId c.todo) = others bootApicId cpulist
  told : ∃ ids ms, c.stopped.reverse = ids ++ unsaid c.phase ∧
    (c.callers.own .bsp).made = made ++ ms ∧ List.Forall₂ Says ids ms

theorem Begins.fine (h : Begins cpulist c) :
    Fine bootApicId cpulist (c.callers.own .bsp).made c := by
  refine ⟨h.callers, fun _ => ⟨h.out, h.free⟩, fun id hid => ?_, ?_, [], [], ?_, ?_, .nil⟩
  · rw [h.stopped] at hid
    cases hid
  · rw [h.stopped, h.phase, h.todo]
    rfl
  · rw [h.stopped, h.phase]
    rfl
  · rw [List.append_nil]

/-- A further call begins with `spinlock_lock`. -/
theorem calls_of_made (hnow : Callers.Step Printf.console c.callers (some .bsp) x)
    (hmade : (x.own .bsp).made ≠ (c.callers.own .bsp).made) :
    (x.own .bsp).cpu.pc = .run .spinlockLock 0 := by
  cases hnow with
  | party now =>
    cases now with
    | mk now =>
      simp only [Function.update_self] at hmade ⊢
      cases now with
      | enter => rfl
      | work | body | leave | instr => exact absurd rfl hmade

/-- A processor in `spinlock_lock` without the lock stays there. -/
theorem stays_locking {l l' : Caller Call} {s s' : UInt8 × Uart} {line : Nat}
    (hnow : Does Printf.console l s l' s') (hgood : Good l.cpu) (hpc : l.cpu.pc = .run .spinlockLock line)
    (hhas : ¬ Has l.cpu) : ∃ line', l'.cpu.pc = .run .spinlockLock line' := by
  have hin : l.cpu.pc ≠ .out := by
    rw [hpc]
    simp
  cases hnow with
  | work out => exact absurd out hin
  | enter out => exact absurd out hin
  | body out => exact absurd out hin
  | leave out => exact absurd out hin
  | instr now =>
    have heff := exec_effect hgood now
    obtain ⟨cpu, call, made⟩ := l
    dsimp only at heff hpc hhas ⊢
    cases heff with
    | work | lock | unlock | give => cases hpc
    | xchg => exact ⟨_, rfl⟩
    | test two => exact ⟨_, rfl⟩
    | back => exact absurd (.inr (.inr ⟨rfl, rfl⟩)) hhas
    | wait => exact ⟨_, rfl⟩
    | spin waiting next => exact ⟨_, rfl⟩

/-- While another processor has the lock, the boot processor does not get it. -/
theorem waits_on (h : Callers.Reachable Printf.console ⟨none, [], []⟩ c.callers)
    (hhas : Has (c.callers.own (.ap id)).cpu) {line : Nat}
    (hpc : (c.callers.own .bsp).cpu.pc = .run .spinlockLock line)
    (hnow : Callers.Step Printf.console c.callers (some .bsp) x) :
    ∃ line', (x.own .bsp).cpu.pc = .run .spinlockLock line' := by
  obtain ⟨t, bs, _, hfollows⟩ := h.follows
  obtain ⟨o, howned⟩ := hfollows.owned
  have hnot : ¬ Has (c.callers.own .bsp).cpu := by
    intro hbsp
    have hown : Has ((Callers.cpus c.callers).own .bsp) := hbsp
    have hother : Has ((Callers.cpus c.callers).own (.ap id)) := hhas
    cases howned.unique hown hother
  cases hnow with
  | party now =>
    cases now with
    | mk now =>
      obtain ⟨line', hline⟩ := stays_locking now (howned.good .bsp) hpc hnot
      exact ⟨line', by simpa using hline⟩

/-- A step that is one of `printf`, and what it keeps of the boot processor. -/
theorem Fine.callers_step (h : Fine bootApicId cpulist made c)
    (hnow : Callers.Step Printf.console c.callers act x) (hact : act ≠ some .bsp)
    (hruns : ∀ id ∈ c.stopped, act ≠ some (.ap id)) :
    Fine bootApicId cpulist made {c with callers := x} := by
  have hbsp : x.own .bsp = c.callers.own .bsp := hnow.own_of_ne hact
  refine ⟨h.callers.append (.single hnow), fun hphase => ?_, fun id hid hhas => ?_, h.order, ?_⟩
  · rw [hbsp]
    exact h.outside hphase
  · rw [hnow.own_of_ne (hruns id hid)] at hhas
    rcases h.blocked id hid hhas with hprint | ⟨id', line, hphase, hpc⟩
    · exact .inl hprint
    · exact .inr ⟨id', line, hphase, hbsp ▸ hpc⟩
  · rw [hbsp]
    exact h.told

theorem Fine.step (h : Fine bootApicId cpulist made c) (hnow : Step bootApicId c act c') :
    Fine bootApicId cpulist made c' := by
  have horder := h.order
  obtain ⟨ids, ms, hids, hms, hall⟩ := h.told
  -- in these phases no processor was stopped with the lock
  have hfree : ∀ f, c.phase = f → (∀ id, f ≠ .print id ∧ f ≠ .printing id) →
      ∀ id ∈ c.stopped, ¬ Has (c.callers.own (.ap id)).cpu := by
    intro f hphase hf id hid hhas
    rcases h.blocked id hid hhas with ⟨id', hprint⟩ | ⟨id', _, hprint, _⟩
    · exact (hf id').1 (hphase.symm.trans hprint)
    · exact (hf id').2 (hphase.symm.trans hprint)
  cases hnow with
  | skip phase todo boot =>
    refine ⟨h.callers, h.outside, h.blocked, ?_, ids, ms, hids, hms, hall⟩
    rw [todo] at horder
    simpa [others, boot] using horder
  | @next id ids' phase todo other =>
    refine ⟨h.callers, fun _ => h.outside (by simp [phase]), fun id hid hhas => ?_, ?_,
      ids, ms, ?_, hms, hall⟩
    · exact absurd hhas (hfree .test phase (by simp) id hid)
    · rw [phase, todo] at horder
      simpa [others, other, due] using horder
    · simpa [phase, unsaid] using hids
  | @stop id phase =>
    refine ⟨h.callers, fun _ => h.outside (by simp [phase]), fun _ _ _ => .inl ⟨id, rfl⟩, ?_,
      ids, ms, ?_, hms, hall⟩
    · rw [phase] at horder
      simpa [due] using horder
    · simpa [phase, unsaid] using hids
  | @call id m x phase message now hmade =>
    have hap : ∀ id, x.own (.ap id) = c.callers.own (.ap id) := fun id => now.own_of_ne (by simp)
    refine ⟨h.callers.append (.single now), fun hphase => absurd rfl (hphase id), fun id' hid hhas => ?_,
      ?_, c.stopped.reverse, ms ++ [m], ?_, ?_, ?_⟩
    · exact .inr ⟨id, 0, rfl, calls_of_made now (by simp [hmade])⟩
    · rw [phase] at horder
      simpa [due] using horder
    · simp [unsaid]
    · rw [hmade, hms, List.append_assoc]
    · rw [hids, phase]
      exact List.rel_append hall (.cons message .nil)
  | @go id x phase now hmade =>
    have hap : ∀ id, x.own (.ap id) = c.callers.own (.ap id) := fun id => now.own_of_ne (by simp)
    refine ⟨h.callers.append (.single now), fun hphase => absurd phase (hphase id), fun id' hid hhas => ?_,
      horder, ids, ms, hids, hmade.trans hms, hall⟩
    rw [hap] at hhas
    rcases h.blocked id' hid hhas with ⟨id₁, hprint⟩ | ⟨id₁, line, hprint, hpc⟩
    · rw [phase] at hprint
      cases hprint
    · obtain ⟨line', hpc'⟩ := waits_on h.callers hhas hpc now
      exact .inr ⟨id₁, line', hprint, hpc'⟩
  | @back id phase out free =>
    refine ⟨h.callers, fun _ => ⟨out, free⟩, fun id' hid hhas => ?_, ?_, ids, ms, ?_, hms, hall⟩
    · rcases h.blocked id' hid hhas with ⟨id₁, hprint⟩ | ⟨id₁, line, hprint, hpc⟩
      · rw [phase] at hprint
        cases hprint
      · rw [out] at hpc
        cases hpc
    · rw [phase] at horder
      simpa [due] using horder
    · simpa [phase, unsaid] using hids
  | ap runs now =>
    refine h.callers_step now (by simp) fun id' hid heq => ?_
    cases heq
    exact runs hid
  | env now => exact h.callers_step now (by simp) (by simp)

/-! ### Who was stopped stays where it was -/

theorem frozen (h : Steps (Step bootApicId) c acts c') (hid : id ∈ c.stopped) :
    id ∈ c'.stopped ∧ c'.callers.own (.ap id) = c.callers.own (.ap id) := by
  induction h with
  | nil => exact ⟨hid, rfl⟩
  | @cons c c₁ c' act acts head tail ih =>
    have hone : id ∈ c₁.stopped ∧ c₁.callers.own (.ap id) = c.callers.own (.ap id) := by
      cases head with
      | skip | next | back => exact ⟨hid, rfl⟩
      | stop => exact ⟨List.mem_cons_of_mem _ hid, rfl⟩
      | call _ _ now => exact ⟨hid, now.own_of_ne (by simp)⟩
      | go _ now => exact ⟨hid, now.own_of_ne (by simp)⟩
      | env now => exact ⟨hid, now.own_of_ne (by simp)⟩
      | ap runs now =>
        refine ⟨hid, now.own_of_ne fun heq => ?_⟩
        cases heq
        exact runs hid
    obtain ⟨hid', hown⟩ := ih hone.1
    exact ⟨hid', hown.trans hone.2⟩

/-! ### The loop goes on when the lock is free -/

/-- The boot processor is printing, or the processor was not stopped. -/
def May (c : Deinit) : Actor → Prop
  | .bsp => ∃ id, c.phase = .printing id
  | .ap id => id ∉ c.stopped

/-- A processor that may run is left alone. -/
theorem steps_of_alone {p : Actor} (hmay : May c p) {y : Caller Call × UInt8 × Uart}
    (h : Relation.ReflTransGen (Alone Printf.console) (c.callers.own p, c.callers.shared) y) :
    ∃ acts, Steps (Step bootApicId) c acts
      {c with callers := ⟨Function.update c.callers.own p y.1, y.2⟩} := by
  induction h with
  | refl =>
    rw [Function.update_eq_self]
    exact ⟨[], .nil c⟩
  | @tail y z _ last ih =>
    obtain ⟨acts, hrun⟩ := ih
    cases last with
    | @does l l' s s' now same =>
      have hstep : Callers.Step Printf.console ⟨Function.update c.callers.own p l, s⟩ (some p)
          ⟨Function.update (Function.update c.callers.own p l) p l', s'⟩ :=
        .party (.mk (by simpa using now))
      rw [Function.update_idem] at hstep
      refine ⟨acts ++ [some p], hrun.append (.single ?_)⟩
      cases p with
      | bsp =>
        obtain ⟨id, hphase⟩ := hmay
        exact .go hphase hstep (by simpa using same)
      | ap id => exact .ap hmay hstep
    | @env l v d d' now =>
      have hstep : Callers.Step Printf.console ⟨Function.update c.callers.own p l, v, d⟩ none
          ⟨Function.update c.callers.own p l, v, d'⟩ := .env now
      exact ⟨acts ++ [none], hrun.append (.single (.env hstep))⟩

/-- So it ends its call, if it has the lock or finds it free. -/
theorem Fine.completes (h : Fine bootApicId cpulist made c) {p : Actor} (hmay : May c p)
    (hp : Has (c.callers.own p).cpu ∨ c.callers.shared.1 = 0) : ∃ acts x,
      Steps (Step bootApicId) c acts {c with callers := x} ∧ x.shared.1 = 0 ∧
        (x.own p).cpu.pc = .out ∧ (x.own p).cpu.holds = false := by
  obtain ⟨t, _, _, hfollows⟩ := h.callers.follows
  obtain ⟨y, halone, hout, hholds, hbyte, _⟩ := hfollows.completes hp fun _ m _ => console_ends m _
  have hsteps : ∃ acts, Steps (Step bootApicId) c acts
      {c with callers := ⟨Function.update c.callers.own p y.1, y.2⟩} := steps_of_alone hmay halone
  obtain ⟨acts, hrun⟩ := hsteps
  exact ⟨acts, _, hrun, hbyte, by simpa using hout, by simpa using hholds⟩

theorem Fine.run (h : Fine bootApicId cpulist made c) (hrun : Steps (Step bootApicId) c acts c') :
    Fine bootApicId cpulist made c' :=
  hrun.keeps (I := Fine bootApicId cpulist made) (fun _ _ _ hnow hi => hi.step hnow) h

/-- `apic_deinit` is at the head of its loop and the lock is free. -/
structure AtHead (c : Deinit) (todo : List UInt8) : Prop where
  phase : c.phase = .test
  todo : c.todo = todo
  byte : c.callers.shared.1 = 0

theorem Fine.printing_ends (h : Fine bootApicId cpulist made c) (hphase : c.phase = .printing id)
    (hbyte : c.callers.shared.1 = 0) :
    ∃ acts c', Steps (Step bootApicId) c acts c' ∧ AtHead c' c.todo := by
  obtain ⟨acts, x, hrun, hfree, hout, hholds⟩ := h.completes (p := .bsp) ⟨id, hphase⟩ (.inr hbyte)
  have hback : Step bootApicId {c with callers := x} (some .bsp) {c with callers := x, phase := .test} :=
    .back hphase hout hholds
  exact ⟨_, _, hrun.append (.single hback), rfl, rfl, hfree⟩

theorem split_stopped : split stoppedFormat =
    (stoppedFormat.take 16).map Piece.literal ++
      .directive ⟨[ch '0'], [ch '2'], none, [], ch 'x'⟩ :: (stoppedFormat.drop 20).map Piece.literal := by
  have hread : Directive.read (stoppedFormat.drop 17) =
      some (⟨[ch '0'], [ch '2'], none, [], ch 'x'⟩, stoppedFormat.drop 20 ++ []) := by decide
  have hsplit : stoppedFormat = stoppedFormat.take 16 ++ ch '%' :: stoppedFormat.drop 17 := by decide
  have hnil : split [] = [] := by rw [split]
  conv_lhs => rw [hsplit]
  rw [split_literals (by decide), split_directive hread, split_literals (by decide), hnil,
    List.append_nil]

theorem exists_message (id : UInt8) (u : Uart) : ∃ m, Says id m ∧ Printf.console.enter m u u := by
  have hb : Bounded (split stoppedFormat) := by
    rw [split_stopped]
    intro d hd
    simp only [List.mem_append, List.mem_cons, List.mem_map, Piece.directive.injEq, reduceCtorEq, and_false,
      exists_false, or_false, false_or] at hd
    rw [hd]
    decide
  have hs : Terminated ⟨fun _ => id.toNat, fun _ => [0]⟩ (split stoppedFormat) 0 := by
    rw [split_stopped, ← List.append_nil ((stoppedFormat.drop 20).map Piece.literal)]
    exact terminated_literals ⟨fun hs => absurd hs (by decide), terminated_literals trivial⟩
  obtain ⟨rest, htext⟩ := exists_text (by decide) hb hs
  exact ⟨_, ⟨rfl, rfl, rfl⟩, htext, rfl, rfl⟩

theorem Fine.print_ends (h : Fine bootApicId cpulist made c) (hphase : c.phase = .print id)
    (hbyte : c.callers.shared.1 = 0) :
    ∃ acts c', Steps (Step bootApicId) c acts c' ∧ AtHead c' c.todo := by
  obtain ⟨hout, hholds⟩ := h.outside (by simp [hphase])
  obtain ⟨m, hmessage, henter⟩ := exists_message id c.callers.shared.2
  have hdoes := Does.enter (b := Printf.console) (l := c.callers.own .bsp) hout hholds henter
  have hcall : Step bootApicId c (some .bsp) _ :=
    .call hphase hmessage (.party (.mk hdoes)) (by simp)
  obtain ⟨acts, c', hrun, hhead⟩ := (h.step hcall).printing_ends rfl hbyte
  exact ⟨_, c', .cons hcall hrun, hhead⟩

theorem Fine.stop_ends (h : Fine bootApicId cpulist made c) (hphase : c.phase = .stop id)
    (hbyte : c.callers.shared.1 = 0) :
    ∃ acts c', Steps (Step bootApicId) c acts c' ∧ AtHead c' c.todo := by
  have hstop : Step bootApicId c (some .bsp) _ := .stop hphase
  obtain ⟨acts, c', hrun, hhead⟩ := (h.step hstop).print_ends rfl hbyte
  exact ⟨_, c', .cons hstop hrun, hhead⟩

/-- From wherever it is, `apic_deinit` comes to the head of its loop. -/
theorem Fine.to_head (h : Fine bootApicId cpulist made c) (hbyte : c.callers.shared.1 = 0) :
    ∃ acts c', Steps (Step bootApicId) c acts c' ∧ AtHead c' c.todo := by
  cases hphase : c.phase with
  | test => exact ⟨[], c, .nil c, hphase, rfl, hbyte⟩
  | stop id => exact h.stop_ends hphase hbyte
  | print id => exact h.print_ends hphase hbyte
  | printing id => exact h.printing_ends hphase hbyte

/-- And from there it goes through the list. -/
theorem Fine.loop_ends {todo : List UInt8} (h : Fine bootApicId cpulist made c) (hhead : AtHead c todo) :
    ∃ acts c', Steps (Step bootApicId) c acts c' ∧ Ended c' := by
  induction todo generalizing c with
  | nil => exact ⟨[], c, .nil c, hhead.phase, hhead.todo⟩
  | cons id ids ih =>
    by_cases hboot : id.toNat = bootApicId
    · have hskip : Step bootApicId c (some .bsp) _ := .skip hhead.phase hhead.todo hboot
      obtain ⟨acts, c', hrun, hend⟩ := ih (h.step hskip) ⟨hhead.phase, rfl, hhead.byte⟩
      exact ⟨_, c', .cons hskip hrun, hend⟩
    · have hnext : Step bootApicId c (some .bsp) _ := .next hhead.phase hhead.todo hboot
      obtain ⟨acts, c₁, hrun, hhead₁⟩ := (h.step hnext).to_head hhead.byte
      obtain ⟨acts', c', hrun', hend⟩ := ih ((h.step hnext).run hrun) hhead₁
      exact ⟨_, c', .cons hnext (hrun.append hrun'), hend⟩

/-- The lock becomes free if none of the processors that were stopped has it. -/
theorem Fine.lock_freed (h : Fine bootApicId cpulist made c)
    (hnone : ∀ id ∈ c.stopped, ¬ Has (c.callers.own (.ap id)).cpu) :
    ∃ acts x, Steps (Step bootApicId) c acts {c with callers := x} ∧ x.shared.1 = 0 := by
  obtain ⟨t, _, _, hfollows⟩ := h.callers.follows
  obtain ⟨o, howned⟩ := hfollows.owned
  cases o with
  | none =>
    have hbyte : c.callers.shared.1 = 0 :=
      howned.sane.resolve_right fun hone => howned.taken.mp hone rfl
    exact ⟨[], c.callers, .nil c, hbyte⟩
  | some p =>
    have hhas : Has (c.callers.own p).cpu := (howned.has p).mpr rfl
    have hmay : May c p := by
      cases p with
      | ap id => exact fun hid => hnone id hid hhas
      | bsp =>
        by_contra hnot
        obtain ⟨hout, hholds⟩ := h.outside fun id hphase => hnot ⟨id, hphase⟩
        simp [Has, hout, hholds] at hhas
    obtain ⟨acts, x, hrun, hfree, _⟩ := h.completes hmay (.inl hhas)
    exact ⟨acts, x, hrun, hfree⟩

theorem Fine.ends (h : Fine bootApicId cpulist made c)
    (hnone : ∀ id ∈ c.stopped, ¬ Has (c.callers.own (.ap id)).cpu) :
    ∃ acts c', Steps (Step bootApicId) c acts c' ∧ Ended c' := by
  obtain ⟨acts₁, x, hrun₁, hbyte⟩ := h.lock_freed hnone
  obtain ⟨acts₂, c₂, hrun₂, hhead⟩ := (h.run hrun₁).to_head hbyte
  obtain ⟨acts₃, c₃, hrun₃, hend⟩ := ((h.run hrun₁).run hrun₂).loop_ends hhead
  exact ⟨_, c₃, hrun₁.append (hrun₂.append hrun₃), hend⟩

/-- At the end nobody that was stopped has the lock. -/
theorem Fine.not_has_of_ended (h : Fine bootApicId cpulist made c) (hend : Ended c) (hid : id ∈ c.stopped) :
    ¬ Has (c.callers.own (.ap id)).cpu := by
  intro hhas
  rcases h.blocked id hid hhas with ⟨id', hphase⟩ | ⟨id', _, hphase, _⟩
  · cases hend.1.symm.trans hphase
  · cases hend.1.symm.trans hphase

/-- In every order of the steps, `apic_deinit` can come to its end exactly if no processor was stopped
with the lock of `do_printf`; otherwise nobody gets that lock any more. At its end it has stopped the
processors of the list but its own, in the order of the list, and has printed one message for each. -/
theorem deinit_ends_iff (h : Begins cpulist c₀) (hrun : Steps (Step bootApicId) c₀ acts c) :
    ((∃ acts' c', Steps (Step bootApicId) c acts' c' ∧ Ended c') ↔
      ∀ id ∈ c.stopped, ¬ Has (c.callers.own (.ap id)).cpu) ∧
    (∀ id ∈ c.stopped, Has (c.callers.own (.ap id)).cpu →
      ∀ acts' c', Steps (Step bootApicId) c acts' c' → ∀ p, Has (c'.callers.own p).cpu → p = .ap id) ∧
    (Ended c → c.stopped.reverse = others bootApicId cpulist ∧
      ∃ ms, (c.callers.own .bsp).made = (c₀.callers.own .bsp).made ++ ms ∧
        List.Forall₂ Says (others bootApicId cpulist) ms) := by
  have hfine := h.fine.run hrun
  refine ⟨⟨fun hcan id hid hhas => ?_, hfine.ends⟩, fun id hid hhas acts' c' hrun' p hp => ?_,
    fun hend => ?_⟩
  · obtain ⟨acts', c', hrun', hend⟩ := hcan
    obtain ⟨hid', hown⟩ := frozen hrun' hid
    exact (hfine.run hrun').not_has_of_ended hend hid' (hown ▸ hhas)
  · obtain ⟨_, hown⟩ := frozen hrun' hid
    rw [← hown] at hhas
    obtain ⟨t, _, _, hfollows⟩ := (hfine.run hrun').callers.follows
    obtain ⟨o, howned⟩ := hfollows.owned
    have hown₁ : Has ((Callers.cpus c'.callers).own p) := hp
    have hown₂ : Has ((Callers.cpus c'.callers).own (.ap id)) := hhas
    exact howned.unique hown₁ hown₂
  · obtain ⟨hphase, htodo⟩ := hend
    have horder := hfine.order
    obtain ⟨ids, ms, hids, hms, hall⟩ := hfine.told
    rw [hphase, htodo] at horder
    rw [hphase] at hids
    simp only [due, others, unsaid, List.filter_nil, List.append_nil] at horder hids ⊢
    rw [horder] at hids
    exact ⟨horder, ms, hms, hids ▸ hall⟩

open Callers in
/-- A processor that has exchanged the 0 out is stopped, and `apic_deinit` does not return. -/
theorem deinit_ends_iff_hanging : ∃ c₀ acts c, Begins [0, 1] c₀ ∧ Steps (Step 0) c₀ acts c ∧
      c.stopped = [1] ∧ Has (c.callers.own (.ap 1)).cpu ∧
    ((∃ acts' c', Steps (Step 0) c acts' c' ∧ Ended c') ↔
      ∀ id ∈ c.stopped, ¬ Has (c.callers.own (.ap id)).cpu) ∧
    (∀ id ∈ c.stopped, Has (c.callers.own (.ap id)).cpu →
      ∀ acts' c', Steps (Step 0) c acts' c' → ∀ p, Has (c'.callers.own p).cpu → p = .ap id) ∧
    (Ended c → c.stopped.reverse = others 0 [0, 1] ∧
      ∃ ms, (c.callers.own .bsp).made = (c₀.callers.own .bsp).made ++ ms ∧
        List.Forall₂ Says (others 0 [0, 1]) ms) := by
  have henter : Solo Printf.console (Actor.ap 1)
      ([], [], ⟨⟨.out, 0, false, false⟩, none, []⟩, 0, ⟨none, [], []⟩)
      ([], [], printing (.run .spinlockLock 0) 1 false false [65] [], 0, ⟨none, [], []⟩) :=
    .quiet (.enter rfl rfl ⟨text_printA, rfl, rfl⟩) rfl rfl
  have hxchg : Solo Printf.console (Actor.ap 1)
      ([], [], printing (.run .spinlockLock 0) 1 false false [65] [], 0, ⟨none, [], []⟩)
      ([.ap 1], [], printing (.run .spinlockLock 1) 0 false false [65] [], 1, ⟨none, [], []⟩) :=
    .does (.instr rfl) rfl rfl
  have hrun := untouched_watched.solo (.head henter (.single hxchg))
  obtain ⟨x, hx⟩ : ∃ x : Callers Actor Call Uart, x = ⟨Function.update (untouched ⟨none, [], []⟩ :
    Callers Actor Call Uart).own (.ap 1) (printing (.run .spinlockLock 1) 0 false false [65] []), 1,
      ⟨none, [], []⟩⟩ := ⟨_, rfl⟩
  rw [← hx] at hrun
  have hbsp : (x.own .bsp).cpu = ⟨.out, 0, false, false⟩ := by simp [hx, untouched]
  have hbegins : Begins [0, 1] ⟨x, .test, [0, 1], []⟩ :=
    ⟨hrun.reachable, by rw [hbsp], by rw [hbsp], rfl, rfl, rfl⟩
  have hstopped : Steps (Step 0) ⟨x, .test, [0, 1], []⟩ [some .bsp, some .bsp, some .bsp]
      ⟨x, .print 1, [], [1]⟩ :=
    .cons (.skip rfl rfl rfl) (.cons (.next rfl rfl (by decide)) (.single (.stop rfl)))
  have hhas : Has (x.own (.ap 1)).cpu := by simp [hx, printing, Has]
  exact ⟨_, _, _, hbegins, hstopped, rfl, hhas, deinit_ends_iff hbegins hstopped⟩

end Deinit
end Kvi.Apic
