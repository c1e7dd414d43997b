import Kvi.Lock.Alone
import Kvi.Printf.Sinks

/-! The serial line.

`printf` puts its characters out one by one: `putchar` sends a carriage return before
a newline, and each byte goes to the data register of the UART once the line status
has its bit 0x20 set. Between two accesses to the ports the UART may have sent the
byte it holds; a byte written before that would be lost. Every processor prints, and
`do_printf` keeps its lock from the first character to the last. So the accesses to the
ports are the steps of a `Body` under that lock here, and the text of the calls comes
out whole, call by call (`console_serial`). -/
namespace Kvi.Printf
open Lock

/-! ### `putchar` -/

/-- The UART: the byte it has been given and not sent yet, those it has sent, and those that another
one was written over. -/
structure Uart where
  holding : Option UInt8
  line : List UInt8
  lost : List UInt8
  deriving DecidableEq, Repr

namespace Uart

/-- `inb`: bit 5 of the line status says that a byte may be written. Of other bits and ports nothing
is known. -/
def In8 (port : Nat) (u : Uart) (data : UInt8) : Prop :=
  port = 0x3f8 + 5 → (data &&& 0x20 ≠ 0 ↔ u.holding = none)

/-- `outb` -/
def out8 (port : Nat) (data : UInt8) (u : Uart) : Uart :=
  if port = 0x3f8 then ⟨some data, u.line, u.lost ++ u.holding.toList⟩ else u

/-- The byte goes out. -/
def send (u : Uart) : Uart := ⟨none, u.line ++ u.holding.toList, u.lost⟩

/-- All that was written and is not lost. -/
def written (u : Uart) : List UInt8 := u.line ++ u.holding.toList

end Uart

/-- Where a call of `putchar` is. -/
inductive Frame where
  | enter (ch : Int8)
  | poll (ch : Int8)
  | out (ch : Int8)
  deriving DecidableEq, Repr

/-- The next access of the innermost call, `data` being what `inb` answers. -/
def Frame.step (data : UInt8) (rest : List Frame) (u : Uart) : Frame → List Frame × Uart
  | .enter c => (if c = ch '\n' then .enter (ch '\r') :: .poll c :: rest else .poll c :: rest, u)
  | .poll c => (if data &&& 0x20 = 0 then .poll c :: rest else .out c :: rest, u)
  | .out c => (rest, u.out8 0x3f8 c.toUInt8)

/-- What the line gets from `putchar`. -/
def sends (c : Int8) : List UInt8 := if c = ch '\n' then [13, 10] else [c.toUInt8]

/-- `do_putchar`, by itself. -/
def doPutchar : Sink (List UInt8) := fun c line => (0, line ++ sends (Int8.ofInt c))

/-- What is still to come of a call of `putchar`. -/
def Frame.pending : Frame → List UInt8
  | .enter c => sends c
  | .poll c | .out c => [c.toUInt8]

/-! ### Calls -/

/-- A call of one of the functions around `do_printf`: its format and arguments, whether the sink is
`do_putchar`, the characters that are still to go there, and the calls of `putchar` in progress. The
other sink writes to memory of the caller's. -/
structure Call where
  args : Args
  format : List Int8
  console : Bool
  rest : List Int
  stack : List Frame

namespace Call

/-- `do_printf` ends, and this is what it gives to its sink. -/
def Text (c : Call) : Prop :=
  ∃ r, doPrintf c.args record c.format [] = some r ∧ c.rest = if c.console then r.data else []

/-- What is still to come of the call. -/
def pending (c : Call) : List UInt8 :=
  c.stack.flatMap Frame.pending ++ c.rest.flatMap fun i => sends (Int8.ofInt i)

/-- What the call by itself sends down the line. -/
def sent (c : Call) : List UInt8 :=
  if c.console then ((doPrintf c.args doPutchar c.format []).map Out.data).getD [] else []

/-- The next access to a port, or the next character. -/
inductive Step : Call → Uart → Call → Uart → Prop where
  | next {c : Call} {u : Uart} {i : Int} {rest : List Int} (idle : c.stack = []) (more : c.rest = i :: rest) :
      Step c u {c with rest := rest, stack := [.enter (Int8.ofInt i)]} u
  | frame {c : Call} {u : Uart} {f : Frame} {stack : List Frame} {data : UInt8} (busy : c.stack = f :: stack)
      (status : u.In8 (0x3f8 + 5) data) :
      Step c u {c with stack := (f.step data stack u).1} (f.step data stack u).2

end Call

/-- What is done under the lock of `do_printf`. -/
def console : Body Call Uart where
  enter c u u' := c.Text ∧ c.stack = [] ∧ u' = u
  step := Call.Step
  done c _ := c.stack = [] ∧ c.rest = []
  env u u' := u' = u.send

variable {c c' : Call} {u u' : Uart} {f : Frame} {stack : List Frame} {data : UInt8}

theorem sends_newline : sends (ch '\n') = sends (ch '\r') ++ [(ch '\n').toUInt8] := by
  decide

/-- The data of a sink of bytes. -/
theorem deliver_doPutchar (text : List Int) (line : List UInt8) :
    deliver doPutchar text line = line ++ text.flatMap fun i => sends (Int8.ofInt i) := by
  induction text generalizing line with
  | nil => simp [deliver]
  | cons i text ih =>
    have hcons : deliver doPutchar (i :: text) line = deliver doPutchar text (doPutchar i line).2 := rfl
    rw [hcons, ih]
    simp [doPutchar]

theorem neverFails_doPutchar : NeverFails doPutchar := fun _ _ => le_rfl

/-- A call as it is made has all of its text before it. -/
theorem Call.Text.pending_eq (h : c.Text) (hstack : c.stack = []) : c.pending = c.sent := by
  obtain ⟨r, hr, hrest⟩ := h
  rw [Call.pending, Call.sent, hstack, hrest]
  cases c.console with
  | false => rfl
  | true =>
    have hrun := doPrintf_sticky neverFails_doPutchar.sticky [] hr
    have hfits : Fits (⟨0, []⟩ : Out (List UInt8)) := fits_start
    rw [neverFails_doPutchar.putAll hfits] at hrun
    simp [hrun, deliver_doPutchar]

/-! ### One access -/

/-- Only the innermost call is about to write, and only while nothing is held. -/
structure Ready (c : Call) (u : Uart) : Prop where
  outer : ∀ f ∈ c.stack.tail, ∃ ch, f = .poll ch
  free : ∀ ch, c.stack.head? = some (.out ch) → u.holding = none

theorem written_send : u.send.written = u.written := by
  simp [Uart.send, Uart.written]

theorem Ready.send (h : Ready c u) : Ready c u.send := ⟨h.outer, fun _ _ => rfl⟩

/-- What an access writes is no longer to come, and nothing is lost. -/
theorem Ready.frame (h : Ready c u) (hc : c.stack = f :: stack) (hs : u.In8 (0x3f8 + 5) data) :
    Ready {c with stack := (f.step data stack u).1} (f.step data stack u).2 ∧
      (f.step data stack u).2.lost = u.lost ∧ ∃ out, (f.step data stack u).2.written = u.written ++ out ∧
        (f :: stack).flatMap Frame.pending = out ++ (f.step data stack u).1.flatMap Frame.pending := by
  have houter : ∀ g ∈ stack, ∃ ch, g = .poll ch := by
    intro g hg
    exact h.outer g (by rwa [hc])
  have hhead : ∀ {u' : Uart}, Ready {c with stack := stack} u' := by
    intro u'
    refine ⟨fun g hg => houter g (List.mem_of_mem_tail hg), fun b hb => ?_⟩
    obtain ⟨b', hpoll⟩ := houter _ (List.mem_of_mem_head? hb)
    cases hpoll
  cases f with
  | enter b =>
    rw [Frame.step]
    split
    · next hb =>
      subst hb
      refine ⟨⟨?_, nofun⟩, rfl, [], by simp, ?_⟩
      · intro g hg
        rcases List.mem_cons.mp hg with rfl | hg
        · exact ⟨_, rfl⟩
        · exact houter g hg
      · simp [Frame.pending, sends_newline]
    · next hb => exact ⟨⟨houter, nofun⟩, rfl, [], by simp, by simp [Frame.pending, sends, hb]⟩
  | poll b =>
    rw [Frame.step]
    split
    · exact ⟨⟨houter, nofun⟩, rfl, [], by simp, rfl⟩
    · next hdata => exact ⟨⟨houter, fun _ _ => (hs rfl).mp hdata⟩, rfl, [], by simp, rfl⟩
  | out b =>
    have hfree : u.holding = none := h.free b (by rw [hc]; rfl)
    refine ⟨hhead, ?_, [b.toUInt8], ?_, by simp [Frame.step, Frame.pending]⟩
    · simp [Frame.step, Uart.out8, hfree]
    · simp [Frame.step, Uart.out8, Uart.written, hfree]

/-- A step of a call. -/
theorem Ready.step (h : Ready c u) (hnow : Call.Step c u c' u') :
    Ready c' u' ∧ u'.lost = u.lost ∧
      ∃ out, u'.written = u.written ++ out ∧ c.pending = out ++ c'.pending := by
  cases hnow with
  | next idle more =>
    refine ⟨⟨nofun, nofun⟩, rfl, [], by simp, ?_⟩
    simp [Call.pending, idle, more, Frame.pending]
  | @frame f stack data busy status =>
    obtain ⟨hready, hlost, out, hwritten, hpending⟩ := h.frame busy status
    refine ⟨hready, hlost, out, hwritten, ?_⟩
    rw [Call.pending, Call.pending, busy, hpending, List.append_assoc]

/-- A format that `do_printf` interprets has a call. -/
theorem exists_text {args : Args} {body : List Int8} (h : 0 ∉ body) (hb : Bounded (split body))
    (hs : Terminated args (split body) 0) :
    ∃ rest, Call.Text ⟨args, body ++ [0], true, rest, []⟩ := by
  obtain ⟨text, htext⟩ := render_some hs
  obtain ⟨r, hr, _⟩ := runPieces_record htext ⟨0, []⟩
  exact ⟨r.data, r, (doPrintfLoop_eq h hb).trans hr, rfl⟩

theorem split_literals {cs : List Int8} (h : ch '%' ∉ cs) (s : List Int8) :
    split (cs ++ s) = cs.map Piece.literal ++ split s := by
  induction cs with
  | nil => rfl
  | cons c cs ih =>
    have hc : c ≠ ch '%' := fun heq => h (heq ▸ List.mem_cons_self ..)
    rw [List.cons_append, split_literal hc, ih (List.not_mem_of_not_mem_cons h)]
    rfl

theorem terminated_literals {args : Args} {cs : List Int8} {ps : List Piece} {ap : Nat}
    (h : Terminated args ps ap) : Terminated args (cs.map Piece.literal ++ ps) ap := by
  induction cs with
  | nil => exact h
  | cons c cs ih => exact ih

/-! ### The end of a call -/

/-- How many accesses a call of `putchar` makes, at most, if the UART is always ready. -/
def Frame.weight : Frame → Nat
  | .enter c => if c = ch '\n' then 6 else 3
  | .poll _ => 2
  | .out _ => 1

def Call.weight (c : Call) : Nat := c.rest.length * 7 + (c.stack.map Frame.weight).sum

theorem Frame.weight_lt (f : Frame) : f.weight < 7 := by
  cases f with
  | enter c =>
    rw [Frame.weight]
    split <;> decide
  | poll c | out c => simp [Frame.weight]

theorem Frame.weight_step : (((f.step 0x20 stack u).1).map Frame.weight).sum <
    ((f :: stack).map Frame.weight).sum := by
  cases f with
  | enter b =>
    rw [Frame.step]
    split
    · next hb =>
      subst hb
      have hcr : (Frame.enter (ch '\r')).weight = 3 := rfl
      have hnl : (Frame.enter (ch '\n')).weight = 6 := rfl
      have hpoll : (Frame.poll (ch '\n')).weight = 2 := rfl
      simp only [List.map_cons, List.sum_cons, hcr, hnl, hpoll]
      omega
    · next hb => simp [Frame.weight, hb]
  | poll | out => simp [Frame.step, Frame.weight]

/-- Each access is possible once the UART has sent what it holds. -/
theorem goes_less (h : ¬ (c.stack = [] ∧ c.rest = [])) : ∃ c' u',
    Relation.ReflTransGen (Body.Goes console) (c, u) (c', u') ∧ c'.weight < c.weight := by
  cases hstack : c.stack with
  | nil =>
    cases hrest : c.rest with
    | nil => exact absurd ⟨hstack, hrest⟩ h
    | cons i rest =>
      refine ⟨_, _, .single (.step (.next hstack hrest)), ?_⟩
      have hless := (Frame.enter (Int8.ofInt i)).weight_lt
      simp only [Call.weight, hstack, hrest, List.map_cons, List.map_nil, List.sum_cons, List.sum_nil,
        List.length_cons]
      omega
  | cons f stack =>
    have hstatus : Uart.In8 (0x3f8 + 5) u.send 0x20 := fun _ => iff_of_true (by decide) rfl
    have hsend : Body.Goes console (c, u) (c, u.send) := .env rfl
    refine ⟨_, _, .head hsend (.single (.step (.frame hstack hstatus))), ?_⟩
    simp only [Call.weight, hstack]
    exact Nat.add_lt_add_left Frame.weight_step _

/-- Left alone with its UART, a call ends. -/
theorem console_ends (c : Call) (u : Uart) : Ends console c u := by
  induction hw : c.weight using Nat.strong_induction_on generalizing c u with
  | _ n ih =>
    by_cases hdone : c.stack = [] ∧ c.rest = []
    · exact ⟨c, u, .refl, hdone⟩
    · obtain ⟨c₁, u₁, hgoes, hless⟩ := goes_less (u := u) hdone
      obtain ⟨c', u', hrest, hend⟩ := ih c₁.weight (hw ▸ hless) c₁ u₁ rfl
      exact ⟨c', u', hgoes.trans hrest, hend⟩

/-! ### All calls -/

variable {P : Type*} [DecidableEq P]

/-- The line has had the calls completed, whole and in order, and of the one in progress a part. -/
structure Serial (t : Turns P Call Uart) : Prop where
  lost : t.data.lost = []
  between : t.turn = none → t.data.written = t.log.flatMap fun v => v.call.sent
  during : ∀ v, t.turn = some v → Ready v.now t.data ∧ ∃ part,
    t.data.written = (t.log.flatMap fun v => v.call.sent) ++ part ∧ part ++ v.now.pending = v.call.sent
  waiting : ∀ p c, t.waiting p = some c → c.stack = [] ∧ c.pending = c.sent

theorem Serial.step {t t' : Turns P Call Uart} {a : Option P} (h : Serial t)
    (hnow : Turns.Step console t a t') : Serial t' := by
  cases hnow with
  | env now =>
    obtain rfl := now
    refine ⟨h.lost, fun hturn => written_send.trans (h.between hturn), fun v hv => ?_, h.waiting⟩
    obtain ⟨hready, part, hpart⟩ := h.during v hv
    exact ⟨hready.send, part, by rwa [written_send]⟩
  | @enter p c d idle out now =>
    obtain ⟨htext, hstack, rfl⟩ := now
    refine ⟨h.lost, h.between, h.during, fun q c' hq => ?_⟩
    by_cases hp : q = p
    · subst hp
      simp only [Function.update_self, Option.some.injEq] at hq
      subst hq
      exact ⟨hstack, htext.pending_eq hstack⟩
    · exact h.waiting q c' (by simpa [hp] using hq)
  | @take p c wait free =>
    obtain ⟨hstack, hpending⟩ := h.waiting p c wait
    refine ⟨h.lost, nofun, fun v hv => ?_, fun q c' hq => ?_⟩
    · obtain rfl := Option.some.inj hv
      refine ⟨⟨by simp [hstack], by simp [hstack]⟩, [], ?_, by simpa using hpending⟩
      rw [List.append_nil]
      exact h.between free
    · by_cases hp : q = p
      · subst hp
        simp at hq
      · exact h.waiting q c' (by simpa [hp] using hq)
  | @go v c d has now =>
    obtain ⟨hready, part, hwritten, hpart⟩ := h.during v has
    obtain ⟨hready', hlost, out, hout, hpending⟩ := hready.step now
    refine ⟨hlost.trans h.lost, nofun, fun v' hv' => ?_, h.waiting⟩
    obtain rfl := Option.some.inj hv'
    refine ⟨hready', part ++ out, ?_, ?_⟩
    · rw [← List.append_assoc, ← hwritten, hout]
    · rw [List.append_assoc, ← hpending, hpart]
  | @give v has done =>
    obtain ⟨_, part, hwritten, hpart⟩ := h.during v has
    obtain ⟨hstack, hrest⟩ := done
    refine ⟨h.lost, fun _ => ?_, nofun, h.waiting⟩
    have hnone : v.now.pending = [] := by simp [Call.pending, hstack, hrest]
    rw [hnone, List.append_nil] at hpart
    simp [hwritten, hpart]

open Callers in
/-- However many processors print, and whatever the UART's pace: no byte is lost, and the line has the
texts of the calls that have ended, one after the other in the order in which they got the lock, and of
the call that has the lock a part. Those and the calls in progress are all that the processors have
made, each processor's in its order. -/
theorem console_serial {x : Callers P Call Uart} {ps : List P} {us : List (Turn P Call)}
    (h : Callers.Watched console ⟨none, [], []⟩ ps us x) :
    x.shared.2.lost = [] ∧ ∃ part : List UInt8,
      x.shared.2.line ++ x.shared.2.holding.toList = (us.flatMap fun u => u.call.sent) ++ part ∧
      (part = [] ∧ ps = us.map Turn.who ∨ ∃ p c, part <+: c.sent ∧ ps = us.map Turn.who ++ [p] ∧
        x.shared.1 = 1 ∧ (x.own p).current = [c]) ∧
      ∀ p, (x.own p).made = Turns.did p us ++ (x.own p).current := by
  obtain ⟨t, as, hturns, hx, rfl, rfl⟩ := h.follows
  have hserial : Serial t := hturns.keeps (I := Serial) (fun _ _ _ hnow hi => hi.step hnow)
    ⟨rfl, fun _ => rfl, nofun, nofun⟩
  rw [hx.data]
  refine ⟨hserial.lost, ?_⟩
  cases hturn : t.turn with
  | none =>
    refine ⟨[], ?_, .inl ⟨rfl, by simp [Turns.took, hturn]⟩, made_eq hturns hx⟩
    rw [List.append_nil]
    exact hserial.between hturn
  | some v =>
    obtain ⟨_, part, hwritten, hpart⟩ := hserial.during v hturn
    exact ⟨part, hwritten, .inr ⟨v.who, v.call, ⟨_, hpart⟩, by simp [Turns.took, hturn], hx.taken hturn,
      current_of_turn hturns hx hturn⟩, made_eq hturns hx⟩

/-- `printf ("A")`, before its first character. -/
def printA : Call := ⟨zeroArgs, [65, 0], true, [65], []⟩

theorem text_printA : printA.Text := by
  have hsplit : split [65] = [.literal 65] := by
    have hnil : split [] = [] := by rw [split]
    rw [split_literal (by decide), hnil]
  have hb : Bounded (split [65]) := by
    rw [hsplit]
    intro d hd
    simp at hd
  have hrender : render zeroArgs (split [65]) 0 = some [65] := by
    rw [hsplit]
    decide +kernel
  obtain ⟨r, hr, hdata⟩ := runPieces_record hrender ⟨0, []⟩
  exact ⟨r, (doPrintfLoop_eq (by decide) hb).trans hr, by simp [printA, hdata]⟩

/-- Processor 0 while it has made this call. -/
def printing (pc : Pc) (d : UInt8) (zf holds : Bool) (rest : List Int) (stack : List Frame) : Caller Call :=
  ⟨⟨pc, d, zf, holds⟩, some (printA, {printA with rest := rest, stack := stack}), [printA]⟩

open Callers in
omit [DecidableEq P] in
theorem printing_writes {p : P} {ps : List P} {us : List (Turn P Call)} :
    Relation.ReflTransGen (Solo console p)
      (ps, us, printing .out 0 true true [65] [], 1, ⟨none, [], []⟩)
      (ps, us, printing .out 0 true true [] [], 1, ⟨some 65, [], []⟩) := by
  have hstatus : Uart.In8 (0x3f8 + 5) ⟨none, [], []⟩ 0x20 := fun _ => by decide
  have h₁ : Solo console p (ps, us, printing .out 0 true true [65] [], 1, ⟨none, [], []⟩)
      (ps, us, printing .out 0 true true [] [.enter 65], 1, ⟨none, [], []⟩) :=
    .quiet (.body rfl rfl rfl (@Call.Step.next printA _ 65 [] rfl rfl)) rfl rfl
  have h₂ : Solo console p (ps, us, printing .out 0 true true [] [.enter 65], 1, ⟨none, [], []⟩)
      (ps, us, printing .out 0 true true [] [.poll 65], 1, ⟨none, [], []⟩) :=
    .quiet (.body rfl rfl rfl (@Call.Step.frame _ _ (.enter 65) [] 0x20 rfl hstatus)) rfl rfl
  have h₃ : Solo console p (ps, us, printing .out 0 true true [] [.poll 65], 1, ⟨none, [], []⟩)
      (ps, us, printing .out 0 true true [] [.out 65], 1, ⟨none, [], []⟩) :=
    .quiet (.body rfl rfl rfl (@Call.Step.frame _ _ (.poll 65) [] 0x20 rfl hstatus)) rfl rfl
  have h₄ : Solo console p (ps, us, printing .out 0 true true [] [.out 65], 1, ⟨none, [], []⟩)
      (ps, us, printing .out 0 true true [] [], 1, ⟨some 65, [], []⟩) :=
    .quiet (.body rfl rfl rfl (@Call.Step.frame _ _ (.out 65) [] 0x20 rfl hstatus)) rfl rfl
  exact .head h₁ (.head h₂ (.head h₃ (.single h₄)))

open Callers in
/-- One of two processors has printed and gives the lock back, and the other one has called. -/
theorem console_serial_printA : ∃ (x : Callers (Fin 2) Call Uart) (ps : List (Fin 2))
    (us : List (Turn (Fin 2) Call)), Callers.Watched console ⟨none, [], []⟩ ps us x ∧ ps = [0] ∧
      us = [⟨0, printA, {printA with rest := []}⟩] ∧ x.shared = (1, ⟨some 65, [], []⟩) ∧
      (x.own 1).current = [printA] ∧
    x.shared.2.lost = [] ∧ ∃ part : List UInt8,
      x.shared.2.line ++ x.shared.2.holding.toList = (us.flatMap fun u => u.call.sent) ++ part ∧
      (part = [] ∧ ps = us.map Turn.who ∨ ∃ p c, part <+: c.sent ∧ ps = us.map Turn.who ++ [p] ∧
        x.shared.1 = 1 ∧ (x.own p).current = [c]) ∧
      ∀ p, (x.own p).made = Turns.did p us ++ (x.own p).current := by
  have henter : ∀ (p : Fin 2) (ps : List (Fin 2)) (us : List (Turn (Fin 2) Call)) (s : UInt8 × Uart),
      Solo console p (ps, us, ⟨⟨.out, 0, false, false⟩, none, []⟩, s)
        (ps, us, printing (.run .spinlockLock 0) 1 false false [65] [], s) := fun p ps us s =>
    .quiet (.enter rfl rfl ⟨text_printA, rfl, rfl⟩) rfl rfl
  have hleave : Solo console (0 : Fin 2) ([0], [], printing .out 0 true true [] [], 1, ⟨some 65, [], []⟩)
      ([0], [⟨0, printA, {printA with rest := []}⟩],
        printing (.run .spinlockUnlock 0) 0 true true [] [], 1, ⟨some 65, [], []⟩) :=
    .does (.leave rfl rfl rfl ⟨rfl, rfl⟩) rfl rfl
  have hfirst := untouched_watched.solo
    (.head (henter 0 _ _ _) ((solo_lock.trans printing_writes).tail hleave))
  have hboth := hfirst.solo (p := 1) (.single (henter 1 _ _ _))
  exact ⟨_, _, _, hboth, rfl, rfl, rfl, rfl, console_serial hboth⟩

end Kvi.Printf
