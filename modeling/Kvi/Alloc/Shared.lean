import Kvi.Alloc.Progress
import Kvi.Alloc.Reuse
import Kvi.Lock.Sections

/-! The allocator of any number of processors.

A processor that calls `malloc`, `free` or `realloc` waits for the lock, goes
through the pieces of its call, and gives the lock back; meanwhile every processor
may write into blocks of its own. `calloc` and `realloc` are calls of `malloc` and
`free`, with such writes between them.

However the processors are interleaved, the heap they leave is the heap of a
`History`: the calls one after the other, in the order in which they got the lock,
each in one step (`allocator_serial`). -/
namespace Kvi.Alloc

open Kvi.Lock

/-- The heap, what its clients hold, the pointers given to calls that have not ended, and the calls
that have ended and the bytes written, in order. -/
structure Shared where
  heap : Heap
  live : List Block
  claimed : List Nat
  trace : List (Op × Nat)

namespace Shared

def boot (m : Memory) : Shared := ⟨(Alloc.boot m).heap, [], [], []⟩

def Live (d : Shared) (p : Nat) : Prop := ∃ b ∈ d.live, b.ptr = p

/-- One byte written. -/
def write (d : Shared) (a : Nat) (v : UInt8) : Shared :=
  {d with heap := d.heap.poke a v, trace := d.trace ++ [(.write a v, 0)]}

end Shared

/-- The live blocks after a call. -/
def after (r : Nat) (live : List Block) : Option Op → List Block
  | some (.malloc n) => note r n live
  | some (.free p) => forget p live
  | _ => live

/-- The call `c` ends with the heap `s` and returns `r`. -/
def finish (c : Progress) (r : Nat) (s : Heap) (d : Shared) : Shared :=
  ⟨s, after r d.live c.op, d.claimed.filter fun p => c.given ≠ some p,
    d.trace ++ c.op.toList.map fun op => (op, r)⟩

/-- A call is made: `malloc` of a size it can serve, or a call with a live block nobody else has
given away. -/
inductive Enters : Progress → Shared → Shared → Prop where
  | malloc {d : Shared} {n : Nat} (small : Small n) : Enters (.malloc n) d d
  | give {d : Shared} {c : Progress} {p : Nat} (call : c = .free p ∨ c = .size p) (live : d.Live p)
      (own : p ∉ d.claimed) : Enters c d {d with claimed := p :: d.claimed}

/-- A piece of a call, with the page layer answering as it should. -/
inductive Goes (src : PageSource) : Progress → Shared → Progress → Shared → Prop where
  | on {c c' : Progress} {d : Shared} {s : Heap} (now : next src c d.heap = some (c', s))
      (granted : Granted s.calls) (more : ∀ r, c' ≠ .done r) : Goes src c d c' {d with heap := s}
  | last {c : Progress} {d : Shared} {s : Heap} {r : Nat}
      (now : next src c d.heap = some (.done r, s)) (granted : Granted s.calls) :
      Goes src c d (.done r) (finish c r s d)

/-- A processor writes into a block of its own. -/
inductive Writes : Shared → Shared → Prop where
  | write {d : Shared} {b : Block} {a : Nat} {v : UInt8} (mem : b ∈ d.live) (own : b.ptr ∉ d.claimed)
      (lo : b.ptr ≤ a) (hi : a < b.ptr + b.size) : Writes d (d.write a v)

/-- What is done under the lock of `alloc.c`. -/
def allocator (src : PageSource) : Body Progress Shared where
  enter := Enters
  step := Goes src
  done c _ := ∃ r, c = .done r
  env := Writes

variable {P : Type*} {s s' : Heap} {L L' : Layout} {U : Set Nat} {src : PageSource}
  {c c' : Progress} {d d' : Shared} {σ : System} {u : Turn P Progress} {live : List Block} {b : Block}
  {op : Option Op} {trace : List (Op × Nat)} {t x a p n r : Nat} {v : UInt8}

/-! ### One call at a time -/

/-- A call as it is made. -/
def Made (c : Progress) (live : List Block) : Prop :=
  (∃ n, c = .malloc n ∧ Small n) ∨ ∃ p, (c = .free p ∨ c = .size p) ∧ ∃ b ∈ live, b.ptr = p

/-- The tags of the blocks that the call was not given. -/
def others (live : List Block) (c : Progress) : Set Nat :=
  {t | (∃ b ∈ live, b.ptr = t + 48) ∧ c.given ≠ some (t + 48)}

theorem Sound.used_eq (h : Sound σ L) : used σ.heap L = {t | Live σ (t + 48)} := by
  ext t
  refine ⟨fun ht => h.owned t ht, fun ht => ?_⟩
  obtain ⟨u, hu, heq⟩ := h.tag_of_live ht
  obtain rfl : t = u := by omega
  exact hu

/-- A call begins with the blocks as they are. -/
theorem Sound.stage (h : Sound σ L) (hc : Made c σ.live) : Stage σ.heap L (others σ.live c) c := by
  rcases hc with ⟨n, rfl, hn⟩ | ⟨p, hc, b, hb, rfl⟩
  · refine ⟨hn, h.used_eq.trans ?_⟩
    simp [others, Live, Progress.given]
  · obtain ⟨t, ht, heq, _⟩ := h.header b hb
    have hgiven : c.given = some (t + 48) := by
      rcases hc with rfl | rfl
      · simp [Progress.given, heq]
      · simp [Progress.given, heq]
    have hholds : Holds σ.heap L (others σ.live c) t := by
      refine ⟨?_, fun hm => hm.2 hgiven⟩
      rw [h.used_eq]
      ext x
      simp only [others, hgiven, Set.mem_insert_iff, Set.mem_ofPred_eq, ne_eq, Option.some.injEq]
      constructor
      · intro hx
        by_cases hxt : x = t
        · exact .inl hxt
        · exact .inr ⟨hx, by omega⟩
      · intro hx
        rcases hx with rfl | hx
        · exact ⟨b, hb, heq⟩
        · exact hx.1
    rcases hc with rfl | rfl
    · exact ⟨t, heq, hholds⟩
    · exact ⟨t, heq, hholds⟩

theorem Stage.sub (hs : Stage s L U c) (hc : ∀ r, c ≠ .done r) (hx : x ∈ U) : x ∈ used s L := by
  cases c with
  | malloc n => exact hs.2.symm.subset hx
  | search n t => exact hs.2.1.symm.subset hx
  | carve n t => exact hs.2.1.sub hx
  | free p | size p =>
    obtain ⟨t, _, ht⟩ := hs
    exact ht.sub hx
  | meltLeft p t => exact Holds.sub hs hx
  | meltRight p t | release p t => exact hs.1.sub hx
  | done r => exact absurd rfl (hc r)

/-- A piece is of the same call, or the last one. -/
theorem next_same (h : next src c s = some (c', s')) :
    (∃ r, c' = .done r) ∨ c'.given = c.given ∧ c'.op = c.op := by
  cases c with
  | malloc n =>
    simp only [next, Option.some.injEq, Prod.mk.injEq] at h
    obtain ⟨rfl, _⟩ := h
    simp only [Progress.given, Progress.op, and_self, or_true]
  | search n t =>
    rw [next] at h
    split at h
    · generalize allocateNewTag src (u32 n) s = new at h
      obtain ⟨x, s₁⟩ := new
      dsimp only at h
      split at h
      · simp only [Option.some.injEq, Prod.mk.injEq] at h
        exact .inl ⟨0, h.1.symm⟩
      · simp only [Option.some.injEq, Prod.mk.injEq] at h
        obtain ⟨rfl, _⟩ := h
        simp only [Progress.given, Progress.op, and_self, or_true]
    · split at h
      · simp only [Option.some.injEq, Prod.mk.injEq] at h
        obtain ⟨rfl, _⟩ := h
        simp only [Progress.given, Progress.op, and_self, or_true]
      · simp only [Option.some.injEq, Prod.mk.injEq] at h
        obtain ⟨rfl, _⟩ := h
        simp only [Progress.given, Progress.op, and_self, or_true]
  | carve n t | release p t | size p =>
    simp only [next, Option.some.injEq, Prod.mk.injEq] at h
    obtain ⟨h, _⟩ := h
    rw [← h]
    exact .inl ⟨_, rfl⟩
  | free p =>
    simp only [next] at h
    split at h
    · simp only [Option.some.injEq, Prod.mk.injEq] at h
      exact .inl ⟨0, h.1.symm⟩
    · simp only [Option.some.injEq, Prod.mk.injEq] at h
      obtain ⟨rfl, _⟩ := h
      simp only [Progress.given, Progress.op, and_self, or_true]
  | meltLeft p t | meltRight p t =>
    rw [next] at h
    split at h
    · simp only [meltLeft_eq, absorbRight_eq, Option.some.injEq, Prod.mk.injEq] at h
      obtain ⟨h, _⟩ := h
      rw [← h]
      simp only [Progress.given, Progress.op, and_self, or_true]
    · simp only [Option.some.injEq, Prod.mk.injEq] at h
      obtain ⟨rfl, _⟩ := h
      simp only [Progress.given, Progress.op, and_self, or_true]
  | done r => cases h

/-- A call in one step. -/
theorem History.call (h : History src trace σ) (hc : Made c σ.live)
    (hnow : remaining src c σ.heap = some (r, s')) (hg : Granted s'.calls) :
    History src (trace ++ c.op.toList.map fun op => (op, r)) ⟨s', after r σ.live c.op⟩ := by
  rcases hc with ⟨n, rfl, hn⟩ | ⟨p, rfl | rfl, hp⟩
  · have hmalloc : malloc src n σ.heap = some (r, s') := hnow
    have hserved : Served src (.malloc n) σ := by
      intro m hm q s₁ hs₁
      obtain rfl : n = m := Option.some.inj hm
      obtain ⟨_, rfl⟩ := Prod.mk.inj (Option.some.inj (hmalloc.symm.trans hs₁))
      exact hg
    have hlegal : Legal (.malloc n) σ := hn
    refine h.step hlegal hserved ?_
    simp only [Alloc.step, hmalloc, Option.bind_eq_bind, Option.bind_some]
    rfl
  · obtain ⟨s₁, hfree, heq⟩ := Option.map_eq_some_iff.mp hnow
    obtain ⟨rfl, rfl⟩ := Prod.mk.inj heq
    have hserved : Served src (.free p) σ := by
      intro m hm
      cases hm
    have hlegal : Legal (.free p) σ := .inr hp
    refine h.step hlegal hserved ?_
    simp only [Alloc.step, hfree, Option.bind_eq_bind, Option.bind_some]
    rfl
  · obtain ⟨_, rfl⟩ := Prod.mk.inj (Option.some.inj hnow)
    simpa [Progress.op, after] using h

/-- What `realloc` sees. -/
theorem Sound.size_live (h : Sound σ L) (hc : Made (.size p) σ.live)
    (hnow : remaining src (.size p) σ.heap = some (r, s')) : ⟨p, r⟩ ∈ σ.live := by
  rcases hc with ⟨n, heq, _⟩ | ⟨q, hq, b, hb, rfl⟩
  · cases heq
  · obtain rfl : p = b.ptr := by
      rcases hq with hq | hq
      · cases hq
      · exact Progress.size.inj hq
    obtain ⟨t, ht, hptr, hsize, _⟩ := h.header b hb
    rw [remaining, hptr, h.inv.sub64_ptr ht.1, hsize] at hnow
    obtain ⟨rfl, _⟩ := Prod.mk.inj (Option.some.inj hnow)
    exact hb

/-! ### A call in progress -/

/-- The call `u` began with `σ` and has come to the heap `s`. -/
structure Busy (src : PageSource) (σ : System) (s : Heap) (u : Turn P Progress) : Prop where
  made : Made u.call σ.live
  given : u.now.given = u.call.given
  op : u.now.op = u.call.op
  stage : ∃ L, Inv s L ∧ Stage s L (others σ.live u.call) u.now
  keeps : Keeps (others σ.live u.call) σ.heap s
  same : Ahead src s u.now →
    Ahead src σ.heap u.call ∧ remaining src u.now s = remaining src u.call σ.heap

theorem Made.ne_done (h : Made c live) (r : Nat) : c ≠ .done r := by
  rcases h with ⟨n, rfl, _⟩ | ⟨p, rfl | rfl, _⟩
  · nofun
  · nofun
  · nofun

namespace Busy

theorem start (h : Sound σ L) (hc : Made c σ.live) {p : P} : Busy src σ σ.heap ⟨p, c, c⟩ :=
  ⟨hc, rfl, rfl, ⟨L, h.inv, h.stage hc⟩, Keeps.refl _ _, fun hahead => ⟨hahead, rfl⟩⟩

/-- The pointer of a `free` to come is not `NULL`. -/
theorem nonnull (h : Busy src σ s u) (hu : u.now = .free p) : p ≠ 0 := by
  obtain ⟨L, _, hs⟩ := h.stage
  rw [hu] at hs
  obtain ⟨t, rfl, _⟩ := hs
  omega

theorem ahead_of_next (h : Busy src σ s u) (hnow : next src u.now s = some (c', s'))
    (hg : Granted s'.calls) (hahead : Ahead src s' c') :
    Ahead src σ.heap u.call ∧ remaining src c' s' = remaining src u.call σ.heap := by
  obtain ⟨hcall, heq⟩ := h.same (hahead.of_next hnow hg)
  exact ⟨hcall, (remaining_next (fun p hp => h.nonnull hp) hnow).symm.trans heq⟩

theorem next (h : Busy src σ s u) (hnow : next src u.now s = some (c', s')) (hg : Granted s'.calls)
    (hmore : ∀ r, c' ≠ .done r) : Busy src σ s' {u with now := c'} := by
  obtain ⟨L, hinv, hs⟩ := h.stage
  obtain ⟨hstage, hkeeps⟩ := hs.next hinv hnow hg
  obtain ⟨hgiven, hop⟩ : c'.given = u.now.given ∧ c'.op = u.now.op :=
    (next_same hnow).resolve_left fun ⟨r, hr⟩ => hmore r hr
  exact ⟨h.made, hgiven.trans h.given, hop.trans h.op, hstage, h.keeps.trans hkeeps,
    h.ahead_of_next hnow hg⟩

/-- The last piece makes the heap the whole call makes. -/
theorem last (h : Busy src σ s u) (hnow : Alloc.next src u.now s = some (.done r, s'))
    (hg : Granted s'.calls) : remaining src u.call σ.heap = some (r, s') := by
  obtain ⟨_, heq⟩ := h.ahead_of_next hnow hg fun n hn => hn.elim
  rw [← heq, remaining]

/-- A byte of another block is written. -/
theorem poke (h : Busy src σ s u) (hmore : ∀ r, u.now ≠ .done r) (hσ : Sound σ L)
    (hx : x ∈ others σ.live u.call) (ha : Payload σ.heap x a) :
    Busy src ⟨σ.heap.poke a v, σ.live⟩ (s.poke a v) u := by
  obtain ⟨L', hinv, hs⟩ := h.stage
  have hs₀ := hσ.stage h.made
  have hsub : ∀ y ∈ others σ.live u.call, y ∈ used s L' := fun y hy => hs.sub hmore hy
  have hsub₀ : ∀ y ∈ others σ.live u.call, y ∈ used σ.heap L :=
    fun y hy => hs₀.sub h.made.ne_done hy
  have ha' : Payload s x a := Inv.payload_keeps h.keeps hx ha
  have hc := hinv.poke_clear (hsub x hx).1 ha'
  have hc₀ := hσ.inv.poke_clear (hsub₀ x hx).1 ha
  refine ⟨h.made, h.given, h.op,
    ⟨L', hinv.poke (hsub x hx).1 ha', hs.poke hinv (hsub x hx) ha'⟩, ?_, fun hahead => ?_⟩
  · refine ⟨fun y hy => ?_, fun y hy => ?_, fun y hy b hb => ?_⟩
    · rw [get_poke hc (hsub y hy).1, get_poke hc₀ (hsub₀ y hy).1, h.keeps.size y hy]
    · rw [get_poke hc (hsub y hy).1, get_poke hc₀ (hsub₀ y hy).1, h.keeps.realSize y hy]
    · rw [Payload, get_poke hc₀ (hsub₀ y hy).1] at hb
      show Function.update s.mem a v b = Function.update σ.heap.mem a v b
      rw [Function.update_apply, Function.update_apply, h.keeps.payload y hy b hb]
  · have hahead := (hinv.ahead_poke (hsub x hx).1 ha' hs).mp hahead
    obtain ⟨hahead₀, heq⟩ := h.same hahead
    refine ⟨(hσ.inv.ahead_poke (hsub₀ x hx).1 ha hs₀).mpr hahead₀, ?_⟩
    rw [hs.remaining_poke hinv hx (hsub x hx) ha' hahead, heq,
      ← hs₀.remaining_poke hσ.inv hx (hsub₀ x hx) ha hahead₀]

end Busy

/-! ### All calls -/

variable {t t' : Turns P Progress Shared} {l : Option P}

/-- The processor `p` waits with a call, or is in one. -/
def Calls (t : Turns P Progress Shared) (p : P) (c : Progress) : Prop :=
  t.waiting p = some c ∨ ∃ u, t.turn = some u ∧ u.who = p ∧ u.now = c

/-- A pointer given to a call is given to no other until the call has ended. -/
structure Claims (t : Turns P Progress Shared) : Prop where
  made : ∀ p c, t.waiting p = some c → Made c t.data.live
  claimed : ∀ p c q, Calls t p c → c.given = some q → q ∈ t.data.claimed
  apart : ∀ p p' c c' q, Calls t p c → Calls t p' c' → c.given = some q → c'.given = some q → p = p'

theorem Made.of_mem (h : Made c live) {live' : List Block}
    (hlive : ∀ b ∈ live, c.given = some b.ptr → b ∈ live') : Made c live' := by
  rcases h with ⟨n, rfl, hn⟩ | ⟨p, hc, b, hb, rfl⟩
  · exact .inl ⟨n, rfl, hn⟩
  · refine .inr ⟨b.ptr, hc, b, hlive b hb ?_, rfl⟩
    rcases hc with rfl | rfl
    · rfl
    · rfl

theorem mem_after (hb : b ∈ live) (hne : c.given ≠ some b.ptr) : b ∈ after r live c.op := by
  have hnote : ∀ n, b ∈ note r n live := by
    intro n
    unfold note
    split
    · exact hb
    · exact List.mem_cons_of_mem _ hb
  have hforget : ∀ p, some p ≠ some b.ptr → b ∈ forget p live :=
    fun p hp => Sound.mem_forget.mpr ⟨hb, fun heq => hp (heq ▸ rfl)⟩
  cases c with
  | malloc n | search n t | carve n t => exact hnote n
  | free p | meltLeft p t | meltRight p t | release p t => exact hforget p hne
  | size p | done r => exact hb

theorem Claims.start (m : Memory) : Claims (Turns.start (Shared.boot m) : Turns P Progress Shared) := by
  have hnone : ∀ p c, ¬ Calls (Turns.start (Shared.boot m) : Turns P Progress Shared) p c := by
    intro p c hc
    rcases hc with hc | ⟨u, hu, _⟩
    · cases hc
    · cases hu
  exact ⟨nofun, fun p c _ hc => absurd hc (hnone p c), fun p _ c _ _ hc => absurd hc (hnone p c)⟩

/-- After a step with no new call. -/
theorem Claims.of_calls (h : Claims t) (hmade : ∀ p c, t'.waiting p = some c → Made c t'.data.live)
    (hcalls : ∀ p c q, Calls t' p c → c.given = some q →
      q ∈ t'.data.claimed ∧ ∃ c₀, Calls t p c₀ ∧ c₀.given = some q) : Claims t' := by
  refine ⟨hmade, fun p c q hc hq => (hcalls p c q hc hq).1, fun p p' c c' q hc hc' hq hq' => ?_⟩
  obtain ⟨_, c₀, hc₀, hq₀⟩ := hcalls p c q hc hq
  obtain ⟨_, c₁, hc₁, hq₁⟩ := hcalls p' c' q hc' hq'
  exact h.apart p p' c₀ c₁ q hc₀ hc₁ hq₀ hq₁

theorem Claims.enter (h : Claims t) {p : P} (hnow : Enters c t.data d)
    (hmade : ∀ q c', t'.waiting q = some c' → q = p ∧ c' = c ∨ t.waiting q = some c')
    (hturn : t'.turn = t.turn) (hdata : t'.data = d) : Claims t' := by
  have hcalls : ∀ q c', Calls t' q c' → q = p ∧ c' = c ∨ Calls t q c' := by
    intro q c' hc
    rcases hc with hc | hc
    · exact (hmade q c' hc).imp id .inl
    · rw [hturn] at hc
      exact .inr (.inr hc)
  cases hnow with
  | malloc small =>
    refine h.of_calls (fun q c' hq => ?_) fun q c' x hc hx => ?_
    · rw [hdata]
      rcases hmade q c' hq with ⟨_, rfl⟩ | hq
      · exact .inl ⟨_, rfl, small⟩
      · exact h.made q c' hq
    · rcases hcalls q c' hc with ⟨_, rfl⟩ | hc
      · cases hx
      · rw [hdata]
        exact ⟨h.claimed q c' x hc hx, c', hc, hx⟩
  | @give _ _ y call live own =>
    have hgiven : c.given = some y := by
      rcases call with rfl | rfl
      · rfl
      · rfl
    refine ⟨fun q c' hq => ?_, fun q c' x hc hx => ?_, fun q q' c₁ c₂ x hc hc' hx hx' => ?_⟩
    · rw [hdata]
      rcases hmade q c' hq with ⟨_, rfl⟩ | hq
      · exact .inr ⟨y, call, live⟩
      · exact h.made q c' hq
    · rw [hdata]
      rcases hcalls q c' hc with ⟨_, rfl⟩ | hc
      · rw [hgiven] at hx
        rw [← Option.some.inj hx]
        exact List.mem_cons_self ..
      · exact List.mem_cons_of_mem _ (h.claimed q c' x hc hx)
    · have hnew : ∀ q₁ c₃, Calls t q₁ c₃ → c₃.given = some x → c.given ≠ some x := by
        intro q₁ c₃ hc₃ hx₃ heq
        rw [hgiven] at heq
        obtain rfl := Option.some.inj heq
        exact own (h.claimed q₁ c₃ y hc₃ hx₃)
      rcases hcalls q c₁ hc with ⟨rfl, rfl⟩ | hc
      · rcases hcalls q' c₂ hc' with ⟨rfl, rfl⟩ | hc'
        · rfl
        · exact absurd hx (hnew q' c₂ hc' hx')
      · rcases hcalls q' c₂ hc' with ⟨rfl, rfl⟩ | hc'
        · exact absurd hx' (hnew q c₁ hc hx)
        · exact h.apart q q' c₁ c₂ x hc hc' hx hx'

variable [DecidableEq P]

/-- Nobody who waits was given what the call in progress was given. -/
theorem Claims.other (h : Claims t) (ho : ∀ p, Turns.Ordered t p) (hu : t.turn = some u) {p : P}
    {q : Nat} (hc : Calls t p c) (hp : p ≠ u.who ∨ t.waiting p = some c) (hq : c.given = some q) :
    u.now.given ≠ some q := by
  intro hgiven
  obtain rfl := h.apart p u.who c u.now q hc (.inr ⟨u, hu, rfl, rfl⟩) hq hgiven
  have hwait := hp.resolve_left fun hne => hne rfl
  have hone := (ho u.who).one
  rw [hu, hwait, Turns.own_self] at hone
  rcases hone with hone | hone
  · cases hone
  · cases hone

/-- The call in progress goes on, or ends. -/
theorem Claims.go (h : Claims t) (ho : ∀ p, Turns.Ordered t p) (hu : t.turn = some u)
    (hnow : Goes src u.now t.data c d) :
    Claims {t with turn := some {u with now := c}, data := d} := by
  cases hnow with
  | on now granted more =>
    obtain ⟨hgiven, _⟩ := (next_same now).resolve_left fun ⟨r, hr⟩ => more r hr
    refine h.of_calls h.made fun p c' q hc hq => ?_
    rcases hc with hc | ⟨u', hu', hp, rfl⟩
    · exact ⟨h.claimed p c' q (.inl hc) hq, c', .inl hc, hq⟩
    · obtain rfl := Option.some.inj hu'
      have hcall : Calls t p u.now := .inr ⟨u, hu, hp, rfl⟩
      have hq : u.now.given = some q := hgiven.symm.trans hq
      exact ⟨h.claimed p u.now q hcall hq, u.now, hcall, hq⟩
  | last now granted =>
    have hother : ∀ p c' q, t.waiting p = some c' → c'.given = some q → u.now.given ≠ some q :=
      fun p c' q hc hq => h.other ho hu (.inl hc) (.inr hc) hq
    refine h.of_calls (fun p c' hc => ?_) fun p c' q hc hq => ?_
    · exact (h.made p c' hc).of_mem fun b hb hgiven => mem_after hb (hother p c' b.ptr hc hgiven)
    · rcases hc with hc | ⟨u', hu', hp, rfl⟩
      · refine ⟨?_, c', .inl hc, hq⟩
        have hin := h.claimed p c' q (.inl hc) hq
        simpa [finish, hin] using hother p c' q hc hq
      · obtain rfl := Option.some.inj hu'
        cases hq

theorem Claims.step (h : Claims t) (ho : ∀ p, Turns.Ordered t p)
    (hnow : Turns.Step (allocator src) t l t') : Claims t' := by
  cases hnow with
  | env now =>
    cases now
    exact ⟨h.made, h.claimed, h.apart⟩
  | @enter p c d idle out now =>
    refine h.enter (p := p) now (fun q c' hq => ?_) rfl rfl
    by_cases hqp : q = p
    · subst hqp
      simp only [Function.update_self, Option.some.injEq] at hq
      exact .inl ⟨rfl, hq.symm⟩
    · simp only [Function.update_of_ne hqp] at hq
      exact .inr hq
  | @take p c wait free =>
    have hwait : ∀ q c', Function.update t.waiting p none q = some c' → t.waiting q = some c' := by
      intro q c' hq
      by_cases hqp : q = p
      · subst hqp
        simp at hq
      · rwa [Function.update_of_ne hqp] at hq
    have hcalls : ∀ q c', Calls ⟨Function.update t.waiting p none, some ⟨p, c, c⟩, t.data, t.log, t.made⟩
        q c' → Calls t q c' := by
      intro q c' hc
      rcases hc with hc | ⟨u, hu, rfl, rfl⟩
      · exact .inl (hwait q c' hc)
      · obtain rfl := Option.some.inj hu
        exact .inl wait
    exact h.of_calls (fun q c' hq => h.made q c' (hwait q c' hq)) fun q c' x hc hx =>
      ⟨h.claimed q c' x (hcalls q c' hc) hx, c', hcalls q c' hc, hx⟩
  | @go u c d has now => exact h.go ho has now
  | @give u has done =>
    have hcalls : ∀ q c', Calls {t with turn := none, log := t.log ++ [u]} q c' → Calls t q c' := by
      intro q c' hc
      rcases hc with hc | ⟨u', hu, _⟩
      · exact .inl hc
      · cases hu
    exact h.of_calls h.made fun q c' x hc hx =>
      ⟨h.claimed q c' x (hcalls q c' hc) hx, c', hcalls q c' hc, hx⟩

/-! ### The calls one after the other -/

/-- The history of the calls completed. -/
structure Behind (src : PageSource) (t : Turns P Progress Shared) (σ : System) : Prop where
  past : History src t.data.trace σ
  live : σ.live = t.data.live
  quiet : (∀ u, t.turn = some u → ∃ r, u.now = .done r) → t.data.heap = σ.heap
  busy : ∀ u, t.turn = some u → (∀ r, u.now ≠ .done r) → Busy src σ t.data.heap u

omit [DecidableEq P] in
theorem Behind.start (m : Memory) :
    Behind src (Turns.start (Shared.boot m) : Turns P Progress Shared) (Alloc.boot m) :=
  ⟨.boot m, rfl, fun _ => rfl, nofun⟩

omit [DecidableEq P] in
/-- A byte is written, of a block that no call was given. -/
theorem Behind.write (h : Behind src t σ) (hc : Claims t) (hb : b ∈ t.data.live)
    (own : b.ptr ∉ t.data.claimed) (lo : b.ptr ≤ a) (hi : a < b.ptr + b.size) :
    Behind src {t with data := t.data.write a v} ⟨σ.heap.poke a v, σ.live⟩ := by
  obtain ⟨L, hL⟩ := h.past.sound
  rw [← h.live] at hb
  obtain ⟨x, _, hptr, hp⟩ := hL.payload hb lo hi
  have hlegal : Legal (.write a v) σ := ⟨b, hb, lo, hi⟩
  have hserved : Served src (.write a v) σ := by
    intro m hm
    cases hm
  have hnow : step src (.write a v) σ = some (0, ⟨σ.heap.poke a v, σ.live⟩) := rfl
  refine ⟨h.past.step hlegal hserved hnow, h.live, fun hquiet => ?_, fun u hu hmore => ?_⟩
  · show t.data.heap.poke a v = σ.heap.poke a v
    rw [h.quiet hquiet]
  · have hbusy := h.busy u hu hmore
    refine hbusy.poke hmore hL ⟨⟨b, hb, hptr⟩, fun hgiven => own ?_⟩ hp
    rw [← hbusy.given, ← hptr] at hgiven
    exact hc.claimed u.who u.now b.ptr (.inr ⟨u, hu, rfl, rfl⟩) hgiven

theorem Behind.step (h : Behind src t σ) (hc : Claims t)
    (hnow : Turns.Step (allocator src) t l t') : ∃ σ', Behind src t' σ' := by
  obtain ⟨L, hL⟩ := h.past.sound
  cases hnow with
  | env now =>
    cases now with
    | write mem own lo hi => exact ⟨_, h.write hc mem own lo hi⟩
  | @enter p c d idle out now =>
    refine ⟨σ, ?_⟩
    cases now with
    | malloc small => exact ⟨h.past, h.live, h.quiet, h.busy⟩
    | give call live own => exact ⟨h.past, h.live, h.quiet, h.busy⟩
  | @take p c wait free =>
    have hheap : t.data.heap = σ.heap := h.quiet fun u hu => by
      rw [free] at hu
      cases hu
    have hmade : Made c σ.live := by
      rw [h.live]
      exact hc.made p c wait
    refine ⟨σ, h.past, h.live, fun _ => hheap, fun u hu _ => ?_⟩
    obtain rfl := Option.some.inj hu
    show Busy src σ t.data.heap _
    rw [hheap]
    exact Busy.start hL hmade
  | @go u c d has now =>
    cases now with
    | on now granted more =>
      have hbusy := h.busy u has fun r hr => by
        rw [hr] at now
        cases now
      refine ⟨σ, h.past, h.live, fun hquiet => ?_, fun u' hu _ => ?_⟩
      · obtain ⟨r, hr⟩ := hquiet _ rfl
        exact absurd hr (more r)
      · obtain rfl := Option.some.inj hu
        exact hbusy.next now granted more
    | @last _ s r now granted =>
      have hbusy := h.busy u has fun r hr => by
        rw [hr] at now
        cases now
      have hpast := h.past.call hbusy.made (hbusy.last now granted) granted
      refine ⟨⟨s, after r σ.live u.call.op⟩, ?_, ?_, fun _ => rfl, fun u' hu hmore => ?_⟩
      · show History src (t.data.trace ++ u.now.op.toList.map fun op => (op, r)) _
        rwa [hbusy.op]
      · show after r σ.live u.call.op = after r t.data.live u.now.op
        rw [hbusy.op, h.live]
      · obtain rfl := Option.some.inj hu
        exact absurd rfl (hmore r)
  | @give u has done =>
    refine ⟨σ, h.past, h.live, fun _ => h.quiet fun u' hu => ?_, nofun⟩
    rw [has] at hu
    obtain rfl := Option.some.inj hu
    exact done

/-! ### What the calls return -/

/-- Calls, as opposed to bytes written. -/
def isCall : Op × Nat → Bool
  | (.write _ _, _) => false
  | _ => true

/-- A call that has ended, with the pointer it returned. -/
def outcome (u : Turn P Progress) : Option (Op × Nat) :=
  match u.now with
  | .done r => u.call.op.map fun op => (op, r)
  | _ => none

omit [DecidableEq P] in
theorem outcome_none (h : ∀ r, u.now ≠ .done r) : outcome u = none := by
  unfold outcome
  split
  · exact absurd ‹_› (h _)
  · rfl

theorem filter_op : (c.op.toList.map fun op => (op, r)).filter isCall =
    (c.op.map fun op => (op, r)).toList := by
  cases c with
  | malloc | search | carve | free | meltLeft | meltRight | release | size | done => rfl

/-- A look at a size has found the size that the block has in a state of the history. -/
def Looked (src : PageSource) (trace : List (Op × Nat)) (u : Turn P Progress) : Prop :=
  ∀ q r, u.call = .size q → u.now = .done r →
    ∃ past σ, past <+: trace ∧ History src past σ ∧ ⟨q, r⟩ ∈ σ.live

/-- The record agrees with what the calls returned. -/
structure Logged (src : PageSource) (t : Turns P Progress Shared) : Prop where
  calls : t.data.trace.filter isCall = (t.log ++ t.turn.toList).filterMap outcome
  sizes : ∀ u ∈ t.log ++ t.turn.toList, Looked src t.data.trace u

section
omit [DecidableEq P]
variable {us : List (Turn P Progress)} {v : Turn P Progress} {new : List (Op × Nat)}

theorem Looked.grow (h : Looked src trace u) : Looked src (trace ++ new) u := by
  intro q r hq hr
  obtain ⟨past, σ, hpast, hσ⟩ := h q r hq hr
  exact ⟨past, σ, hpast.trans (List.prefix_append ..), hσ⟩

theorem Looked.of_more (hmore : ∀ r, u.now ≠ .done r) : Looked src trace u :=
  fun _ r _ hr => absurd hr (hmore r)

theorem looked_snoc (h : ∀ u ∈ us, Looked src trace u) (hlast : Looked src trace v) :
    ∀ u ∈ us ++ [v], Looked src trace u := by
  intro u hu
  rcases List.mem_append.mp hu with hu | hu
  · exact h u hu
  · rw [List.mem_singleton.mp hu]
    exact hlast

/-- The last part of a look at a size. -/
theorem Busy.looked (h : Busy src σ s u) (hpast : History src trace σ)
    (hnow : Alloc.next src u.now s = some (.done r, s')) (hg : Granted s'.calls) :
    Looked src (trace ++ new) {u with now := .done r} := by
  intro q r' hq hr
  obtain rfl := Progress.done.inj hr
  obtain ⟨L, hL⟩ := hpast.sound
  have hmade := h.made
  have hlast := h.last hnow hg
  have hq : u.call = .size q := hq
  rw [hq] at hmade hlast
  exact ⟨trace, σ, List.prefix_append .., hpast, hL.size_live hmade hlast⟩

theorem Logged.go (h : Logged src t) (hb : Behind src t σ) (has : t.turn = some u)
    (hnow : Goes src u.now t.data c d) : Logged src {t with turn := some {u with now := c}, data := d} := by
  have hmore : ∀ r, u.now ≠ .done r := by
    intro r hr
    cases hnow with
    | on now | last now =>
      rw [hr] at now
      cases now
  obtain ⟨hcalls, hsizes⟩ := h
  rw [has] at hcalls hsizes
  simp only [Option.toList_some, List.filterMap_append, List.filterMap_cons, List.filterMap_nil,
    outcome_none hmore, List.append_nil] at hcalls
  have hold : ∀ u' ∈ t.log, Looked src t.data.trace u' := fun u' hu' => hsizes u' (List.mem_append_left _ hu')
  cases hnow with
  | on now granted more =>
    refine ⟨?_, looked_snoc hold (.of_more more)⟩
    simp [hcalls, outcome_none (u := {u with now := c}) more]
  | @last _ s r now granted =>
    have hbusy := hb.busy u has hmore
    refine ⟨?_, looked_snoc (fun u' hu' => (hold u' hu').grow) (hbusy.looked hb.past now granted)⟩
    simp only [finish, List.filter_append, hcalls, filter_op, Option.toList_some, List.filterMap_append,
      List.filterMap_cons, List.filterMap_nil, outcome, hbusy.op]
    cases u.call.op with
    | none => rfl
    | some op => rfl

end

theorem Logged.step (h : Logged src t) (hc : Claims t) (hb : Behind src t σ)
    (hnow : Turns.Step (allocator src) t l t') : Logged src t' := by
  cases hnow with
  | env now =>
    cases now with
    | write mem own lo hi =>
      refine ⟨?_, fun u hu => (h.sizes u hu).grow⟩
      simpa [Shared.write, isCall] using h.calls
  | enter idle out now =>
    cases now with
    | malloc small => exact ⟨h.calls, h.sizes⟩
    | give call live own => exact ⟨h.calls, h.sizes⟩
  | @take p c wait free =>
    have hmore : ∀ r, c ≠ .done r := (hc.made p c wait).ne_done
    obtain ⟨hcalls, hsizes⟩ := h
    rw [free, Option.toList_none, List.append_nil] at hcalls hsizes
    refine ⟨?_, looked_snoc hsizes (.of_more hmore)⟩
    simp [hcalls, outcome_none (u := ⟨p, c, c⟩) hmore]
  | go has now => exact h.go hb has now
  | @give u has done =>
    obtain ⟨hcalls, hsizes⟩ := h
    rw [has] at hcalls hsizes
    exact ⟨by simpa using hcalls, fun u' hu' => hsizes u' (by simpa using hu')⟩

end Kvi.Alloc
