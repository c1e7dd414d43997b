import Kvi.Alloc.Beside

/-! Out of memory.

`liballoc_alloc` may answer `NULL`. `malloc` then returns `NULL` and leaves the
heap as it was. `calloc` and `realloc` do not look at the pointer `malloc` gives
them: `calloc` clears the bytes from address 0 on, `realloc` copies there and
frees the old block. `Spared` names the requests that get by: those with nothing
to clear and no block to move.

`Past` is every state reached by requests that the arithmetic gets right
(`Allowed`: less than `2^32` bytes of pages) and the page layer serves, and by
refused ones of any size that are spared. What the page layer answers may differ
from call to call, so each step has a page source of its own, and a refused call
leaves no entry in the log. -/
namespace Kvi.Alloc

variable {s s' : Heap} {L L' : Layout} {t u p q n k pages : Nat} {src : PageSource} {op : Op}
  {σ σ' : System} {f : Field}

/-- A request and the pointer it returns (`0` where it returns none). -/
def request (src : PageSource) : Op → Heap → Option (Nat × Heap)
  | .malloc n, s => malloc src n s
  | .calloc k n, s => calloc src k n s
  | .realloc p n, s => realloc src p n s
  | .free p, s => (free p s).map fun s => (0, s)
  | .write a v, s => some (0, {s with mem := Function.update s.mem a v})

/-- The size a request passes on to `malloc`, if it calls it. -/
def passes : Op → Option Nat
  | .malloc n => some n
  | .calloc k n => some (ofInt64 (s32 (u64 (k * n))))
  | .realloc _ n => if n = 0 then none else some n
  | .free _ | .write _ _ => none

/-- The bytes `realloc` copies from the block at `p`. -/
def copies (p n : Nat) (s : Heap) : Nat :=
  let realSize := s32 (s.get (sub64 p tagSize) .size)
  ofInt64 (if ofInt64 realSize > n then s32 n else realSize)

/-- How many bytes a request writes through the pointer `malloc` gave it. -/
def through : Op → Heap → Nat
  | .calloc k n, _ => ofInt64 (s32 (u64 (k * n)))
  | .realloc p n, s => if n = 0 ∨ p = 0 then 0 else copies p n s
  | .malloc _, _ | .free _, _ | .write _ _, _ => 0

/-- The page layer answers the request with `NULL`. -/
def Refused (src : PageSource) (op : Op) (s : Heap) : Prop :=
  ∃ n p s' pages, passes op = some n ∧ malloc src n s = some (p, s') ∧
    s'.calls = .alloc pages 0 :: s.calls

/-- Nothing but the page layer was called. -/
structure Untouched (s s' : Heap) : Prop where
  mem : s'.mem = s.mem
  freePages : s'.freePages = s.freePages
  completePages : s'.completePages = s.completePages
  calls : ∃ pages, s'.calls = .alloc pages 0 :: s.calls

/-- The request returns `NULL`, the heap stays as it was, and nothing is written through the
pointer. -/
def Atomic (src : PageSource) (op : Op) (s : Heap) : Prop :=
  through op s = 0 ∧ ∃ s', request src op s = some (0, s') ∧ Untouched s s'

/-- Requests with nothing to clear and no block to move. -/
def Spared : Op → Prop
  | .malloc _ | .free _ | .write _ _ => True
  | .calloc k n => s32 (u64 (k * n)) = 0
  | .realloc p _ => p = 0

/-- The states reached by requests that are `Allowed` and served, and by refused ones of any size
that are spared. -/
inductive Past : System → Prop where
  | boot (m : Memory) : Past (boot m)
  | step {σ σ' : System} {src : PageSource} {op : Op} {p : Nat} (past : Past σ)
      (allowed : Allowed op σ) (served : Served src op σ) (now : step src op σ = some (p, σ')) : Past σ'
  | refused {σ : System} {src : PageSource} {op : Op} {p : Nat} {s' : Heap} (past : Past σ)
      (refused : Refused src op σ.heap) (spared : Spared op)
      (now : request src op σ.heap = some (p, s')) :
      Past ⟨{s' with calls := σ.heap.calls}, σ.live⟩

theorem History.past {trace : List (Op × Nat)} (h : History src trace σ) : Past σ := by
  induction h with
  | boot m => exact .boot m
  | step _ legal served now ih => exact ih.step legal.allowed served now

/-! ### What is written through the pointer -/

theorem calloc_eq : calloc src k n s = (malloc src (through (.calloc k n) s) s).bind fun r =>
    (liballocMemset r.2.mem r.1 0 (through (.calloc k n) s)).bind fun m =>
      some (r.1, {r.2 with mem := m}) := rfl

theorem realloc_eq (hn : n ≠ 0) (hp : p ≠ 0) :
    realloc src p n s = (malloc src n s).bind fun r =>
      (free p {r.2 with mem := liballocMemcpy r.2.mem r.1 p (through (.realloc p n) s)}).bind
        fun s' => some (r.1, s') := by
  have hthrough : through (.realloc p n) s = copies p n s :=
    if_neg fun hor => hor.elim hn hp
  rw [hthrough, realloc, if_neg hn, if_neg hp]
  rfl

/-! ### `malloc` refused -/

theorem Inv.setup_completePages (h : Inv s L) :
    (Alloc.setup s).completePages = s.completePages := by
  have hwhole : whole (Alloc.setup s) = whole s := by
    funext t
    unfold whole Heap.get
    rw [setup_mem]
  funext i
  rw [h.setup.counts i, h.counts i, hwhole]

/-- A refused `malloc` returns `NULL` and only the request to the page layer is left of it. -/
theorem Inv.malloc_refused (h : Inv s L) (hnow : Alloc.malloc src n s = some (p, s'))
    (hcalls : s'.calls = .alloc pages 0 :: s.calls) :
    p = 0 ∧ s' = {Alloc.setup s with calls := .alloc pages 0 :: s.calls} := by
  rcases h.malloc_eq src n with ⟨t, _, _, _, _, heq⟩ | ⟨_, r, _, _, heq⟩
  · have hsame : (Alloc.carve n t (takeTag t (searchBin n) (Alloc.setup s))).2.calls = _ :=
      carve_calls
    rw [Option.some.inj (heq.symm.trans hnow), takeTag_calls, setup_calls, hcalls] at hsame
    exact absurd hsame (List.cons_ne_self _ _)
  · have hret := Option.some.inj (heq.symm.trans hnow)
    by_cases hb : r.base = 0
    · rw [if_pos hb] at hret
      obtain ⟨rfl, rfl⟩ := Prod.mk.inj hret
      have hentry : (PageCall.alloc r.pages r.base) = .alloc pages 0 := (List.cons.inj hcalls).1
      exact ⟨rfl, by rw [hentry]⟩
    · -- the range was granted
      rw [if_neg hb] at hret
      have hsame : (Alloc.carve n r.base (obtained r (u32 n) (Alloc.setup s))).2.calls = _ :=
        carve_obtained_calls
      rw [hret, hcalls] at hsame
      have hentry : (PageCall.alloc pages 0) = .alloc r.pages r.base := (List.cons.inj hsame).1
      exact absurd (PageCall.alloc.inj hentry).2.symm hb

theorem Inv.untouched (h : Inv s L) :
    Untouched s {Alloc.setup s with calls := .alloc pages 0 :: s.calls} :=
  ⟨setup_mem, h.setup_freePages, h.setup_completePages, pages, rfl⟩

/-- A refused request that is spared. -/
theorem Inv.request_refused (h : Inv s L) (hr : Refused src op s) (hs : Spared op) :
    ∃ pages, request src op s = some (0, {Alloc.setup s with calls := .alloc pages 0 :: s.calls}) ∧
      through op s = 0 := by
  obtain ⟨n, p, s', pages, hpass, hnow, hcalls⟩ := hr
  obtain ⟨rfl, rfl⟩ := h.malloc_refused hnow hcalls
  refine ⟨pages, ?_⟩
  cases op with
  | malloc n' =>
    obtain rfl : n' = n := Option.some.inj hpass
    exact ⟨hnow, rfl⟩
  | calloc k n' =>
    have hzero : s32 (u64 (k * n')) = 0 := hs
    have hthrough : through (.calloc k n') s = 0 := by
      rw [through, hzero]
      rfl
    obtain rfl : through (.calloc k n') s = n := Option.some.inj hpass
    refine ⟨?_, hthrough⟩
    rw [request, calloc_eq, hnow, hthrough]
    rfl
  | realloc q n' =>
    obtain rfl : q = 0 := hs
    have hn : n' ≠ 0 := by
      intro h0
      rw [passes, if_pos h0] at hpass
      cases hpass
    rw [passes, if_neg hn] at hpass
    obtain rfl := Option.some.inj hpass
    refine ⟨?_, if_pos (.inr rfl)⟩
    rw [request, realloc, if_neg hn, if_pos rfl]
    exact hnow
  | free _ => cases hpass
  | write _ _ => cases hpass

/-! ### The states reached -/

theorem setup_get : (setup s).get t f = s.get t f := by
  unfold Heap.get
  rw [setup_mem]

theorem Sound.setup (h : Sound σ L) : Sound ⟨Alloc.setup σ.heap, σ.live⟩ L := by
  refine ⟨h.inv.setup, h.nodup, fun b hb => ?_, fun t ht => h.owned t ?_, ?_⟩
  · obtain ⟨t, ht, hptr, hsize, hroom⟩ := h.header b hb
    exact ⟨t, used_setup.symm.subset ht, hptr, setup_get.trans hsize, by rwa [setup_get]⟩
  · exact used_setup.subset ht
  · rw [setup_calls]
    exact h.returned

theorem setup_withCalls : {setup s with calls := s.calls} = setup s := by
  unfold setup
  split <;> rfl

theorem Past.sound (h : Past σ) : ∃ L, Sound σ L := by
  induction h with
  | boot m => exact ⟨_, Sound.boot m⟩
  | step _ allowed served now ih =>
    obtain ⟨L, hL⟩ := ih
    obtain ⟨p, σ', L', heq, hsound, _⟩ := hL.step allowed served
    obtain ⟨_, rfl⟩ := Prod.mk.inj (Option.some.inj (heq.symm.trans now))
    exact ⟨L', hsound⟩
  | refused _ refused spared now ih =>
    obtain ⟨L, hL⟩ := ih
    obtain ⟨pages, heq, _⟩ := hL.inv.request_refused refused spared
    obtain ⟨_, rfl⟩ := Prod.mk.inj (Option.some.inj (heq.symm.trans now))
    refine ⟨L, ?_⟩
    rw [setup_withCalls]
    exact hL.setup

/-! ### `realloc` refused -/

/-- `free` does not leave the heap as it was. -/
theorem Inv.free_changes (h : Inv s L) (ht : t ∈ used s L) (hfree : Alloc.free (t + 48) s = some s')
    (hmem : s'.mem = s.mem) : s'.calls ≠ s.calls := by
  intro hcalls
  obtain ⟨s'', L', heq, hf, _⟩ := h.free ht
  obtain rfl := Option.some.inj (heq.symm.trans hfree)
  have hmemu : t ∈ used s'' L' := by
    have hindex : s''.index t = s.index t := by
      unfold Heap.index Heap.get
      rw [hmem]
    exact ⟨(h.tags_eq hf.inv hmem hcalls).symm.subset ht.1, by rw [hindex]; exact ht.2⟩
  rw [hf.inUse] at hmemu
  exact hmemu.2 rfl

/-- The size in the tag behind a live pointer. -/
theorem Sound.size_of_live {b : Block} (h : Sound σ L) (hb : b ∈ σ.live) :
    σ.heap.get (sub64 b.ptr tagSize) .size = b.size := by
  obtain ⟨u, hu, hptr, hsize, _⟩ := h.header b hb
  rw [h.tag_of_ptr hu hptr, hsize]

/-- `realloc` takes the size to copy from the tag of the block. -/
theorem Sound.through_live {b : Block} (h : Sound σ L) (hb : b ∈ σ.live) (hn : n ≠ 0) :
    b.size < 2 ^ 32 ∧ through (.realloc b.ptr n) σ.heap =
      ofInt64 (if ofInt64 (s32 b.size) > n then s32 n else s32 b.size) := by
  obtain ⟨u, hu, hptr, hsize, hroom⟩ := h.header b hb
  obtain ⟨hlt, _, _⟩ := h.inv.regions.block_lt hu.1
  refine ⟨by omega, ?_⟩
  rw [through, if_neg (by omega), copies, h.size_of_live hb]

/-- The bytes copied are those both blocks have. -/
theorem Sound.through_realloc {b : Block} (h : Sound σ L) (hb : b ∈ σ.live) (hn : n ≠ 0)
    (hint : b.size < 2 ^ 31 ∨ n < 2 ^ 31) : through (.realloc b.ptr n) σ.heap = min b.size n := by
  obtain ⟨hlt, hthrough⟩ := h.through_live hb hn
  rw [hthrough, copied hlt hint]

/-- Between two sizes from `2^31` on, more is copied than the new block has. -/
theorem Sound.through_large {b : Block} (h : Sound σ L) (hb : b ∈ σ.live) (hsize : 2 ^ 31 ≤ b.size)
    (hn : 2 ^ 31 ≤ n) (hn' : n < 2 ^ 32) : n < through (.realloc b.ptr n) σ.heap := by
  have hn0 : n ≠ 0 := by omega
  obtain ⟨hlt, hthrough⟩ := h.through_live hb hn0
  rw [hthrough]
  exact copied_large hsize hlt hn hn'

/-- A refused `realloc` of a live block writes through `NULL` or frees the block. -/
theorem Sound.realloc_refused (h : Sound σ L) (hlive : Live σ p) (hr : Refused src (.realloc p n) σ.heap) :
    ¬ Atomic src (.realloc p n) σ.heap := by
  intro ⟨hthrough, s₁, hnow, huntouched⟩
  obtain ⟨b, hb, rfl⟩ := hlive
  obtain ⟨t, ht, hptr, hsize, hroom⟩ := h.header b hb
  obtain ⟨hlt, hend, _⟩ := h.inv.regions.block_lt ht.1
  have htag := h.tag_of_ptr ht hptr
  obtain ⟨n', q, s', pages, hpass, hmalloc, hcalls⟩ := hr
  have hn : n ≠ 0 := by
    intro h0
    rw [passes, if_pos h0] at hpass
    cases hpass
  have hp : b.ptr ≠ 0 := by omega
  rw [passes, if_neg hn] at hpass
  obtain rfl := Option.some.inj hpass
  obtain ⟨rfl, rfl⟩ := h.inv.malloc_refused hmalloc hcalls
  -- nothing is copied, so the block is freed in the memory there was
  have hmemcpy : ∀ m : Memory, liballocMemcpy m 0 b.ptr 0 = m := by
    intro m
    rw [liballocMemcpy]
    · rfl
    · exact fun n hn => by omega
  rw [request, realloc_eq hn hp, hmalloc, hthrough, Option.bind_some, hmemcpy] at hnow
  obtain ⟨s₂, hfree, hs₂⟩ := Option.bind_eq_some_iff.mp hnow
  obtain ⟨_, rfl⟩ := Prod.mk.inj (Option.some.inj hs₂)
  obtain ⟨r, hr, htr⟩ := ht.1
  have hbeside : Beside ∅ (Alloc.setup σ.heap)
      {Alloc.setup σ.heap with calls := .alloc pages 0 :: σ.heap.calls} :=
    ⟨fun _ _ => rfl, rfl, rfl⟩
  obtain ⟨s₃, s₄, L₃, heq, hfree', hb₃, _, _, new, hnew, hnew₄⟩ :=
    h.inv.setup.free_beside (used_setup.symm.subset ht) (by rwa [setup_calls]) htr
      (fun b _ _ hmem => hmem) hbeside
  rw [hptr] at hfree
  obtain rfl : s₂ = s₄ := Option.some.inj (hfree.symm.trans hfree')
  obtain ⟨pages', hlog⟩ := huntouched.calls
  have hnone : new = [] := by
    have hlen := congrArg List.length (hnew₄.symm.trans hlog)
    rw [List.length_append, List.length_cons, List.length_cons] at hlen
    exact List.eq_nil_of_length_eq_zero (by omega)
  refine h.inv.setup.free_changes (used_setup.symm.subset ht) heq ?_ ?_
  · funext b
    rw [← hb₃.mem b (Set.notMem_empty b), huntouched.mem, setup_mem]
  · rw [hnew, hnone]
    rfl

/-- Out of memory is atomic for the requests that are spared, and for no other. -/
theorem refused_atomic_iff (h : Past σ) (hp : ∀ p n, op = .realloc p n → p = 0 ∨ Live σ p)
    (hr : Refused src op σ.heap) : Atomic src op σ.heap ↔ Spared op := by
  obtain ⟨L, hL⟩ := h.sound
  constructor
  · intro ha
    cases op with
    | malloc n => trivial
    | calloc k n =>
      have hzero : ofInt64 (s32 (u64 (k * n))) = 0 := ha.1
      show s32 (u64 (k * n)) = 0
      unfold ofInt64 at hzero
      unfold s32 u32 at hzero ⊢
      split at hzero <;> omega
    | realloc p n =>
      rcases hp p n rfl with h0 | hlive
      · exact h0
      · exact absurd ha (hL.realloc_refused hlive hr)
    | free p => trivial
    | write a v => trivial
  · intro hs
    obtain ⟨pages, hnow, hthrough⟩ := hL.inv.request_refused hr hs
    exact ⟨hthrough, _, hnow, hL.inv.untouched⟩

/-- A page layer with one range to give. -/
def onlyOne : PageSource := fun calls _ => if calls = [] then 0x1000000 else 0

theorem past_once : Past once := (history_once (show onlyOne [] 16 = _ by decide)).past

/-- A bin that is empty has nothing to find. -/
theorem search_once (hempty : once.heap.freePages (searchBin n) = 0) :
    search (setup once.heap) n ((setup once.heap).freePages (searchBin n)) = some 0 := by
  obtain ⟨L, hL⟩ := past_once.sound
  exact hL.inv.setup.search_none.mpr fun t ht =>
    absurd (hL.inv.queued_setup.mp ht) (not_queued hempty)

/-- The second range is refused. -/
theorem refused_once (hpass : passes op = some n) (hempty : once.heap.freePages (searchBin n) = 0) :
    Refused onlyOne op once.heap := by
  have hcalls : once.heap.calls ≠ [] := by
    rw [once_calls]
    exact List.cons_ne_nil _ _
  obtain ⟨r, hr⟩ : ∃ r : PageRange, r = ⟨onlyOne once.heap.calls
    (pagesFor (u32 (u32 n + tagSize))), pagesFor (u32 (u32 n + tagSize))⟩ := ⟨_, rfl⟩
  have hb : r.base = 0 := by
    simp only [hr, onlyOne, if_neg hcalls]
  have hnow := malloc_none (search_once hempty) hr
  rw [if_pos hb] at hnow
  refine ⟨n, 0, _, r.pages, hpass, hnow, ?_⟩
  rw [hb]

theorem atomic_once : Atomic onlyOne (.malloc 100) once.heap := by
  have hbin : searchBin 100 = 8 := by decide
  have hr : Refused onlyOne (.malloc 100) once.heap :=
    refused_once (n := 100) rfl (by rw [hbin]; exact once_bins.1)
  exact (refused_atomic_iff past_once (by intro p n h; cases h) hr).mpr trivial

/-- `realloc` to 200 bytes is refused: the 100 old bytes go to address 0. -/
theorem block_lost : Past once ∧ Live once 0x1000030 ∧
    Refused onlyOne (.realloc 0x1000030 200) once.heap ∧
    through (.realloc 0x1000030 200) once.heap = 100 ∧
    ¬ Atomic onlyOne (.realloc 0x1000030 200) once.heap := by
  have hthrough : through (.realloc 0x1000030 200) once.heap = 100 := by decide +kernel
  have hbin : searchBin 200 = 8 := by decide
  have hr : Refused onlyOne (.realloc 0x1000030 200) once.heap :=
    refused_once (n := 200) rfl (by rw [hbin]; exact once_bins.1)
  refine ⟨past_once, once_live, hr, hthrough, fun ⟨hzero, _⟩ => ?_⟩
  rw [hthrough] at hzero
  exact absurd hzero (by decide)

end Kvi.Alloc
