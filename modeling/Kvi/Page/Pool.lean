import Kvi.Alloc.Regions

/-! The page pool of `page.c`.

Pages are handed out by moving a heap top through the usable regions of the E820
free list, one region after the other; nothing ever comes back. `pageAlloc` is
the source's: the pointer it returns is read before the room test, the test asks
for one page whatever the request, and a region is left without looking at
alignment. Hence what it returns is right only as long as every request fits in
what is left of the current region (`Fits`), and a pool that reaches the end of
a region returns a range outside of it. -/
namespace Kvi.Page
open Alloc (PageRange)

/-- An entry of `page_freelist`. -/
structure Region where
  addr : Nat
  size : Nat
  deriving DecidableEq, Repr

def Region.stop (r : Region) : Nat := r.addr + r.size

/-- `page_heap_base`, that is `BOOT_BSP_HEAP_BASE` -/
@[irreducible] def heapBase : Nat := 0x4100000

structure Pool where
  /-- `page_freelist[0..page_freelist_size)` -/
  freelist : List Region
  /-- `page_freelist_index` -/
  index : Nat
  /-- `page_heap_offset` -/
  offset : Nat
  deriving DecidableEq, Repr

namespace Pool

/-- The heap top. -/
def top (s : Pool) : Nat := u64 (s.offset + heapBase)

/-- `page_freelist[page_freelist_index]`; entries never filled are zero. -/
def entry (s : Pool) : Region := s.freelist.getD s.index ⟨0, 0⟩

/-- The room test: less than one page is left of the current region. -/
@[irreducible] def full (s : Pool) : Bool :=
  decide (u64 (s.entry.addr + s.entry.size) < u64 (s.offset + heapBase + 4096))

/-- On to the next region; without one the kernel panics. -/
def advance (s : Pool) : Option Pool :=
  if s.freelist.length ≤ s.index + 1 then none
  else some ⟨s.freelist, s.index + 1,
    sub64 (s.freelist.getD (s.index + 1) ⟨0, 0⟩).addr heapBase⟩

/-- `page_heap_offset += pages * 0x1000`; the product is an `int` and wraps as the machine's
does. -/
def push (pages : Nat) (s : Pool) : Pool :=
  {s with offset := u64 (s.offset + ofInt64 (s32 (pages * 0x1000)))}

end Pool

/-- `page_alloc (pages)`; no result is the panic. -/
def pageAlloc (pages : Nat) (s : Pool) : Option (Nat × Pool) :=
  (if s.full then s.advance else some s).map fun s' => (s.top, s'.push pages)

/-- The end of `page_layout`: the first region the heap top is not behind. -/
def selectFrom (top : Nat) : List Region → Nat → Option Nat
  | [], _ => none
  | r :: rs, i => if u64 (r.addr + r.size) ≤ top then selectFrom top rs (i + 1) else some i

/-- The pool `page_layout` leaves. -/
def start (freelist : List Region) : Option Pool :=
  (selectFrom heapBase freelist 0).map fun i => ⟨freelist, i, 0⟩

/-- Calls of `page_alloc` from the start on, each meeting `ok`, and the ranges returned, latest
first. -/
inductive Run (ok : Pool → Nat → Prop) (freelist : List Region) : List PageRange → Pool → Prop where
  | start {s : Pool} (now : start freelist = some s) (inside : s.entry.addr ≤ s.top) :
      Run ok freelist [] s
  | call {out : List PageRange} {s s' : Pool} {n p : Nat} (past : Run ok freelist out s)
      (pos : 0 < n) (meets : ok s n) (now : pageAlloc n s = some (p, s')) :
      Run ok freelist (⟨p, n⟩ :: out) s'

/-- A free list of disjoint regions inside the address space. -/
structure WellFormed (freelist : List Region) : Prop where
  disjoint : freelist.Pairwise fun r r' => r.stop ≤ r'.addr ∨ r'.stop ≤ r.addr
  stop_lt : ∀ r ∈ freelist, r.stop < 2 ^ 64

/-- A range of whole pages inside one region. -/
def Usable (freelist : List Region) (q : PageRange) : Prop :=
  q.base % 4096 = 0 ∧ ∃ r ∈ freelist, r.addr ≤ q.base ∧ q.stop ≤ r.stop

/-- The request fits in what is left of the current region, or the heap top is at its very end,
where the next region begins and has the room. -/
def Fits (s : Pool) (n : Nat) : Prop :=
  (s.top + n * 4096 ≤ s.entry.stop ∨
    s.top = s.entry.stop ∧ ∃ r, s.freelist[s.index + 1]? = some r ∧ r.addr = s.entry.stop ∧
      r.addr + n * 4096 ≤ r.stop) ∧
    n * 4096 < 2 ^ 31

variable {freelist : List Region} {out : List PageRange} {s s' : Pool} {r r' : Region} {q : PageRange}
  {n p i j : Nat} {ok : Pool → Nat → Prop}

/-! ### One call -/

theorem entry_of_getElem (h : s.freelist[s.index]? = some r) : s.entry = r := by
  simp [Pool.entry, h]

/-- A request below `2^31` bytes moves the heap top by what was asked for. -/
theorem top_push (hn : n * 4096 < 2 ^ 31) (h : s.top + n * 4096 < 2 ^ 64) :
    (s.push n).top = s.top + n * 4096 := by
  have hbytes : ofInt64 (s32 (n * 0x1000)) = n * 4096 := by
    rw [s32_of_lt hn, ofInt64_of_nonneg (by omega) (by omega), Int.toNat_natCast]
  have htop : (s.push n).top = u64 (u64 (s.offset + n * 4096) + heapBase) := by
    rw [Pool.top, Pool.push, hbytes]
  rw [htop]
  unfold Pool.top u64 at h ⊢
  omega

/-- The heap starts at its base. -/
theorem top_start : Pool.top ⟨freelist, i, 0⟩ = heapBase := by
  have hlt : 0 + heapBase < 2 ^ 64 := by
    unfold heapBase
    omega
  rw [Pool.top, u64_of_lt hlt, Nat.zero_add]

theorem WellFormed.apart (h : WellFormed freelist) (hr : freelist[i]? = some r)
    (hr' : freelist[j]? = some r') (hne : i ≠ j) : r.stop ≤ r'.addr ∨ r'.stop ≤ r.addr := by
  obtain ⟨hi, rfl⟩ := List.getElem?_eq_some_iff.mp hr
  obtain ⟨hj, rfl⟩ := List.getElem?_eq_some_iff.mp hr'
  have hpair := List.pairwise_iff_getElem.mp h.disjoint
  rcases Nat.lt_or_gt_of_ne hne with hlt | hlt
  · exact hpair i j hi hj hlt
  · exact (hpair j i hj hi hlt).symm

/-- The room test, when the next page is inside the address space. -/
theorem full_iff (hr : s.freelist[s.index]? = some r) (hstop : r.stop < 2 ^ 64)
    (htop : s.top + 4096 < 2 ^ 64) : s.full = true ↔ r.stop < s.top + 4096 := by
  have hsum : u64 (r.addr + r.size) = r.stop := u64_of_lt hstop
  have hnext : u64 (s.offset + heapBase + 4096) = s.top + 4096 := by
    unfold Pool.top u64 at htop ⊢
    omega
  unfold Pool.full
  simp only [decide_eq_true_eq, entry_of_getElem hr, hsum, hnext]

theorem top_advance (h : s.freelist[s.index + 1]? = some r) (hstop : r.stop < 2 ^ 64) :
    ∃ s', s.advance = some s' ∧ s'.freelist = s.freelist ∧ s'.index = s.index + 1 ∧
      s'.top = r.addr := by
  obtain ⟨hlt, hget⟩ := List.getElem?_eq_some_iff.mp h
  have hd : s.freelist.getD (s.index + 1) ⟨0, 0⟩ = r := by simp [h]
  refine ⟨⟨s.freelist, s.index + 1, sub64 r.addr heapBase⟩, ?_, rfl, rfl, ?_⟩
  · rw [Pool.advance, if_neg (by omega), hd]
  · have hlt : r.addr < 2 ^ 64 := Nat.lt_of_le_of_lt (Nat.le_add_right ..) hstop
    show u64 (sub64 r.addr heapBase + heapBase) = r.addr
    unfold sub64 u64 heapBase
    omega

/-! ### What holds while every request fits -/

structure Sane (freelist : List Region) (out : List PageRange) (s : Pool) : Prop where
  same : s.freelist = freelist
  aligned : s.top % 4096 = 0
  inside : ∃ r, freelist[s.index]? = some r ∧ r.addr ≤ s.top ∧ s.top ≤ r.stop
  /-- Every range lies in a region left behind, or in the current one below the heap top. -/
  past : ∀ q ∈ out, q.base % 4096 = 0 ∧ ∃ j r, freelist[j]? = some r ∧ r.addr ≤ q.base ∧
    q.stop ≤ r.stop ∧ (j < s.index ∨ j = s.index ∧ q.stop ≤ s.top)
  apart : out.Pairwise PageRange.Disjoint

/-- What a request that fits does: a range from the heap top on, inside the region the pool is in
afterwards. -/
theorem pageAlloc_of_fits (hw : WellFormed freelist) (h : Sane freelist out s) (hpos : 0 < n)
    (hfit : Fits s n) :
    ∃ s' r, pageAlloc n s = some (s.top, s') ∧ s'.freelist = freelist ∧
      freelist[s'.index]? = some r ∧ r.addr ≤ s.top ∧ s'.top = s.top + n * 4096 ∧
      s'.top ≤ r.stop ∧ (s'.index = s.index ∨ s'.index = s.index + 1 ∧ s.top ≤ r.addr) := by
  obtain ⟨r, hr, hlo, hhi⟩ := h.inside
  have hstop := hw.stop_lt r (List.mem_of_getElem? hr)
  have hr' : s.freelist[s.index]? = some r := by rw [h.same, hr]
  have hentry := entry_of_getElem hr'
  obtain ⟨hroom, hbytes⟩ := hfit
  rw [hentry] at hroom
  rcases hroom with hroom | ⟨hend, r', hnext, haddr, hroom⟩
  · have hfull : s.full = false := by
      have := full_iff hr' hstop (by omega)
      by_contra hf
      have := this.mp (by simpa using hf)
      omega
    have htop := top_push hbytes (s := s) (by omega)
    refine ⟨s.push n, r, ?_, h.same, hr, hlo, htop, ?_, .inl rfl⟩
    · rw [pageAlloc, hfull]
      rfl
    · rw [htop]
      exact hroom
  · have hstop' := hw.stop_lt r' (List.mem_of_getElem? (h.same ▸ hnext))
    have hnext_lt : s.top + 4096 < 2 ^ 64 := by omega
    have hfull : s.full = true := (full_iff hr' hstop hnext_lt).mpr (by omega)
    obtain ⟨s₁, hadv, hsame, hidx, htop₁⟩ := top_advance hnext hstop'
    have htop := top_push hbytes (s := s₁) (by omega)
    refine ⟨s₁.push n, r', ?_, hsame.trans h.same, ?_, by omega, ?_, ?_, .inr ⟨hidx, by omega⟩⟩
    · rw [pageAlloc, hfull, if_pos rfl, hadv]
      rfl
    · show freelist[s₁.index]? = some r'
      rw [hidx, ← h.same]
      exact hnext
    · rw [htop, htop₁]
      omega
    · rw [htop, htop₁]
      exact hroom

theorem Sane.step (hw : WellFormed freelist) (h : Sane freelist out s) (hpos : 0 < n)
    (hfit : Fits s n) (hnow : pageAlloc n s = some (p, s')) : Sane freelist (⟨p, n⟩ :: out) s' := by
  obtain ⟨s₁, r, heq, hsame, hr, hlo, htop, hhi, hidx⟩ := pageAlloc_of_fits hw h hpos hfit
  obtain ⟨rfl, rfl⟩ := Prod.mk.inj (Option.some.inj (heq.symm.trans hnow))
  have hstop : (PageRange.mk s.top n).stop = s₁.top := htop.symm
  refine ⟨hsame, ?_, ⟨r, hr, by omega, hhi⟩, fun q hq => ?_, List.pairwise_cons.mpr ⟨fun q hq => ?_,
    h.apart⟩⟩
  · have := h.aligned
    omega
  · rcases List.mem_cons.mp hq with rfl | hq
    · exact ⟨h.aligned, s₁.index, r, hr, hlo, by omega, .inr ⟨rfl, by omega⟩⟩
    · obtain ⟨hal, j, r', hr', h1, h2, h3⟩ := h.past q hq
      refine ⟨hal, j, r', hr', h1, h2, ?_⟩
      omega
  · obtain ⟨_, j, r', hr', h1, h2, h3⟩ := h.past q hq
    simp only [PageRange.Disjoint, hstop]
    by_cases hj : j = s₁.index
    · right
      omega
    · rcases hw.apart hr hr' (Ne.symm hj) with hd | hd
      · left
        omega
      · right
        omega

theorem selectFrom_spec {top : Nat} {rs : List Region} (h : selectFrom top rs i = some j) :
    ∃ r, i ≤ j ∧ rs[j - i]? = some r ∧ top < u64 (r.addr + r.size) := by
  induction rs generalizing i with
  | nil => cases h
  | cons r rs ih =>
    rw [selectFrom] at h
    split at h
    · obtain ⟨r', hle, hget, hlt⟩ := ih h
      refine ⟨r', by omega, ?_, hlt⟩
      rwa [show j - i = j - (i + 1) + 1 by omega, List.getElem?_cons_succ]
    · obtain rfl := Option.some.inj h
      exact ⟨r, Nat.le_refl _, by rw [Nat.sub_self]; rfl, by omega⟩

theorem Run.sane (hw : WellFormed freelist) (h : Run Fits freelist out s) : Sane freelist out s := by
  induction h with
  | start now inside =>
    obtain ⟨j, hj, rfl⟩ := Option.map_eq_some_iff.mp now
    obtain ⟨r, _, hget, hlt⟩ := selectFrom_spec hj
    have hstop := hw.stop_lt r (List.mem_of_getElem? hget)
    have hsum : u64 (r.addr + r.size) = r.stop := u64_of_lt hstop
    rw [entry_of_getElem (s := ⟨freelist, j, 0⟩) hget, top_start] at inside
    refine ⟨rfl, by rw [top_start, heapBase], ⟨r, hget, ?_, ?_⟩, nofun, List.Pairwise.nil⟩
    · rw [top_start]
      exact inside
    · rw [top_start]
      omega
  | call past pos meets now ih => exact ih.step hw pos meets now

/-- The pointer returned is the heap top the call found. -/
theorem pageAlloc_ptr (h : pageAlloc n s = some (p, s')) : p = s.top := by
  obtain ⟨s₁, _, heq⟩ := Option.map_eq_some_iff.mp h
  exact (Prod.mk.inj heq).1.symm

/-! ### When the pool is right -/

/-- What the callers of `page_alloc` rely on. -/
def Good (freelist : List Region) (out : List PageRange) : Prop :=
  (∀ q ∈ out, Usable freelist q) ∧ out.Pairwise PageRange.Disjoint

theorem Sane.good (h : Sane freelist out s) : Good freelist out := by
  refine ⟨fun q hq => ?_, h.apart⟩
  obtain ⟨hal, j, r, hr, hlo, hhi, _⟩ := h.past q hq
  exact ⟨hal, r, List.mem_of_getElem? hr, hlo, hhi⟩

/-- A region begins where another one ends only if it is the next of the list. -/
def Consecutive (freelist : List Region) : Prop :=
  ∀ i j r r', freelist[i]? = some r → freelist[j]? = some r' → r.stop = r'.addr → j = i + 1

/-- A range inside a region is one that fitted. -/
theorem fits_of_usable (hw : WellFormed freelist) (hc : Consecutive freelist)
    (h : Sane freelist out s) (hbytes : n * 4096 < 2 ^ 31)
    (hq : Usable freelist ⟨s.top, n⟩) : Fits s n := by
  obtain ⟨r, hr, hlo, hhi⟩ := h.inside
  obtain ⟨_, r', hmem, hlo', hhi'⟩ := hq
  obtain ⟨j, hj⟩ := List.mem_iff_getElem?.mp hmem
  have hstop : (PageRange.mk s.top n).stop = s.top + n * 4096 := rfl
  simp only [hstop] at hlo' hhi'
  have hentry : s.entry = r := entry_of_getElem (by rw [h.same, hr])
  refine ⟨?_, hbytes⟩
  rw [hentry, h.same]
  by_cases hij : s.index = j
  · rw [hij, hj] at hr
    obtain rfl := Option.some.inj hr
    exact .inl hhi'
  · rcases hw.apart hr hj hij with hd | hd
    · have hj' := hc _ _ _ _ hr hj (by omega)
      rw [hj'] at hj
      exact .inr ⟨by omega, r', hj, by omega, by omega⟩
    · omega

/-- `page_alloc` is right in every run in which every request fits. Where regions touch in the
order of the list only, and requests stay below `2^31` bytes, it is right in no other. -/
theorem pages_good_iff_fits (hw : WellFormed freelist)
    (h : Run (fun _ _ => True) freelist out s) :
    (Run Fits freelist out s → Good freelist out) ∧
      (Consecutive freelist → (∀ q ∈ out, q.bytes < 2 ^ 31) → Good freelist out →
        Run Fits freelist out s) := by
  refine ⟨fun hfits => (hfits.sane hw).good, fun hc hbytes hgood => ?_⟩
  induction h with
  | start now inside => exact .start now inside
  | @call out s s' n p past pos _ now ih =>
    obtain ⟨husable, hapart⟩ := hgood
    have hpast := ih (fun q hq => hbytes q (List.mem_cons_of_mem _ hq))
      ⟨fun q hq => husable q (List.mem_cons_of_mem _ hq), (List.pairwise_cons.mp hapart).2⟩
    have hp : p = s.top := pageAlloc_ptr now
    have hlt : n * 4096 < 2 ^ 31 := hbytes ⟨p, n⟩ (List.mem_cons_self ..)
    have hlast : Usable freelist ⟨s.top, n⟩ := hp ▸ husable ⟨p, n⟩ (List.mem_cons_self ..)
    exact hpast.call pos (fits_of_usable hw hc (hpast.sane hw) hlt hlast) now

/-- A free list with one page left in its first region when the heap starts. -/
def onePageLeft : List Region := [⟨0x100000, 0x4001000⟩, ⟨0x8000000, 0x100000⟩]

theorem onePageLeft_wellFormed : WellFormed onePageLeft :=
  ⟨by decide, by decide⟩

theorem onePageLeft_first : Run (fun _ _ => True) onePageLeft [⟨0x4100000, 1⟩]
    ⟨onePageLeft, 0, 0x1000⟩ :=
  (Run.start (s := ⟨onePageLeft, 0, 0⟩) (by decide +kernel) (by decide +kernel)).call (by decide)
    trivial (by decide +kernel)

/-- A free list with such a first region, and the second right behind it. -/
def touching : List Region := [⟨0x100000, 0x4001000⟩, ⟨0x4101000, 0x100000⟩]

/-- The first request fills the first region, the next is served from the second. -/
theorem touching_run (ok : Pool → Nat → Prop) (h₁ : ok ⟨touching, 0, 0⟩ 1) (h₂ : ok ⟨touching, 0, 0x1000⟩ 2) :
    Run ok touching [⟨0x4101000, 2⟩, ⟨0x4100000, 1⟩] ⟨touching, 1, 0x3000⟩ := by
  have hstart : Run ok touching [] ⟨touching, 0, 0⟩ := .start (by decide +kernel) (by decide +kernel)
  have hone : Run ok touching [⟨0x4100000, 1⟩] ⟨touching, 0, 0x1000⟩ :=
    hstart.call (by decide) h₁ (by decide +kernel)
  exact hone.call (by decide) h₂ (by decide +kernel)

theorem touching_consecutive : Consecutive touching := by
  intro i j r r' hi hj hstop
  have hilt : i < 2 := (List.getElem?_eq_some_iff.mp hi).1
  have hjlt : j < 2 := (List.getElem?_eq_some_iff.mp hj).1
  interval_cases i <;> interval_cases j <;> cases hi <;> cases hj
  · exact absurd hstop (by decide)
  · rfl
  · exact absurd hstop (by decide)
  · exact absurd hstop (by decide)

theorem pages_good_first : Run (fun _ _ => True) touching [⟨0x4101000, 2⟩, ⟨0x4100000, 1⟩]
      ⟨touching, 1, 0x3000⟩ ∧
    Good touching [⟨0x4101000, 2⟩, ⟨0x4100000, 1⟩] ∧
    Run Fits touching [⟨0x4101000, 2⟩, ⟨0x4100000, 1⟩] ⟨touching, 1, 0x3000⟩ := by
  have hrun := touching_run (fun _ _ => True) trivial trivial
  obtain ⟨hgood, hfits⟩ := pages_good_iff_fits ⟨by decide, by decide⟩ hrun
  have hall : Good touching [⟨0x4101000, 2⟩, ⟨0x4100000, 1⟩] := by
    refine hgood (touching_run Fits ⟨.inl (by decide +kernel), by decide⟩ ⟨.inr ?_, by decide⟩)
    exact ⟨by decide +kernel, ⟨0x4101000, 0x100000⟩, rfl, by decide, by decide⟩
  exact ⟨hrun, hall, hfits touching_consecutive (by decide) hall⟩

/-- The second page comes from behind the first region, which ended with the first. -/
theorem page_outside : WellFormed onePageLeft ∧ ∃ s,
    Run (fun _ _ => True) onePageLeft [⟨0x4101000, 1⟩, ⟨0x4100000, 1⟩] s ∧
      ¬ Good onePageLeft [⟨0x4101000, 1⟩, ⟨0x4100000, 1⟩] := by
  refine ⟨onePageLeft_wellFormed, ⟨onePageLeft, 1, 0x3f01000⟩,
    onePageLeft_first.call (by decide) trivial (by decide +kernel), fun h => ?_⟩
  obtain ⟨_, r, hr, hlo, hhi⟩ := h.1 _ (List.mem_cons_self ..)
  revert r
  decide

end Kvi.Page
