import Kvi.Alloc.Large
import Kvi.Alloc.Refused

/-! How large a block really is.

A request travels through `size_t`, `unsigned int` and `int`. `malloc` rounds
`u32 (u32 size + 48)` up to pages, so from `2^32 - 48` bytes on it asks for too
few of them; `calloc` multiplies into an `int`, and `realloc` compares and copies
sizes as an `int`, which between two sizes from `2^31` on is far more than either.
`HasRoom` reads the room of a block off the heap itself: from the payload to the
tag split off behind it, or to the end of the page range. `sizes_kept_iff` says
for which requests the block has the room asked for, and is not written past. -/
namespace Kvi.Alloc

variable {s s' : Heap} {L L' : Layout} {r : PageRange} {t u p q n k m x : Nat} {src : PageSource}
  {op : Op} {σ : System}

/-- Where the block at `t` ends: at the tag split off behind it, or with its range. -/
def blockEnd (s : Heap) (r : PageRange) (t : Nat) : Nat :=
  if s.get t .splitRight = 0 then r.stop else s.get t .splitRight

/-- The block at `p` has `n` payload bytes inside its page range. -/
def HasRoom (n p : Nat) (s : Heap) : Prop :=
  ∃ t, ∃ r ∈ held s.calls, p = t + 48 ∧ r.base ≤ t ∧ t + 48 + n ≤ blockEnd s r t ∧
    blockEnd s r t ≤ r.stop

/-- The page layer answers the request with `NULL` or with a range of its own. -/
def Fair (src : PageSource) (op : Op) (s : Heap) : Prop :=
  ∀ n p s', passes op = some n → malloc src n s = some (p, s') →
    Granted s'.calls ∨ Refused src op s

/-- What the interface promises for the size asked for. -/
def Kept (src : PageSource) : Op → Heap → Prop
  | .malloc n, s => Atomic src (.malloc n) s ∨
      ∃ p s', malloc src n s = some (p, s') ∧ HasRoom n p s'
  | .calloc k n, s => ∃ p s', calloc src k n s = some (p, s') ∧
      (p = 0 ∨ HasRoom (k * n) p s' ∧ ∀ i < k * n, s'.mem (p + i) = 0)
  | .realloc p n, s =>
      if n = 0 then ∃ s', realloc src p n s = some (0, s') ∧ free p s = some s'
      else Atomic src (.realloc p n) s ∨ through (.realloc p n) s ≤ n ∧
        ∃ q s', realloc src p n s = some (q, s') ∧ HasRoom n q s'
  | .free _, _ | .write _ _, _ => True

/-- The requests whose size survives the arithmetic, or that are refused in time. -/
def InRange (src : PageSource) : Op → Heap → Prop
  | .malloc n, s => n + 48 < 2 ^ 32 ∨ Refused src (.malloc n) s
  | .calloc k n, s => k * n < 2 ^ 31 ∨ k * n % 2 ^ 32 < 2 ^ 31 ∧ Refused src (.calloc k n) s
  | .realloc p n, s => n = 0 ∨ n + 48 < 2 ^ 32 ∧
      (s.get (sub64 p tagSize) .size < 2 ^ 31 ∨ n < 2 ^ 31) ∧ ¬ Refused src (.realloc p n) s
  | .free _, _ | .write _ _, _ => True

/-! ### Room -/

/-- A block of the heap has the room its tag records. -/
theorem Inv.hasRoom (h : Inv s L) (ht : t ∈ tags s L) (hn : n + 48 ≤ s.get t .realSize) :
    HasRoom n (t + 48) s := by
  obtain ⟨r, hr, htr⟩ := ht
  obtain ⟨hlo, hreal, hhi⟩ := h.regions.within hr htr
  have hend : blockEnd s r t = t + s.get t .realSize := by
    rw [blockEnd]
    by_cases h0 : s.get t .splitRight = 0
    · rw [if_pos h0, h.regions.last_stop hr htr h0]
    · rw [if_neg h0, ((h.regions.right_or ⟨r, hr, htr⟩).resolve_left h0).2.1]
  exact ⟨t, r, hr, rfl, hlo, by omega, by omega⟩

theorem HasRoom.range (h : HasRoom n p s) :
    ∃ r ∈ held s.calls, r.base + 48 ≤ p ∧ p + n ≤ r.stop := by
  obtain ⟨t, r, hr, rfl, hlo, hn, hhi⟩ := h
  exact ⟨r, hr, by omega, by omega⟩

/-- A block at the start of a large range ends where the remainder starts, or with the range. -/
theorem hasRoom_large (hr : r ∈ held s.calls) (hn : n + 48 ≤ r.bytes)
    (hright : s.get r.base .splitRight = 0 ∨
      s.get r.base .splitRight = r.base + 48 + n ∧ n + 96 < r.bytes) :
    HasRoom n (r.base + 48) s := by
  refine ⟨r.base, r, hr, rfl, le_rfl, ?_⟩
  rw [blockEnd]
  rcases hright with h0 | ⟨heq, hroom⟩
  · rw [if_pos h0, PageRange.stop]
    omega
  · rw [if_neg (by omega), heq, PageRange.stop]
    omega

/-! ### `malloc` of any size -/

theorem Inv.malloc_ends (h : Inv s L) (src : PageSource) (n : Nat) :
    ∃ p s', Alloc.malloc src n s = some (p, s') := by
  rcases h.malloc_eq src n with ⟨_, _, _, _, _, heq⟩ | ⟨_, _, _, _, heq⟩
  · exact ⟨_, _, heq⟩
  · exact ⟨_, _, heq⟩

/-- The block was found in its bin, or it is made of a fresh range. -/
theorem Inv.malloc_cases (h : Inv s L) (hnow : Alloc.malloc src n s = some (p, s'))
    (hg : Granted s'.calls) :
    (∃ i, ∃ t ∈ L.bins i, fits (Alloc.setup s) n t = true ∧
      Alloc.carve n t (takeTag t i (Alloc.setup s)) = (p, s')) ∨
    ∃ r, Obtained (held s.calls) r n ∧
      Alloc.carve n r.base (obtained r (u32 n) (Alloc.setup s)) = (p, s') := by
  rcases h.malloc_eq src n with ⟨t, ht, _, hfit, _, heq⟩ | ⟨_, r, hpages, _, heq⟩
  · left
    exact ⟨searchBin n, t, ht, hfit, Option.some.inj (heq.symm.trans hnow)⟩
  · right
    have hcarve := Option.some.inj (heq.symm.trans hnow)
    by_cases hb : r.base = 0
    · rw [if_pos hb] at hcarve
      obtain ⟨_, rfl⟩ := Prod.mk.inj hcarve
      exact absurd hb hg.1
    · rw [if_neg hb] at hcarve
      have hcalls : (Alloc.carve n r.base (obtained r (u32 n) (Alloc.setup s))).2.calls = _ :=
        carve_obtained_calls
      rw [hcarve] at hcalls
      rw [hcalls] at hg
      exact ⟨r, ⟨hpages, hb, hg.2.1, hg.2.2.1⟩, hcarve⟩

/-- In range, the block is one of the laid-out heap or starts a large range. -/
theorem Inv.malloc_granted (h : Inv s L) (hn : n + 48 < 2 ^ 32)
    (hnow : Alloc.malloc src n s = some (p, s')) (hg : Granted s'.calls) :
    (∃ t L', p = t + 48 ∧ Handed n t s s' L L') ∨
      ∃ r, LargeRange (held s.calls) r n ∧
        Alloc.carve n r.base (obtained r n (Alloc.setup s)) = (r.base + 48, s') ∧
        p = r.base + 48 := by
  rcases h.malloc_cases hnow hg with ⟨i, t, ht, hfit, hcarve⟩ | ⟨r, hr, hcarve⟩
  · left
    have hroom := (h.setup.regions.block_lt (h.setup.mem_bin ht).1).1
    have hreal := h.setup.regions.room (h.setup.mem_bin ht).1
    have hle : u64 (n + 48) ≤ sub64 ((Alloc.setup s).get t .realSize) 48 := of_decide_eq_true hfit
    rw [sub64_of_le (by omega) hreal, u64_of_lt (by omega)] at hle
    obtain ⟨s'', L', heq, hh, _⟩ := h.setup.handed_found hn ht hfit
    obtain ⟨rfl, rfl⟩ := Prod.mk.inj (heq.symm.trans hcarve)
    exact ⟨t, L', rfl, hh.after_setup⟩
  · have hu : u32 n = n := u32_of_lt (by omega)
    have hpages := hr.pages
    rw [u32_of_lt hn] at hpages
    have hfits := hr.fits hn
    rw [hu] at hcarve
    by_cases hsmall : r.bytes < 2 ^ 32
    · left
      have hf : Fresh (held (Alloc.setup s).calls) r := by
        rw [setup_calls]
        exact hr.fresh hsmall
      obtain ⟨s'', L', heq, hh, _⟩ := h.setup.handed_fresh setup_initialized (by omega) hf hfits
      obtain ⟨rfl, rfl⟩ := Prod.mk.inj (heq.symm.trans hcarve)
      exact ⟨r.base, L', rfl, hh.after_setup⟩
    · right
      have hmost : r.bytes < n + 4144 := by
        have hp : r.bytes = max 16 ((n + 48 + 4095) / 4096) * 4096 := by
          rw [PageRange.bytes, hpages, pagesFor_eq]
          rfl
        rcases Nat.le_total 16 ((n + 48 + 4095) / 4096) with hm | hm
        · rw [Nat.max_eq_right hm] at hp
          omega
        · rw [Nat.max_eq_left hm] at hp
          omega
      have hl : LargeRange (held s.calls) r n :=
        ⟨hr.nonnull, hr.stop_lt, hr.disjoint, hfits, hmost, by omega, by omega⟩
      have hptr : (Alloc.carve n r.base (obtained r n (Alloc.setup s))).1 = r.base + 48 := by
        rw [hl.apart.carve_eq hl.stop_lt hl.fits]
      rw [hcarve] at hptr
      have hptr : p = r.base + 48 := hptr
      exact ⟨r, hl, by rw [hcarve, hptr], hptr⟩

/-- Out of range, no page range holds the request from the pointer on. -/
theorem Inv.malloc_short (h : Inv s L) (hn : 2 ^ 32 ≤ n + 48)
    (hnow : Alloc.malloc src n s = some (p, s')) (hg : Granted s'.calls) :
    p ≠ 0 ∧ ∀ r ∈ held s'.calls, r.base + 48 ≤ p → r.stop < p + n := by
  rcases h.malloc_cases hnow hg with ⟨i, t, ht, hfit, hcarve⟩ | ⟨r, hr, hcarve⟩
  · -- the test of the search wrapped
    obtain ⟨hlt, hend, _⟩ := h.setup.regions.block_lt (h.setup.mem_bin ht).1
    have hreal := h.setup.regions.room (h.setup.mem_bin ht).1
    have hle : u64 (n + 48) ≤ sub64 ((Alloc.setup s).get t .realSize) 48 := of_decide_eq_true hfit
    rw [sub64_of_le (by omega) hreal] at hle
    have hwrap : 2 ^ 64 ≤ n + 48 := by
      by_contra hlt64
      rw [u64_of_lt (by omega)] at hle
      omega
    have hp : (Alloc.carve n t (takeTag t i (Alloc.setup s))).1 = u64 (t + tagSize) := rfl
    rw [hcarve, u64_of_lt (by simp only [tagSize]; omega), tagSize] at hp
    have hp : p = t + 48 := hp
    have hcalls : (Alloc.carve n t (takeTag t i (Alloc.setup s))).2.calls = s.calls := by
      rw [carve_calls, takeTag_calls, setup_calls]
    rw [hcarve] at hcalls
    have hcalls : s'.calls = s.calls := hcalls
    refine ⟨by omega, fun r hr hlo => ?_⟩
    rw [hcalls] at hr
    have := h.regions.stop_lt r hr
    omega
  · have hbytes : r.bytes = max 16 ((u32 (n + 48) + 4095) / 4096) * 4096 := by
      rw [PageRange.bytes, hr.pages, pagesFor_eq]
      rfl
    have hmost : r.bytes < n + 48 ∧ 65536 ≤ r.bytes := by
      rw [hbytes]
      unfold u32
      omega
    have hstop := hr.stop_lt
    rw [PageRange.stop] at hstop
    have hp : (Alloc.carve n r.base (obtained r (u32 n) (Alloc.setup s))).1 =
        u64 (r.base + tagSize) := rfl
    rw [hcarve, u64_of_lt (by simp only [tagSize]; omega), tagSize] at hp
    have hp : p = r.base + 48 := hp
    have hcalls : (Alloc.carve n r.base (obtained r (u32 n) (Alloc.setup s))).2.calls = _ :=
      carve_obtained_calls
    rw [hcarve] at hcalls
    refine ⟨by omega, fun r' hr' hlo => ?_⟩
    rw [hcalls] at hr'
    rcases List.mem_cons.mp hr' with rfl | hr'
    · show r.base + r.bytes < _
      omega
    · have hd := hr.disjoint r' hr'
      simp only [PageRange.Disjoint, PageRange.stop] at hd ⊢
      omega

/-- In range, the block has the room. -/
theorem Inv.malloc_room (h : Inv s L) (hn : n + 48 < 2 ^ 32)
    (hnow : Alloc.malloc src n s = some (p, s')) (hg : Granted s'.calls) : HasRoom n p s' := by
  rcases h.malloc_granted hn hnow hg with ⟨t, L', rfl, hh⟩ | ⟨r, hl, hcarve, rfl⟩
  · have ht : t ∈ used s' L' := by
      rw [hh.inUse]
      exact Set.mem_insert ..
    exact hh.inv.hasRoom ht.1 hh.room
  · have hmost := hl.most
    have hright := h.setup.large_right (r := r) (n := n) (by rw [setup_calls]; exact hl.disjoint)
      hl.nonnull hl.stop_lt hl.size hl.fits (by omega)
    have hcalls : (Alloc.carve n r.base (obtained r n (Alloc.setup s))).2.calls =
        .alloc r.pages r.base :: (Alloc.setup s).calls := carve_calls
    rw [hcarve] at hright hcalls
    have hcalls : s'.calls = .alloc r.pages r.base :: (Alloc.setup s).calls := hcalls
    refine hasRoom_large ?_ hl.fits hright
    rw [hcalls]
    exact List.mem_cons_self ..

/-- In range, no page range is much larger than the request. -/
theorem Inv.malloc_bytes (h : Inv s L) (hn : n + 48 < 2 ^ 32)
    (hnow : Alloc.malloc src n s = some (p, s')) (hg : Granted s'.calls) :
    p ≠ 0 ∧ ∀ r ∈ held s'.calls, r.bytes < 2 ^ 32 ∨ r.bytes < n + 4144 := by
  rcases h.malloc_granted hn hnow hg with ⟨t, L', rfl, hh⟩ | ⟨r, hl, hcarve, rfl⟩
  · exact ⟨by omega, fun r hr => .inl (hh.inv.regions.small r hr)⟩
  · have hcalls : (Alloc.carve n r.base (obtained r n (Alloc.setup s))).2.calls =
        .alloc r.pages r.base :: (Alloc.setup s).calls := carve_calls
    rw [hcarve] at hcalls
    have hcalls : s'.calls = .alloc r.pages r.base :: (Alloc.setup s).calls := hcalls
    refine ⟨by omega, fun r' hr' => ?_⟩
    rw [hcalls, setup_calls] at hr'
    rcases List.mem_cons.mp hr' with rfl | hr'
    · exact .inr hl.most
    · exact .inl (h.regions.small r' hr')

theorem Inv.malloc_kept_iff (h : Inv s L) (hf : Fair src (.malloc n) s) :
    Kept src (.malloc n) s ↔ InRange src (.malloc n) s := by
  obtain ⟨p, s', hnow⟩ := h.malloc_ends src n
  constructor
  · intro hk
    by_contra hout
    have hbig : 2 ^ 32 ≤ n + 48 := by
      by_contra hlt
      exact hout (.inl (by omega))
    have hg : Granted s'.calls := (hf n p s' rfl hnow).resolve_right fun hr => hout (.inr hr)
    rcases hk with ha | ⟨p', s'', hnow', hroom⟩
    · -- only a refused call leaves the heap as it was
      obtain ⟨_, s₁, hnow₁, hu⟩ := ha
      obtain ⟨pages, hcalls⟩ := hu.calls
      exact hout (.inr ⟨n, 0, s₁, pages, rfl, hnow₁, hcalls⟩)
    · obtain ⟨rfl, rfl⟩ := Prod.mk.inj (Option.some.inj (hnow.symm.trans hnow'))
      obtain ⟨r, hr, hlo, hhi⟩ := hroom.range
      have := (h.malloc_short hbig hnow hg).2 r hr hlo
      omega
  · intro hin
    have hatomic : Refused src (.malloc n) s → Kept src (.malloc n) s := by
      intro hr
      obtain ⟨pages, hreq, hthrough⟩ := h.request_refused hr trivial
      exact .inl ⟨hthrough, _, hreq, h.untouched⟩
    rcases hin with hlt | hr
    · rcases hf n p s' rfl hnow with hg | hr
      · exact .inr ⟨p, s', hnow, h.malloc_room hlt hnow hg⟩
      · exact hatomic hr
    · exact hatomic hr

/-! ### `calloc` -/

/-- Writes from the pointer on leave the room. -/
theorem HasRoom.congr (h : HasRoom n p s) (hcalls : s'.calls = s.calls)
    (hm : ∀ b < p, s'.mem b = s.mem b) : HasRoom n p s' := by
  obtain ⟨t, r, hr, rfl, hlo, hn, hhi⟩ := h
  have hget : s'.get t .splitRight = s.get t .splitRight :=
    get_congr fun b _ hb => hm b hb
  have hend : blockEnd s' r t = blockEnd s r t := by
    rw [blockEnd, blockEnd, hget]
  refine ⟨t, r, ?_, rfl, hlo, ?_, ?_⟩
  · rw [hcalls]
    exact hr
  · rw [hend]
    exact hn
  · rw [hend]
    exact hhi

/-- What `calloc` makes of the product. -/
theorem through_calloc (h : k * n % 2 ^ 32 < 2 ^ 31) :
    through (.calloc k n) s = k * n % 2 ^ 32 := by
  have hint : s32 (u64 (k * n)) = (k * n % 2 ^ 32 : Nat) := by
    have hmod : u64 (k * n) % 2 ^ 32 = k * n % 2 ^ 32 := by
      unfold u64
      omega
    unfold s32 u32
    rw [hmod]
    split <;> omega
  rw [through, hint, ofInt64_of_nonneg (by omega) (by omega), Int.toNat_natCast]

theorem through_calloc_large (h : 2 ^ 31 ≤ k * n % 2 ^ 32) :
    2 ^ 31 ≤ through (.calloc k n) s := by
  have hmod : u64 (k * n) % 2 ^ 32 = k * n % 2 ^ 32 := by
    unfold u64
    omega
  rw [through]
  unfold ofInt64 s32 u32
  rw [hmod]
  split <;> omega

/-- The bytes from the pointer on are cleared. -/
theorem calloc_some {m : Nat} (hm : through (.calloc k n) s = m) (hlt : m < 2 ^ 31)
    (hnow : malloc src m s = some (p, s')) :
    calloc src k n s = some (p, {s' with mem := s'.mem.fill p 0 m}) := by
  have hzero : UInt8.ofNat (ofInt32 0) = 0 := by decide
  rw [calloc_eq, hm, hnow, Option.bind_some, liballocMemset, if_pos hlt, hzero]
  rfl

/-- What is cleared is the room asked for. -/
theorem HasRoom.cleared (h : HasRoom n p s) :
    HasRoom n p {s with mem := s.mem.fill p 0 n} ∧ ∀ i < n, s.mem.fill p 0 n (p + i) = 0 := by
  refine ⟨h.congr rfl fun b hb => ?_, fun i hi => ?_⟩
  · show s.mem.fill p 0 n b = _
    rw [Memory.fill_apply, if_neg (by omega)]
  · rw [Memory.fill_apply, if_pos (by omega)]

/-- The counter of `liballoc_memset` overflows. -/
theorem Inv.calloc_none (h : Inv s L) (hlarge : 2 ^ 31 ≤ k * n % 2 ^ 32) : calloc src k n s = none := by
  obtain ⟨p, s', hnow⟩ := h.malloc_ends src (through (.calloc k n) s)
  rw [calloc_eq, hnow, Option.bind_some, liballocMemset,
    if_neg (Nat.not_lt.mpr (through_calloc_large hlarge))]
  rfl

theorem Inv.calloc_kept_iff (h : Inv s L) (hf : Fair src (.calloc k n) s) :
    Kept src (.calloc k n) s ↔ InRange src (.calloc k n) s := by
  by_cases hmod : k * n % 2 ^ 32 < 2 ^ 31
  · obtain ⟨m, hm⟩ : ∃ m, m = k * n % 2 ^ 32 := ⟨_, rfl⟩
    rw [← hm] at hmod
    have hthrough : through (.calloc k n) s = m := by
      rw [hm] at hmod ⊢
      exact through_calloc hmod
    have hpass : passes (.calloc k n) = some m := congrArg some hthrough
    obtain ⟨p, s', hnow⟩ := h.malloc_ends src m
    have heq := calloc_some hthrough hmod hnow
    constructor
    · intro hk
      obtain ⟨p', s'', hnow', hor⟩ := hk
      obtain ⟨rfl, rfl⟩ := Prod.mk.inj (Option.some.inj (heq.symm.trans hnow'))
      rcases hf m p s' hpass hnow with hg | hr
      · left
        obtain ⟨hp, hbytes⟩ := h.malloc_bytes (by omega) hnow hg
        obtain ⟨r, hr, hlo, hhi⟩ := (hor.resolve_left hp).1.range
        have := hbytes r hr
        rw [PageRange.stop] at hhi
        omega
      · exact .inr ⟨by omega, hr⟩
    · intro hin
      refine ⟨_, _, heq, ?_⟩
      by_cases hr : Refused src (.calloc k n) s
      · left
        obtain ⟨m', p', s'', pages, hpass', hnow', hcalls⟩ := hr
        obtain rfl : m = m' := Option.some.inj (hpass.symm.trans hpass')
        obtain ⟨rfl, rfl⟩ := Prod.mk.inj (Option.some.inj (hnow.symm.trans hnow'))
        exact (h.malloc_refused hnow hcalls).1
      · right
        have hlt : k * n < 2 ^ 31 := hin.resolve_right fun hc => hr hc.2
        obtain rfl : k * n = m := by omega
        have hg := (hf _ p s' hpass hnow).resolve_right hr
        exact (h.malloc_room (by omega) hnow hg).cleared
  · have hnone : calloc src k n s = none := h.calloc_none (by omega)
    constructor
    · intro hk
      obtain ⟨p, s', hnow, _⟩ := hk
      rw [hnone] at hnow
      cases hnow
    · intro hin
      rcases hin with hlt | hlt
      · omega
      · omega

/-! ### `realloc` -/

theorem meltLeftLoop_calls (h : meltLeftLoop t s = some (u, s')) : s'.calls = s.calls := by
  refine Heap.meltLeftLoop.partial_correctness (fun _ s r => r.2.calls = s.calls) ?_ t s (u, s') h
  intro loop ih t s r hr
  by_cases hcond : s.get t .splitLeft ≠ 0 ∧ 0 ≤ s.index (s.get t .splitLeft)
  · rw [if_pos hcond] at hr
    have hcalls := ih _ _ r hr
    rw [removeTag_calls, takeOver_calls] at hcalls
    exact hcalls
  · rw [if_neg hcond] at hr
    rw [← Option.some.inj hr]

theorem meltRightLoop_calls (h : meltRightLoop t s = some (u, s')) : s'.calls = s.calls := by
  refine Heap.meltRightLoop.partial_correctness (fun _ s r => r.2.calls = s.calls) ?_ t s (u, s') h
  intro loop ih t s r hr
  by_cases hcond : s.get t .splitRight ≠ 0 ∧ 0 ≤ s.index (s.get t .splitRight)
  · rw [if_pos hcond] at hr
    have hcalls := ih _ _ r hr
    rw [takeOver_calls, removeTag_calls] at hcalls
    exact hcalls
  · rw [if_neg hcond] at hr
    rw [← Option.some.inj hr]

theorem held_release : held (release t s).calls ⊆ held s.calls := by
  rw [release_eq]
  by_cases hw : whole s t = true
  · rw [if_pos hw]
    by_cases hmax : s.completePages (binIndex (s.get t .realSize)).toNat = MAXCOMPLETE
    · rw [if_pos hmax]
      exact List.filter_subset_self ..
    · rw [if_neg hmax, insertTag_calls]
      exact List.Subset.refl _
  · rw [if_neg hw, insertTag_calls]
    exact List.Subset.refl _

/-- Whatever the heap holds, `free` obtains no page range. -/
theorem held_free (h : free p s = some s') : held s'.calls ⊆ held s.calls := by
  rw [free] at h
  by_cases hp : p = 0
  · rw [if_pos hp] at h
    rw [Option.some.inj h]
    exact List.Subset.refl _
  rw [if_neg hp] at h
  by_cases hmagic : s.get (sub64 p tagSize) .magic ≠ LIBALLOC_MAGIC
  · rw [if_pos hmagic] at h
    rw [Option.some.inj h]
    exact List.Subset.refl _
  · rw [if_neg hmagic] at h
    obtain ⟨⟨t₁, s₁⟩, h₁, h⟩ := Option.bind_eq_some_iff.mp h
    obtain ⟨⟨t₂, s₂⟩, h₂, h⟩ := Option.bind_eq_some_iff.mp h
    rw [← Option.some.inj h]
    refine List.Subset.trans held_release ?_
    rw [meltRightLoop_calls h₂, meltLeftLoop_calls h₁]
    exact List.Subset.refl _

/-- A block handed out is of a size the allocator can serve. -/
theorem Handed.sized (h : Handed n t s s' L L') : Sized n := by
  have ht : t ∈ used s' L' := by
    rw [h.inUse]
    exact Set.mem_insert ..
  obtain ⟨r, hr, htr⟩ := ht.1
  obtain ⟨hlo, _, hhi⟩ := h.inv.regions.within hr htr
  have hroom := h.room
  have hsmall := h.inv.regions.small r hr
  have hbytes : r.bytes = r.pages * 4096 := rfl
  rw [PageRange.stop] at hhi
  rw [sized_iff]
  omega

/-- No range of the heap beside reaches into the header of the large one. -/
theorem LargeRange.header_free {rs : List PageRange} {r' r₃ : PageRange} (hl : LargeRange rs r n)
    (hlo : r.base + 48 ≤ r'.base) (hr₃ : r₃ ∈ r' :: rs) :
    r₃.stop ≤ r.base ∨ r.base + 48 ≤ r₃.base := by
  have hfits := hl.fits
  rcases List.mem_cons.mp hr₃ with rfl | hr₃
  · exact .inr hlo
  · have hd := hl.disjoint r₃ hr₃
    simp only [PageRange.Disjoint, PageRange.stop] at hd ⊢
    omega

/-- A range of that heap that has a byte outside the large one is outside it. -/
theorem LargeRange.away {rs : List PageRange} {r' r₃ : PageRange} (hl : LargeRange rs r n)
    (hlo : r.base ≤ r'.base) (hstop : r'.stop = r.stop) (hr₃ : r₃ ∈ r' :: rs)
    (hin : r₃.base ≤ u ∧ u < r₃.stop) (hout : u < r.base ∨ r.stop ≤ u) :
    Away {b | r.base + 48 ≤ b ∧ b < r.stop} r₃ := by
  rcases List.mem_cons.mp hr₃ with rfl | hr₃
  · omega
  · have hd := hl.disjoint r₃ hr₃
    intro x hx hx' hmem
    have hmem : r.base + 48 ≤ x ∧ x < r.stop := hmem
    simp only [PageRange.Disjoint] at hd
    omega

/-- What is copied into the block stays beside. -/
theorem Beside.copy {s₀ s₁ : Heap} (hb : Beside {b | p ≤ b ∧ b < k} s₀ s₁) (hm : m ≤ n)
    (hk : p + n ≤ k) (hdis : p + m ≤ q ∨ q + m ≤ p) :
    Beside {b | p ≤ b ∧ b < k} s₀ {s₁ with mem := liballocMemcpy s₁.mem p q m} := by
  refine ⟨fun x hx => ?_, hb.freePages, hb.completePages⟩
  have hx' : ¬ (p ≤ x ∧ x < k) := hx
  show liballocMemcpy s₁.mem p q m x = _
  rw [liballocMemcpy_apply _ _ _ _ _ hdis, if_neg (by omega)]
  exact hb.mem x hx

/-- A range that only the heap beside has is not given back. -/
theorem Freed.held_beside {s₂ s₂' : Heap} {new : List PageCall} (h : Freed u s s' L L')
    (hnew : s'.calls = new ++ s.calls) (hnew₂ : s₂'.calls = new ++ s₂.calls) (hr : r ∈ held s₂.calls)
    (hne : ∀ r₃ ∈ held s.calls, r.base ≠ r₃.base) : r ∈ held s₂'.calls := by
  rw [hnew₂]
  rcases h.calls with hsame | ⟨r₃, hr₃, hlog⟩
  · have hnil : new = [] := List.self_eq_append_left.mp (hsame.symm.trans hnew)
    rwa [hnil]
  · have hone : new = [.free r₃.base r₃.pages] := by
      rw [hlog] at hnew
      have hnew : [_] ++ s.calls = new ++ s.calls := hnew
      exact (List.append_cancel_right hnew).symm
    rw [hone]
    exact List.mem_filter.mpr ⟨hr, by simpa using hne r₃ hr₃⟩

/-- `realloc` to a large range: the old block is freed beside it. -/
theorem Sound.realloc_large {b : Block} {s₁ : Heap} (h : Sound σ L) (hb : b ∈ σ.live)
    (hint : b.size < 2 ^ 31 ∨ n < 2 ^ 31) (hl : LargeRange (held σ.heap.calls) r n)
    (hcarve : carve n r.base (obtained r n (Alloc.setup σ.heap)) = (r.base + 48, s₁))
    (hnow : malloc src n σ.heap = some (r.base + 48, s₁)) :
    ∃ s', realloc src b.ptr n σ.heap = some (r.base + 48, s') ∧ HasRoom n (r.base + 48) s' := by
  have hinv := h.inv.setup
  have hl' : LargeRange (held (Alloc.setup σ.heap).calls) r n := by
    rw [setup_calls]
    exact hl
  have hlarge := hl.large
  have hmost := hl.most
  have hfits := hl.fits
  have hstop_eq : r.stop = r.base + r.bytes := rfl
  obtain ⟨s₀, L₀, r', h₀, hused, hcalls₀, hlo, hstop, hb₀⟩ := hinv.large setup_initialized hl'
  have hright := hinv.large_right hl'.disjoint hl.nonnull hl.stop_lt hl.size hl.fits (by omega)
  have hcalls₁ : (carve n r.base (obtained r n (Alloc.setup σ.heap))).2.calls =
      .alloc r.pages r.base :: σ.heap.calls := carve_obtained_calls
  rw [hcarve] at hb₀ hright hcalls₁
  rw [setup_calls] at hcalls₀
  have hheld₀ : ∀ r₃ ∈ held s₀.calls, r₃ ∈ r' :: held σ.heap.calls := by
    intro r₃ hr₃
    rwa [hcalls₀] at hr₃
  -- the old block lies in another range
  obtain ⟨u, hu, hptr, hsize, hroom⟩ := h.header b hb
  obtain ⟨hult, huend, _⟩ := h.inv.regions.block_lt hu.1
  obtain ⟨r₁, hr₁, hur₁⟩ := hu.1
  have hwithin := h.inv.regions.within hr₁ hur₁
  have hapart := hl.disjoint r₁ hr₁
  simp only [PageRange.Disjoint] at hapart
  have hu₀ : u ∈ used s₀ L₀ := hused (used_setup.symm.subset hu)
  obtain ⟨r₂, hr₂, hur₂⟩ := hu₀.1
  have hwithin₂ := h₀.regions.within hr₂ hur₂
  have haway : Away {b | r.base + 48 ≤ b ∧ b < r.stop} r₂ := by
    refine hl.away (u := u) (by omega) hstop (hheld₀ r₂ hr₂) (by omega) ?_
    omega
  -- the copy stays in the new block
  have hn : n ≠ 0 := by omega
  have hp : b.ptr ≠ 0 := by omega
  have hcopied := h.through_realloc hb hn hint
  have hbeside := hb₀.copy (q := b.ptr) (Nat.min_le_right b.size n) (by omega) (by omega)
  obtain ⟨s', s₂, L', _, hfree, hb₂, hfreed, hclear, new, hnew, hnew₂⟩ :=
    h₀.free_beside hu₀ hr₂ hur₂ haway hbeside
  refine ⟨s₂, ?_, hasRoom_large ?_ hl.fits ?_⟩
  · rw [realloc_eq hn hp, hnow, hcopied, Option.bind_some]
    rw [← hptr] at hfree
    rw [hfree]
    rfl
  · -- the range given back, if one is, is another
    have hheld₁ : r ∈ held s₁.calls := by
      rw [hcalls₁]
      exact List.mem_cons_self ..
    refine hfreed.held_beside hnew hnew₂ hheld₁ fun r₃ hr₃ => ?_
    have hpages := h₀.regions.pages r₃ hr₃
    have hfree₃ := hl.header_free hlo (hheld₀ r₃ hr₃)
    simp only [PageRange.stop, PageRange.bytes, pageSize, pageCount] at hfree₃ hpages
    omega
  · -- the header of the block is as it was
    have hoff : Off {b | r.base + 48 ≤ b ∧ b < r.stop} r.base := by
      intro x _ hx hin
      have hin : r.base + 48 ≤ x ∧ x < r.stop := hin
      omega
    have hkept : s'.get r.base .splitRight = s₀.get r.base .splitRight := by
      refine get_congr fun x hx hx' => hclear x fun t ht => ?_
      obtain ⟨r₃, hr₃, htr₃⟩ := ht
      have hw := h₀.regions.within hr₃ htr₃
      have hfree₃ := hl.header_free hlo (hheld₀ r₃ hr₃)
      omega
    rw [hb₂.get hoff, hkept, ← hb₀.get hoff]
    exact hright

/-- `realloc` returns what `malloc` gave it and obtains no other range. -/
theorem realloc_some {s₁ : Heap} (hn : n ≠ 0) (hp : p ≠ 0) (hnow : malloc src n s = some (q, s₁))
    (hre : realloc src p n s = some (u, s')) : u = q ∧ held s'.calls ⊆ held s₁.calls := by
  rw [realloc_eq hn hp, hnow, Option.bind_some] at hre
  obtain ⟨s₂, hfree, hs₂⟩ := Option.bind_eq_some_iff.mp hre
  obtain ⟨rfl, rfl⟩ := Prod.mk.inj (Option.some.inj hs₂)
  have hheld := held_free hfree
  exact ⟨rfl, hheld⟩

/-- In range, the block has the room. -/
theorem Sound.realloc_room {b : Block} (h : Sound σ L) (hb : b ∈ σ.live) (hn : n ≠ 0)
    (hlt : n + 48 < 2 ^ 32) (hint : b.size < 2 ^ 31 ∨ n < 2 ^ 31)
    (hnow : malloc src n σ.heap = some (q, s)) (hg : Granted s.calls) :
    ∃ q s', realloc src b.ptr n σ.heap = some (q, s') ∧ HasRoom n q s' := by
  rcases h.inv.malloc_granted hlt hnow hg with ⟨t, L', rfl, hh⟩ | ⟨r, hl, hcarve, rfl⟩
  · have hserved : ∀ p s, malloc src n σ.heap = some (p, s) → Granted s.calls := by
      intro p s hnow'
      obtain ⟨_, rfl⟩ := Prod.mk.inj (Option.some.inj (hnow.symm.trans hnow'))
      exact hg
    obtain ⟨q, s', L'', _, hre, hsound, _⟩ := h.call_realloc hh.sized (by omega) hb hint hserved
    obtain ⟨u, hu, hptr, _, hroom⟩ := hsound.header _ (List.mem_cons_self ..)
    have hptr : q = u + 48 := hptr
    refine ⟨q, s', hre, ?_⟩
    rw [hptr]
    exact hsound.inv.hasRoom hu.1 hroom
  · obtain ⟨s', hre, hroom⟩ := h.realloc_large hb hint hl hcarve hnow
    exact ⟨_, s', hre, hroom⟩

/-- Refused, `realloc` has no block to return. -/
theorem Inv.realloc_none (h : Inv s L) (hn : n ≠ 0) (hp : p ≠ 0) (hr : Refused src (.realloc p n) s) :
    ¬ ∃ q s', realloc src p n s = some (q, s') ∧ HasRoom n q s' := by
  intro ⟨q, s', hre, hroom⟩
  have hpass : passes (.realloc p n) = some n := if_neg hn
  obtain ⟨n', q₁, s₂, pages, hpass', hnow, hcalls⟩ := hr
  obtain rfl : n = n' := Option.some.inj (hpass.symm.trans hpass')
  obtain ⟨rfl, _⟩ := h.malloc_refused hnow hcalls
  obtain ⟨_, _, _, heq, _⟩ := hroom
  have := (realloc_some hn hp hnow hre).1
  omega

/-- Out of range, the block is short. -/
theorem Inv.realloc_short (h : Inv s L) (hn : n ≠ 0) (hp : p ≠ 0) (hlarge : 2 ^ 32 ≤ n + 48)
    {s₁ : Heap} (hnow : Alloc.malloc src n s = some (q, s₁)) (hg : Granted s₁.calls) :
    ¬ ∃ q s', realloc src p n s = some (q, s') ∧ HasRoom n q s' := by
  intro ⟨q', s', hre, hroom⟩
  obtain ⟨_, hshort⟩ := h.malloc_short hlarge hnow hg
  obtain ⟨rfl, hheld⟩ := realloc_some hn hp hnow hre
  obtain ⟨r, hmem, hlo, hhi⟩ := hroom.range
  have := hshort r (hheld hmem) hlo
  omega

/-- A block granted, so the heap is not as it was. -/
theorem realloc_changes (hn : n ≠ 0) (hp : p ≠ 0) {s₁ : Heap}
    (hnow : malloc src n s = some (q, s₁)) (hq : q ≠ 0) : ¬ Atomic src (.realloc p n) s := by
  intro ⟨_, s', hre, _⟩
  exact hq (realloc_some hn hp hnow hre).1.symm

theorem Sound.realloc_kept_iff (h : Sound σ L) (hlive : Live σ p)
    (hf : Fair src (.realloc p n) σ.heap) :
    Kept src (.realloc p n) σ.heap ↔ InRange src (.realloc p n) σ.heap := by
  by_cases hn : n = 0
  · refine iff_of_true ?_ (.inl hn)
    obtain ⟨s', _, hfree, _⟩ := h.call_free (.inr hlive)
    refine (if_pos hn).mpr ⟨s', ?_, hfree⟩
    rw [realloc, if_pos hn, hfree]
    rfl
  have hkept : Kept src (.realloc p n) σ.heap ↔ Atomic src (.realloc p n) σ.heap ∨
      through (.realloc p n) σ.heap ≤ n ∧
        ∃ q s', realloc src p n σ.heap = some (q, s') ∧ HasRoom n q s' := iff_of_eq (if_neg hn)
  have hin : InRange src (.realloc p n) σ.heap ↔ n + 48 < 2 ^ 32 ∧
      (σ.heap.get (sub64 p tagSize) .size < 2 ^ 31 ∨ n < 2 ^ 31) ∧
        ¬ Refused src (.realloc p n) σ.heap := or_iff_right hn
  rw [hkept, hin]
  have hpass : passes (.realloc p n) = some n := if_neg hn
  have hp : p ≠ 0 := by
    obtain ⟨t, _, rfl⟩ := h.tag_of_live hlive
    omega
  obtain ⟨b, hb, rfl⟩ := hlive
  obtain ⟨q, s₁, hnow⟩ := h.inv.malloc_ends src n
  rw [h.size_of_live hb]
  by_cases hr : Refused src (.realloc b.ptr n) σ.heap
  · refine iff_of_false (fun hor => ?_) fun hc => hc.2.2 hr
    exact hor.elim (h.realloc_refused ⟨b, hb, rfl⟩ hr) fun hk => h.inv.realloc_none hn hp hr hk.2
  have hg : Granted s₁.calls := (hf n q s₁ hpass hnow).resolve_right hr
  by_cases hlt : n + 48 < 2 ^ 32
  · by_cases hint : b.size < 2 ^ 31 ∨ n < 2 ^ 31
    · refine iff_of_true (.inr ⟨?_, h.realloc_room hb hn hlt hint hnow hg⟩) ⟨hlt, hint, hr⟩
      rw [h.through_realloc hb hn hint]
      exact Nat.min_le_right ..
    · -- more is copied than the block has
      have hover := h.through_large hb (by omega) (by omega) (show n < 2 ^ 32 by omega)
      refine iff_of_false (fun hor => ?_) fun hc => hint hc.2.1
      rcases hor with ⟨hzero, _⟩ | ⟨hle, _⟩
      · omega
      · omega
  · refine iff_of_false (fun hor => ?_) fun hc => hlt hc.1
    obtain ⟨hq, _⟩ := h.inv.malloc_short (by omega) hnow hg
    exact hor.elim (realloc_changes hn hp hnow hq)
      fun hk => h.inv.realloc_short hn hp (by omega) hnow hg hk.2

/-- The block has the room asked for, and no more is copied into it, exactly when the arithmetic
has. -/
theorem sizes_kept_iff (h : Past σ) (hlive : ∀ p n, op = .realloc p n → Live σ p)
    (hf : Fair src op σ.heap) : Kept src op σ.heap ↔ InRange src op σ.heap := by
  obtain ⟨L, hL⟩ := h.sound
  cases op with
  | malloc n => exact hL.inv.malloc_kept_iff hf
  | calloc k n => exact hL.inv.calloc_kept_iff hf
  | realloc p n => exact hL.realloc_kept_iff (hlive p n rfl) hf
  | free p => exact Iff.rfl
  | write a v => exact Iff.rfl

/-- The second range is a range of its own. -/
theorem fair_once : Fair apart16 (.realloc 0x1000030 200) once.heap ∧
    ¬ Refused apart16 (.realloc 0x1000030 200) once.heap := by
  have hbin : searchBin 200 = 8 := by decide
  have hs : search (setup once.heap) 200 ((setup once.heap).freePages (searchBin 200)) = some 0 :=
    search_once (by rw [hbin]; exact once_bins.1)
  obtain ⟨r, hr⟩ : ∃ r : PageRange, r = ⟨0x2000000, 16⟩ := ⟨_, rfl⟩
  have hrange : r = ⟨apart16 once.heap.calls (pagesFor (u32 (u32 200 + tagSize))),
      pagesFor (u32 (u32 200 + tagSize))⟩ := by
    rw [once_calls, hr]
    decide
  have hbase : r.base ≠ 0 := by
    rw [hr]
    decide
  have hnow := malloc_none hs hrange
  rw [if_neg hbase] at hnow
  have hlog : (carve 200 r.base (obtained r (u32 200) (setup once.heap))).2.calls =
      [.alloc 16 0x2000000, .alloc 16 0x1000000] := by
    rw [carve_obtained_calls, once_calls, hr]
  have hpass : passes (.realloc 0x1000030 200) = some 200 := rfl
  have hresult : ∀ n p s', passes (.realloc 0x1000030 200) = some n →
      malloc apart16 n once.heap = some (p, s') →
      s'.calls = [.alloc 16 0x2000000, .alloc 16 0x1000000] := by
    intro n p s' hn hm
    obtain rfl : 200 = n := Option.some.inj (hpass.symm.trans hn)
    rw [Option.some.inj (hnow.symm.trans hm)] at hlog
    exact hlog
  refine ⟨fun n p s' hn hm => .inl ?_, fun ⟨n, p, s', pages, hn, hm, hc⟩ => ?_⟩
  · rw [hresult n p s' hn hm]
    refine ⟨by decide, by decide, fun r hr => ?_, by decide, by decide, nofun, trivial⟩
    rw [List.mem_singleton.mp hr]
    exact .inr (by decide)
  · rw [hresult n p s' hn hm] at hc
    have hentry : (PageCall.alloc 16 0x2000000) = .alloc pages 0 := (List.cons.inj hc).1
    exact absurd (PageCall.alloc.inj hentry).2 (by decide)

theorem sizes_once : Kept apart16 (.realloc 0x1000030 200) once.heap := by
  have hlive : ∀ p n, Op.realloc 0x1000030 200 = .realloc p n → Live once p := by
    intro p n h
    rw [← (Op.realloc.inj h).1]
    exact once_live
  exact (sizes_kept_iff past_once hlive fair_once.1).mpr
    (.inr ⟨by decide, .inr (by decide), fair_once.2⟩)

/-- `malloc` of `2^32` bytes from boot returns a block of 16 pages. -/
theorem short_block : Past (boot fun _ => 0) ∧ Fair apart16 (.malloc 0x100000000) (boot fun _ => 0).heap ∧
    ¬ Kept apart16 (.malloc 0x100000000) (boot fun _ => 0).heap ∧
    ∃ s', malloc apart16 0x100000000 (boot fun _ => 0).heap = some (0x1000030, s') ∧
      held s'.calls = [⟨0x1000000, 16⟩] := by
  obtain ⟨s, hs⟩ : ∃ s, s = (boot fun _ => 0).heap := ⟨_, rfl⟩
  have hcalls : s.calls = [] := by
    rw [hs]
    rfl
  have hempty : search (setup s) 0x100000000 ((setup s).freePages (searchBin 0x100000000)) = some 0 := by
    rw [hs]
    exact search_boot ..
  have hrange : first16 = ⟨apart16 s.calls (pagesFor (u32 (u32 0x100000000 + tagSize))),
      pagesFor (u32 (u32 0x100000000 + tagSize))⟩ := by
    rw [hcalls]
    decide
  have hnow := malloc_none hempty hrange
  rw [if_neg (by decide)] at hnow
  obtain ⟨s', hs'⟩ : ∃ s', s' = (carve 0x100000000 first16.base
    (obtained first16 (u32 0x100000000) (setup s))).2 := exists_eq
  have hptr : (carve 0x100000000 first16.base (obtained first16 (u32 0x100000000) (setup s))).1 =
      0x1000030 := by
    show u64 (first16.base + tagSize) = 0x1000030
    decide
  have hnow : malloc apart16 0x100000000 s = some (0x1000030, s') := by
    rw [hnow, hs', ← hptr]
  have hlog : s'.calls = [.alloc 16 0x1000000] := by
    rw [hs', carve_obtained_calls, hcalls]
    rfl
  have hg : Granted s'.calls := by
    rw [hlog]
    exact ⟨by decide, by decide, nofun, trivial⟩
  have hf : Fair apart16 (.malloc 0x100000000) s := by
    intro n p s'' hn hm
    obtain rfl : 0x100000000 = n := Option.some.inj hn
    obtain ⟨_, rfl⟩ := Prod.mk.inj (Option.some.inj (hnow.symm.trans hm))
    exact .inl hg
  have h : Inv s ⟨fun _ => [], fun _ => []⟩ := by
    rw [hs]
    exact (Sound.boot _).inv
  rw [← hs]
  refine ⟨.boot _, hf, fun hk => ?_, s', hnow, by rw [hlog]; rfl⟩
  rcases (h.malloc_kept_iff hf).mp hk with hlt | ⟨n, p, s'', pages, hn, hm, hc⟩
  · omega
  · obtain rfl : 0x100000000 = n := Option.some.inj hn
    obtain ⟨_, rfl⟩ := Prod.mk.inj (Option.some.inj (hnow.symm.trans hm))
    rw [hlog] at hc
    have hentry : (PageCall.alloc 16 0x1000000) = .alloc pages 0 := (List.cons.inj hc).1
    exact absurd (PageCall.alloc.inj hentry).2 (by decide)

end Kvi.Alloc
