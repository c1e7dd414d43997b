import Kvi.Alloc.Bins
import Kvi.Alloc.Regions

/-! The invariant of the heap.

A `Layout` names what the heap's pointers stand for: the chain of tags of every
page range and the list of every bin. `Inv s L` says that the heap is laid out
that way, that every queued tag is in the bin of its size, that the counters
count the queued tags without neighbours, and that no two neighbours are both
queued.

A tag with a negative index is in use: handed to a client, or out of the bins
while `malloc` or `free` works on it. The steps below are what those two are
made of: a tag leaves its bin (`Inv.take`), a tag in use is cut (`Inv.cut`) or
merged with a queued neighbour (`Inv.merge`), enters a bin (`Inv.queue`), and a
range comes (`Inv.obtain`) or goes (`Inv.giveBack`). -/
namespace Kvi.Alloc

/-! ### Exponents -/

theorem getexpLoop_eq (size : Nat) (h0 : size ≠ 0) {n shift : Nat} (h : shift ≤ size.log2 + 1) :
    getexpLoop size n shift = min (size.log2 + 1) (shift + n) := by
  induction n generalizing shift with
  | zero => rw [getexpLoop, Nat.min_eq_right (by omega), Nat.add_zero]
  | succ n ih =>
    rw [getexpLoop]
    split
    · have := (Nat.log2_lt h0).mpr ‹_›
      omega
    · have := (Nat.le_log2 h0).mpr (Nat.le_of_not_lt ‹_›)
      rw [ih (by omega)]
      omega

/-- From the quantum on the exponent is the one the source promises: `2^n <= size < 2^(n+1)`. -/
theorem getexp_eq {size : Nat} (h : 2 ^ 8 ≤ size) (hlt : size < 2 ^ 32) : getexp size = size.log2 := by
  have h0 : size ≠ 0 := by omega
  have hlo := (Nat.le_log2 h0).mpr h
  have hhi := (Nat.log2_lt h0).mpr hlt
  rw [getexp, if_neg (by simp only [MINEXP]; omega), getexpLoop_eq size h0 (by simp only [MINEXP]; omega)]
  simp only [MINEXP, MAXEXP]
  omega

/-- The bin of a block. -/
theorem binIndex_eq {n : Nat} (h : 48 ≤ n) (hlt : n < 2 ^ 32) :
    binIndex n = (max 8 (n - 48).log2 : Nat) := by
  have hsub : u32 (sub64 n tagSize) = n - 48 := by
    rw [tagSize, sub64_of_le (by omega) h]
    exact u32_of_lt (by omega)
  rw [binIndex, hsub, atLeastMin]
  by_cases hq : n - 48 < 2 ^ 8
  · have hlog : (n - 48).log2 ≤ 8 := by
      by_cases h0 : n - 48 = 0
      · rw [h0]
        decide
      · exact Nat.le_of_lt ((Nat.log2_lt h0).mpr hq)
    have hneg : getexp (n - 48) = -1 := by rw [getexp, if_pos (by simp only [MINEXP]; omega)]
    rw [hneg, if_pos (by decide), Nat.max_eq_left hlog]
    rfl
  · have hlog := (Nat.le_log2 (by omega)).mpr (Nat.le_of_not_lt hq)
    rw [getexp_eq (by omega) (by omega), Nat.max_eq_right hlog, if_neg (by simp only [MINEXP]; omega)]

theorem binIndex_bounds {n : Nat} (h : 48 ≤ n) (hlt : n < 2 ^ 32) :
    8 ≤ binIndex n ∧ binIndex n < 32 := by
  rw [binIndex_eq h hlt]
  have hlog : (n - 48).log2 < 32 := by
    by_cases h0 : n - 48 = 0
    · rw [h0]
      decide
    · exact (Nat.log2_lt h0).mpr (by omega)
  omega

/-! ### The invariant -/

/-- What the pointers of a heap stand for. -/
structure Layout where
  /-- The tags of the page range that starts at an address. -/
  chain : Nat → List Nat
  /-- The tags of a bin. -/
  bins : Nat → List Nat

/-- The tags of the ranges held. -/
def tags (s : Heap) (L : Layout) : Set Nat := tagsOf (held s.calls) L.chain

/-- The tags in no bin. -/
def used (s : Heap) (L : Layout) : Set Nat := {t | t ∈ tags s L ∧ s.index t < 0}

theorem mem_used {s : Heap} {L : Layout} {t : Nat} :
    t ∈ used s L ↔ t ∈ tags s L ∧ s.index t < 0 := Iff.rfl

/-- A block without neighbours: a whole page range. -/
def whole (s : Heap) (t : Nat) : Bool :=
  decide (s.get t .splitLeft = 0 ∧ s.get t .splitRight = 0)

structure Inv (s : Heap) (L : Layout) : Prop where
  regions : Regions s (held s.calls) L.chain
  bins : Bins s (tags s L) L.bins
  sorted : ∀ t ∈ tags s L, 0 ≤ s.index t → s.index t = binIndex (s.get t .realSize)
  counts : ∀ i, s.completePages i = (L.bins i).countP (whole s)
  bounded : ∀ i, s.completePages i ≤ MAXCOMPLETE
  coalesced : ∀ t ∈ tags s L, s.get t .splitRight ≠ 0 → 0 ≤ s.index t →
    s.index (s.get t .splitRight) < 0
  unset : s.initialized = false → s.calls = []

variable {s s' s'' : Heap} {L L' L'' : Layout} {r : PageRange} {t u x a b c l n i : Nat}
  {xs ys : List Nat} {U : Set Nat}

namespace Inv

theorem separate (h : Inv s L) : Separate (tags s L) := h.regions.separate

/-- A tag of a bin is a tag of a range, with the bin's index. -/
theorem mem_bin (h : Inv s L) (ht : t ∈ L.bins i) : t ∈ tags s L ∧ s.index t = i :=
  (h.bins.mem i t).mp ht

/-- Before the first call of `malloc` there are no tags. -/
theorem initialized_of_mem (h : Inv s L) (ht : t ∈ tags s L) : s.initialized = true := by
  by_contra hinit
  rw [tags, h.unset (by simpa using hinit)] at ht
  obtain ⟨r, hr, _⟩ := ht
  cases hr

/-- What the invariant reads of a heap. -/
theorem congr (h : Inv s L) (hcalls : s'.calls = s.calls) (hinit : s'.initialized = s.initialized)
    (hfree : s'.freePages = s.freePages) (hcount : s'.completePages = s.completePages)
    (hget : ∀ t ∈ tags s L, ∀ f, f ≠ .size → s'.get t f = s.get t f) : Inv s' L := by
  have htags : tags s' L = tags s L := by simp only [tags, hcalls]
  have hidx : ∀ t ∈ tags s L, s'.index t = s.index t :=
    fun t ht => index_congr (hget t ht .index (by simp))
  have hwhole : ∀ t ∈ tags s L, whole s' t = whole s t := by
    intro t ht
    simp only [whole, hget t ht .splitLeft (by simp), hget t ht .splitRight (by simp)]
  refine ⟨?_, ?_, fun t ht => ?_, fun i => ?_, fun i => ?_, fun t ht => ?_, ?_⟩
  · rw [hcalls]
    refine h.regions.congr fun t ht f hf => hget t ht f fun heq => ?_
    subst heq
    exact absurd hf (by decide)
  · rw [htags]
    exact h.bins.congr hfree (fun t ht => hget t ht .next (by simp))
      (fun t ht => hget t ht .prev (by simp)) fun t ht => hget t ht .index (by simp)
  · rw [htags] at ht
    rw [hidx t ht, hget t ht .realSize (by simp)]
    exact h.sorted t ht
  · rw [hcount, h.counts i]
    exact congrArg _ (List.countP_congr fun t ht => by rw [hwhole t (h.mem_bin ht).1])
  · rw [hcount]
    exact h.bounded i
  · rw [htags] at ht
    rw [hidx t ht, hget t ht .splitRight (by simp)]
    intro hr hi
    rcases h.regions.right_or ht with h0 | ⟨hm, _⟩
    · exact absurd h0 hr
    · rw [hidx _ hm]
      exact h.coalesced t ht hr hi
  · rw [hinit, hcalls]
    exact h.unset

end Inv
end Kvi.Alloc
