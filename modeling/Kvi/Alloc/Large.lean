import Kvi.Alloc.Beside

/-! A fresh range of any size.

The invariant speaks of ranges below `2^32` bytes, whose size fits the tag. A
request just below `2^32` bytes is rounded up to a range of `2^32`, and the
recorded size wraps (`u32`). So what `malloc` makes of a large range is read off
memory: the header, the remainder behind the block if there is one, and the link
from one to the other (`large_right`).

The rest of the heap does not see the difference. Handing out only the last 16
pages of the range, cut at the same place, would have left a heap of the kind
the invariant covers, with the same bins and the same bytes outside the range
(`Inv.large`); so `free` of another block works as ever. -/
namespace Kvi.Alloc

variable {s s' : Heap} {L : Layout} {r : PageRange} {t u x n b : Nat} {T : Set Nat} {f : Field}

/-- What `malloc` would split off a fresh range. -/
def rest (r : PageRange) (n : Nat) : Nat := u32 (sub64 (sub64 (u32 r.bytes) n) (tagSize * 2))

/-- Whether it does. -/
def Splits (r : PageRange) (n : Nat) : Prop := 0 < s32 (rest r n) ∧ 0 ≤ getexp (rest r n)

instance : Decidable (Splits r n) := inferInstanceAs (Decidable (_ ∧ _))

/-- The fresh range as one block, before the excess is split off. -/
def freshBlock (r : PageRange) (n : Nat) (s : Heap) : Heap := (obtained r n s).set r.base .size n

/-- What the header of a fresh range needs to know of the headers there are. -/
structure Apart (r : PageRange) (n : Nat) (T : Set Nat) : Prop where
  separate : Separate T
  base : r.base ∈ T
  size : n < 2 ^ 32

theorem Apart.freshBlock_get (h : Apart r n T) (hx : x ∈ T) :
    (freshBlock r n s).get x f =
      if x = r.base then freshFields n (u32 r.bytes) f else s.get x f := by
  have hm : n % 256 ^ 4 = n := Nat.mod_eq_of_lt h.size
  have hold : ∀ f, (obtained r n s).get x f =
      if x = r.base then freshFields n (u32 r.bytes) f else s.get x f :=
    fun f => freshTag_get h.separate h.base hx h.size
  rw [freshBlock, get_set h.separate hx h.base, hold, Field.width, hm]
  by_cases hxb : x = r.base
  · cases f <;> simp [hxb, freshFields]
  · simp [hxb]

theorem Apart.freshBlock_frame (h : Apart r n T) :
    Frame T {s with calls := .alloc r.pages r.base :: s.calls} (freshBlock r n s) :=
  (frame_freshTag h.base).trans (frame_set h.base)

theorem freshBlock_freePages : (freshBlock r n s).freePages = s.freePages := by
  simp only [freshBlock, obtained, freshTag, set_freePages]

theorem freshBlock_completePages : (freshBlock r n s).completePages = s.completePages := by
  simp only [freshBlock, obtained, freshTag, set_completePages]

/-- The end of `malloc` on a fresh range. -/
theorem Apart.carve_eq (h : Apart r n T) (hstop : r.stop < 2 ^ 64) (hn : n + 48 ≤ r.bytes) :
    carve n r.base (obtained r n s) = (r.base + 48,
      if Splits r n then insertTag (r.base + 48 + n) (-1) (cutTag r.base (freshBlock r n s))
      else freshBlock r n s) := by
  have hu : u32 n = n := u32_of_lt h.size
  have hptr : u64 (r.base + tagSize) = r.base + 48 := by
    rw [PageRange.stop] at hstop
    exact u64_of_lt (by simp only [tagSize]; omega)
  have hsize : (freshBlock r n s).get r.base .size = n := by
    rw [h.freshBlock_get h.base, if_pos rfl]
    rfl
  have hreal : (freshBlock r n s).get r.base .realSize = u32 r.bytes := by
    rw [h.freshBlock_get h.base, if_pos rfl]
    rfl
  have hsplit : splitAddr r.base (freshBlock r n s) = r.base + 48 + n := by
    rw [PageRange.stop] at hstop
    rw [splitAddr, hsize, tagSize]
    exact u64_of_lt (by omega)
  have hblock : (obtained r n s).set r.base .size (u32 n) = freshBlock r n s := by rw [hu, freshBlock]
  simp only [Alloc.carve, hptr, hblock, hreal]
  refine congrArg _ ?_
  by_cases hs : Splits r n
  · rw [if_pos hs]
    refine (if_pos hs).trans ?_
    rw [splitTag, hsplit]
  · rw [if_neg hs]
    exact if_neg hs

/-! ### The split -/

/-- The remainder and the block fit in the range together. -/
theorem Splits.room (h : Splits r n) (hn : n + 48 ≤ r.bytes) (hmost : r.bytes < n + 2 ^ 31) :
    n + 96 < r.bytes := by
  have hpos := h.1
  unfold rest sub64 u64 u32 tagSize at hpos
  by_contra hlt
  unfold s32 u32 at hpos
  split at hpos <;> omega

/-- What a cut of a fresh block needs. -/
structure Cut (r : PageRange) (n : Nat) (T : Set Nat) : Prop extends Apart r n T where
  new : r.base + 48 + n ∈ T
  stop : r.stop < 2 ^ 64
  room : n + 96 < r.bytes

theorem Cut.splitAddr_eq (h : Cut r n T) : splitAddr r.base (freshBlock r n s) = r.base + 48 + n := by
  have hstop := h.stop
  have hroom := h.room
  rw [PageRange.stop] at hstop
  rw [splitAddr, h.freshBlock_get h.base, if_pos rfl, tagSize]
  exact u64_of_lt (by simp only [freshFields]; omega)

theorem Cut.splitSize_eq (h : Cut r n T) : splitSize r.base (freshBlock r n s) =
    u32 (sub64 (sub64 (u32 r.bytes) 48) n) := by
  rw [splitSize, h.freshBlock_get h.base, h.freshBlock_get h.base, if_pos rfl, if_pos rfl, tagSize]
  rfl

theorem Cut.freshBlock_right (h : Cut r n T) : (freshBlock r n s).get r.base .splitRight = 0 := by
  rw [h.freshBlock_get h.base, if_pos rfl]
  rfl

theorem Cut.get (h : Cut r n T) (hx : x ∈ T) : (cutTag r.base (freshBlock r n s)).get x f =
    if x = r.base + 48 + n then
      cutFields r.base (u32 (sub64 (sub64 (u32 r.bytes) 48) n)) 0 ((freshBlock r n s).get x) f
    else if x = r.base ∧ f = .splitRight then r.base + 48 + n
    else if x = r.base ∧ f = .realSize then
      u32 (u32 r.bytes + 2 ^ 32 - u32 (sub64 (sub64 (u32 r.bytes) 48) n))
    else (freshBlock r n s).get x f := by
  have h0 := h.separate.ne_zero x hx
  have hreal : (freshBlock r n s).get r.base .realSize = u32 r.bytes := by
    rw [h.freshBlock_get h.base, if_pos rfl]
    rfl
  rw [cutTag_get h.separate h.base (by rw [h.splitAddr_eq]; exact h.new)
    (by rw [h.splitAddr_eq]; omega) (by rw [h.freshBlock_right]; exact .inl rfl)
    (by rw [h.freshBlock_right]; exact (h.separate.ne_zero _ h.base).symm)
    (by rw [h.freshBlock_right, h.splitAddr_eq]; omega) hx, h.splitAddr_eq, h.splitSize_eq,
    h.freshBlock_right, hreal]
  simp only [h0, false_and, if_false]

theorem Cut.frame (h : Cut r n T) : Frame T (freshBlock r n s) (cutTag r.base (freshBlock r n s)) :=
  cutTag_frame h.separate h.base (by rw [h.splitAddr_eq]; exact h.new)
    (by rw [h.splitAddr_eq]; omega) (by rw [h.freshBlock_right]; exact .inl rfl)

/-- The bin of the remainder. -/
theorem Cut.realIndex_eq (h : Cut r n T) :
    realIndex (cutTag r.base (freshBlock r n s)) (r.base + 48 + n) (-1) =
      binIndex (u32 (sub64 (sub64 (u32 r.bytes) 48) n)) := by
  rw [realIndex, if_pos (by decide), h.get h.new, if_pos rfl]
  simp [cutFields]

/-! ### The header of a large range -/

/-- A fresh range for a request of `n` bytes, larger than the invariant allows. -/
structure LargeRange (rs : List PageRange) (r : PageRange) (n : Nat) : Prop where
  nonnull : r.base ≠ 0
  stop_lt : r.stop < 2 ^ 64
  disjoint : ∀ r' ∈ rs, PageRange.Disjoint r r'
  fits : n + 48 ≤ r.bytes
  most : r.bytes < n + 4144
  large : 2 ^ 20 ≤ r.bytes
  size : n < 2 ^ 32

/-- Headers inside a fresh range, among those there are. -/
theorem Inv.separate_union (h : Inv s L) (hd : ∀ r' ∈ held s.calls, PageRange.Disjoint r r')
    {U : Set Nat} (hU : Separate U) (hin : ∀ u ∈ U, r.base ≤ u ∧ u + 48 ≤ r.stop) :
    Separate (U ∪ tags s L) := by
  have hT := h.separate
  have hapart : ∀ u ∈ U, ∀ t ∈ tags s L, u + 48 ≤ t ∨ t + 48 ≤ u := by
    intro u hu t ⟨r', hr', ht⟩
    obtain ⟨hlo, hroom, hhi⟩ := h.regions.within hr' ht
    have := hin u hu
    rcases hd r' hr' with hd | hd <;> omega
  refine ⟨fun t ht => ?_, fun t ht => ?_, fun t ht u hu => ?_⟩
  · rcases ht with ht | ht
    · exact hU.ne_zero t ht
    · exact hT.ne_zero t ht
  · rcases ht with ht | ht
    · exact hU.fits t ht
    · exact hT.fits t ht
  · rcases ht with ht | ht
    · rcases hu with hu | hu
      · exact hU.apart t ht u hu
      · exact .inr (hapart t ht u hu)
    · rcases hu with hu | hu
      · exact .inr (hapart u hu t ht).symm
      · exact hT.apart t ht u hu

theorem separate_one (h0 : t ≠ 0) (hlt : t + 48 ≤ 2 ^ 64) : Separate {t} := by
  refine ⟨fun u hu => ?_, fun u hu => ?_, fun u hu v hv => ?_⟩
  · rwa [Set.mem_singleton_iff.mp hu]
  · rwa [Set.mem_singleton_iff.mp hu]
  · exact .inl ((Set.mem_singleton_iff.mp hu).trans (Set.mem_singleton_iff.mp hv).symm)

theorem separate_two (h0 : t ≠ 0) (hle : t + 48 ≤ u) (hlt : u + 48 ≤ 2 ^ 64) : Separate {t, u} := by
  refine ⟨fun x hx => ?_, fun x hx => ?_, fun x hx y hy => ?_⟩
  · rcases hx with rfl | rfl
    · exact h0
    · omega
  · rcases hx with rfl | rfl
    · omega
    · exact hlt
  · rcases hx with rfl | rfl
    · rcases hy with rfl | rfl
      · exact .inl rfl
      · exact .inr (.inl hle)
    · rcases hy with rfl | rfl
      · exact .inr (.inr hle)
      · exact .inl rfl

/-- Where the remainder goes no header of the range is. -/
theorem Inv.head_large (h : Inv s L) (hd : ∀ r' ∈ held s.calls, PageRange.Disjoint r r')
    (hroom : n + 96 < r.bytes) (i : Nat) :
    (cutTag r.base (freshBlock r n s)).freePages i ≠ r.base + 48 + n ∧
      Ptr ({r.base, r.base + 48 + n} ∪ tags s L)
        ((cutTag r.base (freshBlock r n s)).freePages i) := by
  rw [cutTag_freePages, freshBlock_freePages]
  rcases h.bins.head_or i with hz | hm
  · rw [hz]
    exact ⟨by omega, .inl rfl⟩
  · have htag := h.bins.mem_tags hm
    refine ⟨fun heq => ?_, .inr (.inr htag)⟩
    obtain ⟨r', hr', ht⟩ := htag
    obtain ⟨hlo, hreal, hhi⟩ := h.regions.within hr' ht
    have := hd r' hr'
    simp only [PageRange.Disjoint, PageRange.stop] at this hhi
    omega

section
variable (h : Inv s L) (hd : ∀ r' ∈ held s.calls, PageRange.Disjoint r r') (h0 : r.base ≠ 0)
  (hstop : r.stop < 2 ^ 64) (hsize : n < 2 ^ 32)
include h hd h0 hstop hsize

theorem Inv.apart (hn : n + 48 ≤ r.bytes) : Apart r n ({r.base} ∪ tags s L) := by
  have hstop' := hstop
  rw [PageRange.stop] at hstop'
  refine ⟨h.separate_union hd (separate_one h0 (by omega)) fun u hu => ?_, .inl rfl, hsize⟩
  rw [Set.mem_singleton_iff.mp hu, PageRange.stop]
  omega

theorem Inv.cutable (hroom : n + 96 < r.bytes) :
    Cut r n ({r.base, r.base + 48 + n} ∪ tags s L) := by
  have hstop' := hstop
  rw [PageRange.stop] at hstop'
  refine ⟨⟨h.separate_union hd (separate_two h0 (by omega) (by omega)) fun u hu => ?_,
    .inl (.inl rfl), hsize⟩, .inl (.inr rfl), hstop, hroom⟩
  rw [PageRange.stop]
  rcases hu with rfl | rfl <;> omega

/-- The block ends where the remainder begins, or with the range. -/
theorem Inv.large_right (hn : n + 48 ≤ r.bytes) (hmost : r.bytes < n + 2 ^ 31) :
    ((Alloc.carve n r.base (obtained r n s)).2.get r.base .splitRight = 0) ∨
      (Alloc.carve n r.base (obtained r n s)).2.get r.base .splitRight = r.base + 48 + n ∧
        n + 96 < r.bytes := by
  have ha := h.apart hd h0 hstop hsize hn
  rw [ha.carve_eq hstop hn]
  by_cases hs : Splits r n
  · right
    have hroom := hs.room hn hmost
    have hc := h.cutable hd h0 hstop hsize hroom
    obtain ⟨hne, hptr⟩ := h.head_large hd hroom (realIndex
      (cutTag r.base (freshBlock r n s)) (r.base + 48 + n) (-1)).toNat
    refine ⟨?_, hroom⟩
    rw [if_pos hs]
    dsimp only
    rw [insertTag_get hc.separate hc.new hptr hne hc.base, if_neg fun hcon => by omega,
      if_neg fun hcon => by omega, if_neg (by simp), hc.get hc.base, if_neg (by omega),
      if_pos ⟨rfl, rfl⟩]
  · left
    rw [if_neg hs]
    dsimp only
    rw [ha.freshBlock_get ha.base, if_pos rfl]
    rfl

/-- Only headers are written: those in the range and those there were. -/
theorem Inv.carve_clear (hn : n + 48 ≤ r.bytes) (hmost : r.bytes < n + 2 ^ 31)
    (hb : Clear ({r.base, r.base + 48 + n} ∪ tags s L) b) :
    (Alloc.carve n r.base (obtained r n s)).2.mem b = s.mem b := by
  have ha := h.apart hd h0 hstop hsize hn
  have hblock : (freshBlock r n s).mem b = s.mem b := ha.freshBlock_frame.mem b <| hb.mono fun t ht =>
    ht.imp (fun hm => .inl (Set.mem_singleton_iff.mp hm)) id
  rw [ha.carve_eq hstop hn]
  by_cases hs : Splits r n
  · have hroom := hs.room hn hmost
    have hc := h.cutable hd h0 hstop hsize hroom
    obtain ⟨_, hptr⟩ := h.head_large hd hroom (realIndex
      (cutTag r.base (freshBlock r n s)) (r.base + 48 + n) (-1)).toNat
    rw [if_pos hs]
    dsimp only
    rw [(insertTag_frame hc.new hptr).mem b hb, hc.frame.mem b hb, hblock]
  · rw [if_neg hs]
    exact hblock

end

/-! ### The end of the range in place of the range -/

/-- `r'` is the last 16 pages of `r`, and a request of `n'` bytes from it ends where one of `n`
bytes from `r` does. -/
structure Tail (r r' : PageRange) (n n' : Nat) : Prop where
  base : r'.base + 65536 = r.base + r.bytes
  pages : r'.pages = pageCount
  size : n' + r.bytes = n + 65536

theorem LargeRange.tail {rs : List PageRange} (hl : LargeRange rs r n) :
    ∃ r' n', Tail r r' n n' := by
  have := hl.large
  have := hl.most
  refine ⟨⟨r.base + r.bytes - 65536, pageCount⟩, n + 65536 - r.bytes, ?_, rfl, ?_⟩
  · exact Nat.sub_add_cancel (by omega)
  · exact Nat.sub_add_cancel (by omega)

namespace Tail
variable {rs : List PageRange} {r' : PageRange} {n' : Nat} (ht : Tail r r' n n')
  (hl : LargeRange rs r n)
include ht

theorem bytes : r'.bytes = 65536 := by
  rw [PageRange.bytes, ht.pages]
  decide

theorem stop : r'.stop = r.stop := by
  have := ht.base
  rw [PageRange.stop, PageRange.stop, ht.bytes]
  omega

theorem cut : r'.base + 48 + n' = r.base + 48 + n := by
  have := ht.base
  have := ht.size
  omega

include hl

theorem fits : n' + 48 ≤ 65536 := by
  have := hl.fits
  have := ht.size
  omega

theorem rest_eq : rest r' n' = rest r n := by
  have := hl.large
  have := hl.most
  have := hl.size
  have := ht.size
  unfold rest sub64 u64 u32 tagSize
  rw [ht.bytes]
  omega

theorem splits_iff : Splits r' n' ↔ Splits r n := by
  rw [Splits, Splits, ht.rest_eq hl]

theorem splitSize_eq : u32 (sub64 (sub64 (u32 r'.bytes) 48) n') =
    u32 (sub64 (sub64 (u32 r.bytes) 48) n) := by
  have := hl.large
  have := hl.most
  have := hl.size
  have := hl.fits
  have := ht.size
  unfold sub64 u64 u32
  rw [ht.bytes]
  omega

theorem fresh : Fresh rs r' := by
  have hstop := ht.stop
  have hlt := hl.stop_lt
  have hlarge := hl.large
  have hbase := ht.base
  refine ⟨by omega, by rw [hstop]; exact hlt, fun r'' hr'' => ?_, ht.pages.ge, ?_⟩
  · have hd := hl.disjoint r'' hr''
    rw [PageRange.Disjoint] at hd ⊢
    rw [hstop]
    omega
  · rw [ht.bytes]
    decide

theorem apart : Apart r' n' {r'.base} := by
  have hfits := ht.fits hl
  have hlt := (ht.fresh hl).stop_lt
  rw [PageRange.stop, ht.bytes] at hlt
  exact ⟨separate_one (ht.fresh hl).nonnull (by omega), rfl, by omega⟩

theorem cutable (hroom : n + 96 < r.bytes) : Cut r' n' {r'.base, r.base + 48 + n} := by
  have hfits := ht.fits hl
  have hcut := ht.cut
  have hlt := (ht.fresh hl).stop_lt
  have hlt' := hlt
  have hsize := ht.size
  rw [PageRange.stop, ht.bytes] at hlt'
  refine ⟨⟨separate_two (ht.fresh hl).nonnull (by omega) (by omega), .inl rfl, by omega⟩, ?_, hlt, ?_⟩
  · rw [hcut]
    exact .inr rfl
  · rw [ht.bytes]
    omega

end Tail

namespace LargeRange
variable {rs : List PageRange} {r' : PageRange} {n' : Nat} (hl : LargeRange rs r n)
include hl

/-- The headers `malloc` writes in the range. -/
theorem apart : Apart r n {r.base} := by
  have hstop := hl.stop_lt
  have hlarge := hl.large
  rw [PageRange.stop] at hstop
  exact ⟨separate_one hl.nonnull (by omega), rfl, hl.size⟩

theorem cutable (hroom : n + 96 < r.bytes) : Cut r n {r.base, r.base + 48 + n} := by
  have hstop := hl.stop_lt
  rw [PageRange.stop] at hstop
  exact ⟨⟨separate_two hl.nonnull (by omega) (by omega), .inl rfl, hl.size⟩, .inr rfl, hl.stop_lt,
    hroom⟩

end LargeRange

/-- The bytes of a range. -/
def PageRange.inside (r : PageRange) : Set Nat := {b | r.base ≤ b ∧ b < r.stop}

/-- Outside the range, and in the bins, both leave the same. -/
theorem Tail.beside {rs : List PageRange} {r' : PageRange} {n' : Nat} {s₀ : Heap}
    (ht : Tail r r' n n') (hl : LargeRange rs r n) (hb : Beside r.inside s₀ s) :
    Beside r.inside (carve n' r'.base (obtained r' n' s₀)).2 (carve n r.base (obtained r n s)).2 := by
  have hfits := ht.fits hl
  have hlarge := hl.large
  have hmost := hl.most
  have hbase := ht.base
  -- bytes outside the range lie outside both headers and the remainder's
  have hout : ∀ b, b ∉ r.inside → b < r.base ∨ r.base + r.bytes ≤ b := by
    intro b hb
    have hb : ¬ (r.base ≤ b ∧ b < r.base + r.bytes) := hb
    omega
  have hblock : Beside r.inside (freshBlock r' n' s₀) (freshBlock r n s) := by
    refine ⟨fun b hD => ?_, ?_, ?_⟩
    · have hb' := hout b hD
      have hnew := hl.apart.freshBlock_frame (s := s) |>.mem b fun t hm => by
        rw [Set.mem_singleton_iff.mp hm]
        omega
      have hold := (ht.apart hl).freshBlock_frame (s := s₀) |>.mem b fun t hm => by
        rw [Set.mem_singleton_iff.mp hm]
        omega
      rw [hnew, hold]
      exact hb.mem b hD
    · rw [freshBlock_freePages, freshBlock_freePages, hb.freePages]
    · rw [freshBlock_completePages, freshBlock_completePages, hb.completePages]
  rw [hl.apart.carve_eq hl.stop_lt hl.fits,
    (ht.apart hl).carve_eq (ht.fresh hl).stop_lt (by rw [ht.bytes]; exact hfits)]
  by_cases hs : Splits r n
  · have hroom := hs.room hl.fits (by omega)
    have hc := hl.cutable hroom
    have hc' := ht.cutable hl hroom
    rw [if_pos hs, if_pos ((ht.splits_iff hl).mpr hs), ht.cut]
    have hcuts : Beside r.inside (cutTag r'.base (freshBlock r' n' s₀))
        (cutTag r.base (freshBlock r n s)) := by
      refine ⟨fun b hD => ?_, ?_, ?_⟩
      · have hb' := hout b hD
        have hnew := hc.frame (s := s) |>.mem b fun t hm => by
          rcases Set.mem_insert_iff.mp hm with heq | hm
          · omega
          · rw [Set.mem_singleton_iff.mp hm]
            omega
        have hold := hc'.frame (s := s₀) |>.mem b fun t hm => by
          rcases Set.mem_insert_iff.mp hm with heq | hm
          · omega
          · rw [Set.mem_singleton_iff.mp hm]
            omega
        rw [hnew, hold]
        exact hblock.mem b hD
      · rw [cutTag_freePages, cutTag_freePages, hblock.freePages]
      · rw [cutTag_completePages, cutTag_completePages, hblock.completePages]
    refine hcuts.insertTag_of ?_
    have hindex := hc'.realIndex_eq (s := s₀)
    rw [ht.cut, ht.splitSize_eq hl] at hindex
    rw [hc.realIndex_eq, hindex]
  · rw [if_neg hs, if_neg ((ht.splits_iff hl).not.mpr hs)]
    exact hblock

/-- Writing where the first header of the range is to be touches no tag. -/
theorem Inv.written_fresh (h : Inv s L) (hl : LargeRange (held s.calls) r n) {m : Memory}
    (hm : ∀ b, ¬ (r.base ≤ b ∧ b < r.base + 48) → m b = s.mem b) :
    Inv {s with mem := m} L ∧ used {s with mem := m} L = used s L := by
  have hlarge := hl.large
  have hold : ∀ t ∈ tags s L, ∀ f, Heap.get {s with mem := m} t f = s.get t f := by
    intro t htag f
    obtain ⟨r', hr', htr⟩ := htag
    obtain ⟨hlo, hroom, hhi⟩ := h.regions.within hr' htr
    have hd := hl.disjoint r' hr'
    refine get_congr fun b hb hb' => ?_
    apply hm
    simp only [PageRange.Disjoint, PageRange.stop] at hd hhi
    omega
  constructor
  · exact h.congr rfl rfl rfl rfl fun t ht f _ => hold t ht f
  · ext t
    rw [mem_used, mem_used, tags, ← tags]
    exact and_congr_right fun hm => by rw [index_congr (hold t hm .index)]

/-- The heap after a large request is beside one that is laid out: they differ behind the header of
the new range. -/
theorem Inv.large (h : Inv s L) (hinit : s.initialized = true) (hl : LargeRange (held s.calls) r n) :
    ∃ s₀ L₀, ∃ r' : PageRange, Inv s₀ L₀ ∧ used s L ⊆ used s₀ L₀ ∧
      s₀.calls = .alloc r'.pages r'.base :: s.calls ∧ r.base + 48 ≤ r'.base ∧ r'.stop = r.stop ∧
      Beside {b | r.base + 48 ≤ b ∧ b < r.stop} s₀ (Alloc.carve n r.base (obtained r n s)).2 := by
  obtain ⟨r', n', ht⟩ := hl.tail
  have hfits := ht.fits hl
  have hlarge := hl.large
  have hbase := ht.base
  have hcut := ht.cut
  -- the header that `malloc` is about to write, where no tag is yet
  obtain ⟨s₁, hs₁⟩ : ∃ s₁ : Heap, s₁ = {s with mem := fun b => if r.base ≤ b ∧ b < r.base + 48 then
    (Alloc.carve n r.base (obtained r n s)).2.mem b else s.mem b} := ⟨_, rfl⟩
  have hmem : ∀ b, s₁.mem b = if r.base ≤ b ∧ b < r.base + 48 then
      (Alloc.carve n r.base (obtained r n s)).2.mem b else s.mem b := fun b => by rw [hs₁]
  have hcalls : s₁.calls = s.calls := by rw [hs₁]
  obtain ⟨h₁, hused⟩ : Inv s₁ L ∧ used s₁ L = used s L := by
    rw [hs₁]
    exact h.written_fresh hl fun b hb => if_neg hb
  have hfresh := ht.fresh hl
  rw [← hcalls] at hfresh
  obtain ⟨s₀, L₀, heq, hh, hc₀, _⟩ := h₁.handed_fresh (by rw [hs₁]; exact hinit)
    (show n' + 48 < 2 ^ 32 by omega) hfresh (by rw [ht.bytes]; exact hfits)
  have hb : Beside r.inside s₁ s → Beside r.inside (Alloc.carve n' r'.base (obtained r' n' s₁)).2
      (Alloc.carve n r.base (obtained r n s)).2 := ht.beside hl
  have hb := hb ⟨fun b hb => ?_, by rw [hs₁], by rw [hs₁]⟩
  · rw [heq] at hb
    refine ⟨s₀, L₀, r', hh.inv, ?_, by rw [hc₀, hcalls], by omega, ht.stop, fun b hD => ?_,
      hb.freePages, hb.completePages⟩
    · rw [hh.inUse, ← hused]
      exact Set.subset_insert ..
    · by_cases hin : b ∈ r.inside
      · -- the header
        have hhead : r.base ≤ b ∧ b < r.base + 48 := by
          have hlo : r.base ≤ b := hin.1
          have hhi : b < r.stop := hin.2
          have hD : ¬ (r.base + 48 ≤ b ∧ b < r.stop) := hD
          omega
        have hclear : Clear ({r'.base, r'.base + 48 + n'} ∪ tags s₁ L) b := by
          intro t hm
          rcases hm with hm | ⟨r'', hr'', htr⟩
          · rcases Set.mem_insert_iff.mp hm with heq | hm
            · omega
            · rw [Set.mem_singleton_iff.mp hm]
              omega
          · obtain ⟨hlo, hroom, hhi⟩ := h₁.regions.within hr'' htr
            have hd := hl.disjoint r'' (by rwa [hcalls] at hr'')
            simp only [PageRange.Disjoint, PageRange.stop] at hd hhi
            omega
        have hkept := h₁.carve_clear hfresh.disjoint hfresh.nonnull hfresh.stop_lt (n := n') (by omega)
          (by rw [ht.bytes]; exact hfits) (by rw [ht.bytes]; omega) hclear
        rw [heq] at hkept
        have hkept : s₀.mem b = s₁.mem b := hkept
        rw [hkept, hmem, if_pos hhead]
      · exact hb.mem b hin
  · have hb : ¬ (r.base ≤ b ∧ b < r.base + r.bytes) := hb
    rw [hmem, if_neg (by omega)]

end Kvi.Alloc
