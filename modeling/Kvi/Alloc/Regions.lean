import Kvi.Alloc.Tags
import Kvi.Library.Links
import Kvi.Library.Tiles

/-! The page ranges and their chains of tags.

`held` reads off the calls of the page layer which ranges the allocator has
obtained and not given back. `Regions s rs chain` says that each of them is
tiled by its chain: the tags of `chain r.base` cover the range from its base to
its end piece by piece, linked both ways through `split_left` and `split_right`.
The chain changes in four ways: a tag is cut in two, two neighbours merge, a
fresh range comes in with a single tag, and a range leaves. -/
namespace Kvi.Alloc

/-- Consecutive pages. -/
structure PageRange where
  base : Nat
  pages : Nat
  deriving DecidableEq, Repr

namespace PageRange

def bytes (r : PageRange) : Nat := r.pages * pageSize
def stop (r : PageRange) : Nat := r.base + r.bytes

/-- Two ranges without a common byte. -/
def Disjoint (r r' : PageRange) : Prop := r.stop ≤ r'.base ∨ r'.stop ≤ r.base

instance : Std.Symm Disjoint := ⟨fun _ _ h => Or.symm h⟩

end PageRange

/-- The ranges obtained and not yet given back. -/
def held : List PageCall → List PageRange
  | [] => []
  | .alloc pages base :: cs => ⟨base, pages⟩ :: held cs
  | .free base _ :: cs => (held cs).filter (fun r => r.base ≠ base)

/-- Every range the page layer handed out was nonnull, inside the address space and disjoint
from the ranges held at the time. -/
def Granted : List PageCall → Prop
  | [] => True
  | .alloc pages base :: cs =>
    base ≠ 0 ∧ (PageRange.mk base pages).stop < 2 ^ 64 ∧
      (∀ r ∈ held cs, PageRange.Disjoint ⟨base, pages⟩ r) ∧ Granted cs
  | .free _ _ :: cs => Granted cs

/-- One chain of tags that tiles `r`. -/
structure Chain (s : Heap) (r : PageRange) (ts : List Nat) : Prop where
  linked : Linked (s.get · .splitRight) (s.get · .splitLeft) 0 ts 0
  tiles : Tiles (s.get · .realSize) r.base ts r.stop
  room : ∀ t ∈ ts, 48 ≤ s.get t .realSize
  magic : ∀ t ∈ ts, s.get t .magic = LIBALLOC_MAGIC

variable {s s' : Heap} {r r' : PageRange} {rs : List PageRange} {chain : Nat → List Nat}
  {t u x a b : Nat} {xs ys ts : List Nat}

/-- The fields a chain is made of. -/
def Field.physical : Field → Bool
  | .magic | .realSize | .splitLeft | .splitRight => true
  | _ => false

theorem Chain.congr (h : Chain s r ts)
    (hg : ∀ t ∈ ts, ∀ f : Field, f.physical → s'.get t f = s.get t f) : Chain s' r ts where
  linked := h.linked.congr (fun x hx => hg x hx .splitRight rfl) fun x hx => hg x hx .splitLeft rfl
  tiles := h.tiles.congr fun x hx => hg x hx .realSize rfl
  room := fun x hx => by rw [hg x hx .realSize rfl]; exact h.room x hx
  magic := fun x hx => by rw [hg x hx .magic rfl]; exact h.magic x hx

/-- The tags of all chains. -/
def tagsOf (rs : List PageRange) (chain : Nat → List Nat) : Set Nat :=
  {t | ∃ r ∈ rs, t ∈ chain r.base}

structure Regions (s : Heap) (rs : List PageRange) (chain : Nat → List Nat) : Prop where
  disjoint : rs.Pairwise PageRange.Disjoint
  nonnull : ∀ r ∈ rs, r.base ≠ 0
  pages : ∀ r ∈ rs, pageCount ≤ r.pages
  small : ∀ r ∈ rs, r.bytes < 2 ^ 32
  stop_lt : ∀ r ∈ rs, r.stop < 2 ^ 64
  chain : ∀ r ∈ rs, Chain s r (chain r.base)

namespace Regions

theorem apart_or (h : Regions s rs chain) (hr : r ∈ rs) (hr' : r' ∈ rs) :
    r = r' ∨ PageRange.Disjoint r r' := by
  by_cases heq : r = r'
  · exact .inl heq
  · right
    exact h.disjoint.forall hr hr' heq

/-- Ranges are told apart by where they start. -/
theorem base_inj (h : Regions s rs chain) (hr : r ∈ rs) (hr' : r' ∈ rs) (hb : r.base = r'.base) :
    r = r' := by
  rcases h.apart_or hr hr' with heq | hd
  · exact heq
  · have h1 := h.pages r hr
    have h2 := h.pages r' hr'
    simp only [PageRange.Disjoint, PageRange.stop, PageRange.bytes, pageSize, pageCount] at hd h1 h2
    omega

theorem within (h : Regions s rs chain) (hr : r ∈ rs) (ht : t ∈ chain r.base) :
    r.base ≤ t ∧ 48 ≤ s.get t .realSize ∧ t + s.get t .realSize ≤ r.stop := by
  obtain ⟨h1, _, h3⟩ := (h.chain r hr).tiles.within ht
  exact ⟨h1, (h.chain r hr).room t ht, h3⟩

/-- A tag belongs to one range. -/
theorem range_unique (h : Regions s rs chain) (hr : r ∈ rs) (hr' : r' ∈ rs) (ht : t ∈ chain r.base)
    (ht' : t ∈ chain r'.base) : r = r' := by
  rcases h.apart_or hr hr' with heq | hd
  · exact heq
  · have h1 := h.within hr ht
    have h2 := h.within hr' ht'
    rcases hd with hd | hd <;> omega

/-- Two tags are the same or their blocks do not overlap. -/
theorem apart (h : Regions s rs chain) (ht : t ∈ tagsOf rs chain) (hu : u ∈ tagsOf rs chain) :
    t = u ∨ t + s.get t .realSize ≤ u ∨ u + s.get u .realSize ≤ t := by
  obtain ⟨r, hr, ht⟩ := ht
  obtain ⟨r', hr', hu⟩ := hu
  rcases h.apart_or hr hr' with rfl | hd
  · exact (h.chain r hr).tiles.apart ht hu
  · have h1 := h.within hr ht
    have h2 := h.within hr' hu
    rcases hd with hd | hd
    · exact .inr (.inl (by omega))
    · exact .inr (.inr (by omega))

theorem room (h : Regions s rs chain) (ht : t ∈ tagsOf rs chain) : 48 ≤ s.get t .realSize := by
  obtain ⟨r, hr, ht⟩ := ht
  exact (h.within hr ht).2.1

/-- A block ends inside the address space and is smaller than `2^32`. -/
theorem block_lt (h : Regions s rs chain) (ht : t ∈ tagsOf rs chain) :
    s.get t .realSize < 2 ^ 32 ∧ t + s.get t .realSize < 2 ^ 64 ∧ t ≠ 0 := by
  obtain ⟨r, hr, ht⟩ := ht
  have h1 := h.within hr ht
  have h2 := h.small r hr
  have h3 := h.stop_lt r hr
  have h4 := h.nonnull r hr
  simp only [PageRange.stop] at h1 h3
  omega

theorem separate (h : Regions s rs chain) : Separate (tagsOf rs chain) where
  ne_zero t ht := (h.block_lt ht).2.2
  fits t ht := by
    have := h.room ht
    have := (h.block_lt ht).2.1
    omega
  apart t ht u hu := by
    have := h.room ht
    have := h.room hu
    rcases h.apart ht hu with heq | hd | hd
    · exact .inl heq
    · exact .inr (.inl (by omega))
    · exact .inr (.inr (by omega))

/-- The payload of a block lies in no header. -/
theorem payload_clear (h : Regions s rs chain) (ht : t ∈ tagsOf rs chain) (hlo : t + 48 ≤ b)
    (hhi : b < t + s.get t .realSize) : Clear (tagsOf rs chain) b := by
  intro u hu
  have := h.room hu
  rcases h.apart ht hu with rfl | hd | hd <;> omega

/-! ### Neighbours -/

theorem right_or (h : Regions s rs chain) (ht : t ∈ tagsOf rs chain) :
    s.get t .splitRight = 0 ∨ s.get t .splitRight ∈ tagsOf rs chain ∧
      s.get t .splitRight = t + s.get t .realSize ∧ s.get (s.get t .splitRight) .splitLeft = t := by
  obtain ⟨r, hr, ht⟩ := ht
  have hc := h.chain r hr
  by_cases h0 : s.get t .splitRight = 0
  · exact .inl h0
  · right
    obtain ⟨xs, ys, hts⟩ := hc.linked.fwd_split ht h0
    have hl := hc.linked
    have ht := hc.tiles
    rw [hts] at hl ht
    exact ⟨⟨r, hr, by rw [hts]; simp⟩, ht.adjacent, hl.pair.2⟩

theorem left_or (h : Regions s rs chain) (ht : t ∈ tagsOf rs chain) :
    s.get t .splitLeft = 0 ∨ s.get t .splitLeft ∈ tagsOf rs chain ∧
      s.get (s.get t .splitLeft) .splitRight = t := by
  obtain ⟨r, hr, ht⟩ := ht
  rcases (h.chain r hr).linked.back_or ht with h0 | ⟨hm, hf⟩
  · exact .inl h0
  · exact .inr ⟨⟨r, hr, hm⟩, hf⟩

theorem back_right (h : Regions s rs chain) (ht : t ∈ tagsOf rs chain) (hx : x ∈ tagsOf rs chain)
    (hxr : x = s.get t .splitRight) : s.get x .splitLeft = t := by
  rcases h.right_or ht with h0 | ⟨_, _, hback⟩
  · exact absurd (hxr.trans h0) (h.separate.ne_zero x hx)
  · rw [hxr, hback]

theorem right_mem (h : Regions s rs chain) (ht : t ∈ tagsOf rs chain) (h0 : s.get t .splitRight ≠ 0) :
    s.get t .splitRight ∈ tagsOf rs chain :=
  ((h.right_or ht).resolve_left h0).1

theorem left_mem (h : Regions s rs chain) (ht : t ∈ tagsOf rs chain) (h0 : s.get t .splitLeft ≠ 0) :
    s.get t .splitLeft ∈ tagsOf rs chain :=
  ((h.left_or ht).resolve_left h0).1

/-- A right neighbour lies above. -/
theorem right_gt (h : Regions s rs chain) (ht : t ∈ tagsOf rs chain) (h0 : s.get t .splitRight ≠ 0) :
    t < s.get t .splitRight := by
  obtain ⟨_, hadj, _⟩ := (h.right_or ht).resolve_left h0
  have := h.room ht
  omega

theorem right_ptr (h : Regions s rs chain) (ht : t ∈ tagsOf rs chain) :
    Ptr (tagsOf rs chain) (s.get t .splitRight) := (h.right_or ht).imp id fun h => h.1

/-- Without a right neighbour a block is the last of its range. -/
theorem last (h : Regions s rs chain) (hr : r ∈ rs) (hts : chain r.base = xs ++ t :: ys)
    (hrt : s.get t .splitRight = 0) : ys = [] := by
  have h0 : 0 ∉ chain r.base := fun hm => h.separate.ne_zero 0 ⟨r, hr, hm⟩ rfl
  have hlink := (h.chain r hr).linked
  rw [hts] at hlink h0
  rcases headD_mem_or ys 0 with hm | ⟨hn, _⟩
  · rw [← hlink.middle.2, hrt] at hm
    exact absurd (by simp [hm]) h0
  · exact hn

/-- The last block ends where its range does. -/
theorem last_stop (h : Regions s rs chain) (hr : r ∈ rs) (ht : t ∈ chain r.base)
    (hrt : s.get t .splitRight = 0) : t + s.get t .realSize = r.stop := by
  obtain ⟨xs, ys, hts⟩ := List.append_of_mem ht
  obtain rfl := h.last hr hts hrt
  have htile := (h.chain r hr).tiles
  rw [hts] at htile
  obtain ⟨_, _, rfl, _, hstop⟩ := tiles_append.mp htile
  exact hstop

/-- A block without neighbours is its whole range. -/
theorem whole_range (h : Regions s rs chain) (hr : r ∈ rs) (ht : t ∈ chain r.base)
    (hl : s.get t .splitLeft = 0) (hrt : s.get t .splitRight = 0) :
    chain r.base = [t] ∧ t = r.base ∧ s.get t .realSize = r.bytes := by
  have hc := h.chain r hr
  have h0 : 0 ∉ chain r.base := fun hm => h.separate.ne_zero 0 ⟨r, hr, hm⟩ rfl
  obtain ⟨xs, ys, hts⟩ := List.append_of_mem ht
  obtain rfl := h.last hr hts hrt
  have hlink := hc.linked
  rw [hts] at hlink h0
  have hxs : xs = [] := by
    rcases getLastD_mem_or xs 0 with hm | ⟨hn, _⟩
    · rw [← hlink.middle.1, hl] at hm
      exact absurd (by simp [hm]) h0
    · exact hn
  subst hxs
  have htile := hc.tiles
  rw [hts] at htile
  obtain ⟨h1, _, h2⟩ := htile
  have h2 : r.base + s.get t .realSize = r.base + r.bytes := h2
  exact ⟨hts, h1, by omega⟩

/-! ### Edits -/

theorem congr (h : Regions s rs chain)
    (hg : ∀ t ∈ tagsOf rs chain, ∀ f : Field, f.physical → s'.get t f = s.get t f) :
    Regions s' rs chain :=
  ⟨h.disjoint, h.nonnull, h.pages, h.small, h.stop_lt,
    fun r hr => (h.chain r hr).congr fun t ht => hg t ⟨r, hr, ht⟩⟩

/-- One range gets a new chain, the tags of the others stay as they are. -/
theorem replace (h : Regions s rs chain) (hr : r ∈ rs) (hc : Chain s' r ts)
    (hg : ∀ t ∈ tagsOf rs chain, t ∉ chain r.base → ∀ f : Field, f.physical →
      s'.get t f = s.get t f) : Regions s' rs (Function.update chain r.base ts) := by
  refine ⟨h.disjoint, h.nonnull, h.pages, h.small, h.stop_lt, fun r' hr' => ?_⟩
  by_cases hb : r'.base = r.base
  · rw [hb, Function.update_self, h.base_inj hr' hr hb]
    exact hc
  · rw [Function.update_of_ne hb]
    refine (h.chain r' hr').congr fun t ht => hg t ⟨r', hr', ht⟩ fun ht' => hb ?_
    rw [h.range_unique hr' hr ht ht']

theorem mem_replace (h : Regions s rs chain) (hr : r ∈ rs) :
    t ∈ tagsOf rs (Function.update chain r.base ts) ↔
      t ∈ ts ∨ t ∈ tagsOf rs chain ∧ t ∉ chain r.base := by
  constructor
  · intro ⟨r', hr', ht⟩
    by_cases hb : r'.base = r.base
    · rw [hb, Function.update_self] at ht
      exact .inl ht
    · rw [Function.update_of_ne hb] at ht
      refine .inr ⟨⟨r', hr', ht⟩, fun ht' => hb ?_⟩
      rw [h.range_unique hr' hr ht ht']
  · intro ht
    rcases ht with ht | ⟨⟨r', hr', ht⟩, hnot⟩
    · exact ⟨r, hr, by rw [Function.update_self]; exact ht⟩
    · refine ⟨r', hr', ?_⟩
      by_cases hb : r'.base = r.base
      · rw [hb] at ht
        exact absurd ht hnot
      · rwa [Function.update_of_ne hb]

/-- Neighbours together still fit in the range: the sum of their sizes does not wrap. -/
theorem takeOver_get (h : Regions s rs chain) (hr : r ∈ rs) (hts : chain r.base = xs ++ a :: b :: ys)
    (hx : x ∈ tagsOf rs chain) (f : Field) :
    (takeOver a b s).get x f =
      if x = a ∧ f = .realSize then s.get a .realSize + s.get b .realSize
      else if x = a ∧ f = .splitRight then s.get b .splitRight
      else if x = s.get b .splitRight ∧ f = .splitLeft then a
      else s.get x f := by
  have ha : a ∈ chain r.base := by simp [hts]
  have hb : b ∈ chain r.base := by simp [hts]
  have htile := (h.chain r hr).tiles
  rw [hts] at htile
  have hadj : b = a + s.get a .realSize := htile.adjacent
  have h1 := h.within hr ha
  have h2 := h.within hr hb
  have h3 := h.small r hr
  simp only [PageRange.stop] at h2
  rw [Alloc.takeOver_get h.separate ⟨r, hr, ha⟩ ⟨r, hr, hb⟩ (by omega) (h.right_ptr ⟨r, hr, hb⟩) hx,
    u32_of_lt (show s.get a .realSize + s.get b .realSize < 2 ^ 32 by omega)]

theorem takeOver_linked (h : Regions s rs chain) (hr : r ∈ rs)
    (hts : chain r.base = xs ++ a :: b :: ys) :
    Linked ((takeOver a b s).get · .splitRight) ((takeOver a b s).get · .splitLeft) 0
      (xs ++ a :: ys) 0 := by
  have hc := h.chain r hr
  have hlink := hc.linked
  have hnd := hc.tiles.nodup
  have h0 : 0 ∉ chain r.base := fun hm => h.separate.ne_zero 0 ⟨r, hr, hm⟩ rfl
  have hts' : chain r.base = (xs ++ [a]) ++ b :: ys := by simp [hts]
  have hpair : s.get b .splitLeft = a := by
    rw [hts] at hlink
    exact hlink.pair.2
  have hmem : ∀ x ∈ (xs ++ [a]) ++ ys, x ∈ tagsOf rs chain := by
    intro x hx
    rw [hts'] at hnd
    exact ⟨r, hr, hts' ▸ ((mem_remove_iff hnd).mp hx).1⟩
  rw [show xs ++ a :: ys = (xs ++ [a]) ++ ys by simp]
  rw [hts'] at hlink hnd h0
  refine hlink.remove hnd h0 h0 (fun x hx => ?_) fun x hx => ?_
  · rw [h.takeOver_get hr hts (hmem x hx), hpair]
    simp
  · rw [h.takeOver_get hr hts (hmem x hx), hpair]
    simp

theorem takeOver_tiles (h : Regions s rs chain) (hr : r ∈ rs)
    (hts : chain r.base = xs ++ a :: b :: ys) :
    Tiles ((takeOver a b s).get · .realSize) r.base (xs ++ a :: ys) r.stop := by
  have htile := (h.chain r hr).tiles
  have ha : a ∈ tagsOf rs chain := ⟨r, hr, by simp [hts]⟩
  rw [hts] at htile
  have hnd := htile.nodup
  refine htile.merge ?_ fun x hx => ?_
  · rw [h.takeOver_get hr hts ha]
    simp
  · have hin : x ∈ xs ++ a :: b :: ys := by
      simp only [List.mem_append, List.mem_cons] at hx ⊢
      tauto
    have hxa : x ≠ a := by
      have hnot := (List.nodup_cons.mp (List.nodup_middle.mp hnd)).1
      intro heq
      apply hnot
      rw [← heq]
      simp only [List.mem_append, List.mem_cons] at hx ⊢
      exact hx.imp_right .inr
    rw [h.takeOver_get hr hts ⟨r, hr, hts ▸ hin⟩]
    simp [hxa]

theorem takeOver_chain (h : Regions s rs chain) (hr : r ∈ rs)
    (hts : chain r.base = xs ++ a :: b :: ys) : Chain (takeOver a b s) r (xs ++ a :: ys) := by
  have hc := h.chain r hr
  have hmem : ∀ x ∈ xs ++ a :: ys, x ∈ chain r.base := by
    intro x hx
    rw [hts]
    simp only [List.mem_append, List.mem_cons] at hx ⊢
    tauto
  refine ⟨h.takeOver_linked hr hts, h.takeOver_tiles hr hts, fun x hx => ?_, fun x hx => ?_⟩
  · have := hc.room x (hmem x hx)
    rw [h.takeOver_get hr hts ⟨r, hr, hmem x hx⟩]
    by_cases hxa : x = a
    · subst hxa
      simp only [true_and, if_true]
      omega
    · simp [hxa, this]
  · rw [h.takeOver_get hr hts ⟨r, hr, hmem x hx⟩]
    simp [hc.magic x (hmem x hx)]

/-- `b`, the right neighbour of `a`, becomes part of `a`. -/
theorem takeOver (h : Regions s rs chain) (hr : r ∈ rs) (hts : chain r.base = xs ++ a :: b :: ys) :
    Regions (takeOver a b s) rs (Function.update chain r.base (xs ++ a :: ys)) ∧
      tagsOf rs (Function.update chain r.base (xs ++ a :: ys)) = tagsOf rs chain \ {b} := by
  have hc := h.chain r hr
  have hnd := hc.tiles.nodup
  have ha : a ∈ chain r.base := by simp [hts]
  have hb : b ∈ chain r.base := by simp [hts]
  have hmem : ∀ x, x ∈ xs ++ a :: ys ↔ x ∈ chain r.base ∧ x ≠ b := by
    intro x
    rw [show chain r.base = (xs ++ [a]) ++ b :: ys by simp [hts]] at hnd ⊢
    rw [← mem_remove_iff hnd]
    simp
  constructor
  · refine h.replace hr (h.takeOver_chain hr hts) fun x hx hnot f hf => ?_
    have hxa : x ≠ a := fun heq => hnot (heq ▸ ha)
    have hxn : x ≠ s.get b .splitRight := by
      intro heq
      rcases hc.linked.fwd_or hb with hz | ⟨hm, _⟩
      · exact h.separate.ne_zero x hx (heq.trans hz)
      · exact hnot (heq ▸ hm)
    rw [h.takeOver_get hr hts hx]
    simp [hxa, hxn]
  · ext x
    rw [h.mem_replace hr, hmem, Set.mem_sdiff, Set.mem_singleton_iff]
    constructor
    · intro hx
      rcases hx with ⟨hx, hne⟩ | ⟨hx, hnot⟩
      · exact ⟨⟨r, hr, hx⟩, hne⟩
      · exact ⟨hx, fun heq => hnot (heq ▸ hb)⟩
    · intro ⟨hx, hne⟩
      by_cases hxc : x ∈ chain r.base
      · exact .inl ⟨hxc, hne⟩
      · exact .inr ⟨hx, hxc⟩

/-- Where the new tag of a cut lies and how large it is, when the block has room for it. -/
theorem split_eq (h : Regions s rs chain) (ht : t ∈ tagsOf rs chain)
    (hsize : s.get t .size + 96 ≤ s.get t .realSize) :
    splitAddr t s = t + 48 + s.get t .size ∧
      splitSize t s = s.get t .realSize - 48 - s.get t .size := by
  obtain ⟨h1, h2, _⟩ := h.block_lt ht
  constructor
  · simp only [splitAddr, tagSize]
    exact u64_of_lt (by omega)
  · simp only [splitSize, tagSize]
    rw [sub64_of_le (a := s.get t .realSize) (b := 48) (by omega) (by omega),
      sub64_of_le (by omega) (by omega), u32_of_lt (by omega)]

theorem split_fresh (h : Regions s rs chain) (ht : t ∈ tagsOf rs chain)
    (hsize : s.get t .size + 96 ≤ s.get t .realSize) :
    splitAddr t s ∉ tagsOf rs chain ∧ Separate (insert (splitAddr t s) (tagsOf rs chain)) := by
  obtain ⟨hn, _⟩ := h.split_eq ht hsize
  obtain ⟨_, hend, h0⟩ := h.block_lt ht
  -- the new header lies in the block of `t`, behind its header
  have hapart : ∀ u ∈ tagsOf rs chain, splitAddr t s + 48 ≤ u ∨ u + 48 ≤ splitAddr t s := by
    intro u hu
    have := h.room hu
    rcases h.apart ht hu with rfl | hd | hd <;> omega
  exact h.separate.insert (by omega) (by omega) hapart

theorem cut_get (h : Regions s rs chain) (ht : t ∈ tagsOf rs chain)
    (hsize : s.get t .size + 96 ≤ s.get t .realSize)
    (hx : x ∈ insert (splitAddr t s) (tagsOf rs chain)) (f : Field) :
    (cutTag t s).get x f =
      if x = splitAddr t s then
        cutFields t (s.get t .realSize - 48 - s.get t .size) (s.get t .splitRight) (s.get x) f
      else if x = t ∧ f = .splitRight then splitAddr t s
      else if x = t ∧ f = .realSize then s.get t .size + 48
      else if x = s.get t .splitRight ∧ f = .splitLeft then splitAddr t s
      else s.get x f := by
  obtain ⟨hn, hs⟩ := h.split_eq ht hsize
  obtain ⟨hfresh, hT⟩ := h.split_fresh ht hsize
  obtain ⟨hlt, _, _⟩ := h.block_lt ht
  have hsub := Set.subset_insert (splitAddr t s) (tagsOf rs chain)
  have hright : s.get t .splitRight ≠ t ∧ s.get t .splitRight ≠ splitAddr t s := by
    rcases h.right_or ht with h0 | ⟨hm, hadj, _⟩
    · rw [h0]
      exact ⟨(h.separate.ne_zero t ht).symm, (hT.ne_zero _ (Set.mem_insert ..)).symm⟩
    · exact ⟨by omega, fun heq => hfresh (heq ▸ hm)⟩
  rw [cutTag_get hT (hsub ht) (Set.mem_insert ..) (by omega) ((h.right_ptr ht).imp id (@hsub _))
    hright.1 hright.2 hx, hs,
    show u32 (s.get t .realSize + 2 ^ 32 - (s.get t .realSize - 48 - s.get t .size)) =
      s.get t .size + 48 by unfold u32; omega]

/-- The tags there were: only the neighbours of the cut change. -/
theorem cut_get_of (h : Regions s rs chain) (ht : t ∈ tagsOf rs chain)
    (hsize : s.get t .size + 96 ≤ s.get t .realSize) (hx : x ∈ tagsOf rs chain) (f : Field) :
    (cutTag t s).get x f =
      if x = t ∧ f = .splitRight then splitAddr t s
      else if x = t ∧ f = .realSize then s.get t .size + 48
      else if x = s.get t .splitRight ∧ f = .splitLeft then splitAddr t s
      else s.get x f := by
  have hne : x ≠ splitAddr t s := fun heq => (h.split_fresh ht hsize).1 (heq ▸ hx)
  rw [h.cut_get ht hsize (Set.mem_insert_of_mem _ hx), if_neg hne]

/-- The fields of the new tag. -/
theorem cut_get_new (h : Regions s rs chain) (ht : t ∈ tagsOf rs chain)
    (hsize : s.get t .size + 96 ≤ s.get t .realSize) (f : Field) :
    (cutTag t s).get (splitAddr t s) f =
      cutFields t (s.get t .realSize - 48 - s.get t .size) (s.get t .splitRight)
        (s.get (splitAddr t s)) f := by
  rw [h.cut_get ht hsize (Set.mem_insert ..), if_pos rfl]

theorem mem_cut {a : Nat} : x ∈ xs ++ t :: a :: ys ↔ x = a ∨ x ∈ xs ++ t :: ys := by
  simp only [List.mem_append, List.mem_cons]
  tauto

theorem cut_linked (h : Regions s rs chain) (hr : r ∈ rs) (hts : chain r.base = xs ++ t :: ys)
    (hsize : s.get t .size + 96 ≤ s.get t .realSize) :
    Linked ((cutTag t s).get · .splitRight) ((cutTag t s).get · .splitLeft) 0
      (xs ++ t :: splitAddr t s :: ys) 0 := by
  have htT : t ∈ tagsOf rs chain := ⟨r, hr, by simp [hts]⟩
  have hc := h.chain r hr
  have hlink := hc.linked
  have hnd := hc.tiles.nodup
  have h0 : 0 ∉ chain r.base := fun hm => h.separate.ne_zero 0 ⟨r, hr, hm⟩ rfl
  have hin : ∀ x ∈ xs ++ t :: ys, x ∈ tagsOf rs chain := fun x hx => ⟨r, hr, hts ▸ hx⟩
  rw [hts] at hlink hnd h0
  refine hlink.insert hnd h0 ?_ ?_ (fun x hx => ?_) fun x hx => ?_
  · rw [h.cut_get_new htT hsize]
    rfl
  · rw [h.cut_get_new htT hsize]
    rfl
  · rw [h.cut_get_of htT hsize (hin x hx)]
    simp
  · rw [h.cut_get_of htT hsize (hin x hx)]
    simp

theorem cut_tiles (h : Regions s rs chain) (hr : r ∈ rs) (hts : chain r.base = xs ++ t :: ys)
    (hsize : s.get t .size + 96 ≤ s.get t .realSize) :
    Tiles ((cutTag t s).get · .realSize) r.base (xs ++ t :: splitAddr t s :: ys) r.stop := by
  have htT : t ∈ tagsOf rs chain := ⟨r, hr, by simp [hts]⟩
  obtain ⟨hn, _⟩ := h.split_eq htT hsize
  have htile := (h.chain r hr).tiles
  rw [hts] at htile
  have hnd := htile.nodup
  have hsize' : (cutTag t s).get t .realSize = s.get t .size + 48 := by
    rw [h.cut_get_of htT hsize htT]
    simp
  have hnew : (cutTag t s).get (splitAddr t s) .realSize =
      s.get t .realSize - 48 - s.get t .size := h.cut_get_new htT hsize .realSize
  refine htile.split ?_ ?_ ?_ ?_ fun x hx => ?_
  · rw [hsize']
    omega
  · rw [hsize', hnew]
    omega
  · rw [hsize']
    omega
  · rw [hnew]
    omega
  · obtain ⟨hxm, hxt⟩ := (mem_remove_iff hnd).mp hx
    rw [h.cut_get_of htT hsize ⟨r, hr, hts ▸ hxm⟩]
    simp [hxt]

theorem cut_chain (h : Regions s rs chain) (hr : r ∈ rs) (hts : chain r.base = xs ++ t :: ys)
    (hsize : s.get t .size + 96 ≤ s.get t .realSize) :
    Chain (cutTag t s) r (xs ++ t :: splitAddr t s :: ys) := by
  have htT : t ∈ tagsOf rs chain := ⟨r, hr, by simp [hts]⟩
  have hc := h.chain r hr
  have hmem : ∀ x, x ∈ xs ++ t :: splitAddr t s :: ys → x = splitAddr t s ∨ x ∈ chain r.base := by
    intro x hx
    rw [hts]
    exact mem_cut.mp hx
  refine ⟨h.cut_linked hr hts hsize, h.cut_tiles hr hts hsize, fun x hx => ?_, fun x hx => ?_⟩
  · rcases hmem x hx with rfl | hxc
    · rw [h.cut_get_new htT hsize]
      show 48 ≤ s.get t .realSize - 48 - s.get t .size
      omega
    · rw [h.cut_get_of htT hsize ⟨r, hr, hxc⟩]
      have hroom := hc.room x hxc
      by_cases hxt : x = t
      · simp [hxt]
      · simp [hxt, hroom]
  · rcases hmem x hx with rfl | hxc
    · rw [h.cut_get_new htT hsize]
      rfl
    · rw [h.cut_get_of htT hsize ⟨r, hr, hxc⟩]
      simp [hc.magic x hxc]

/-- The block of `t` is cut behind `t.size` bytes of payload. -/
theorem cut (h : Regions s rs chain) (hr : r ∈ rs) (hts : chain r.base = xs ++ t :: ys)
    (hsize : s.get t .size + 96 ≤ s.get t .realSize) :
    Regions (cutTag t s) rs (Function.update chain r.base (xs ++ t :: splitAddr t s :: ys)) ∧
      tagsOf rs (Function.update chain r.base (xs ++ t :: splitAddr t s :: ys)) =
        insert (splitAddr t s) (tagsOf rs chain) := by
  have ht : t ∈ chain r.base := by simp [hts]
  have htT : t ∈ tagsOf rs chain := ⟨r, hr, ht⟩
  constructor
  · refine h.replace hr (h.cut_chain hr hts hsize) fun x hx hnot f hf => ?_
    have hxt : x ≠ t := fun heq => hnot (heq ▸ ht)
    have hxr : x ≠ s.get t .splitRight := by
      intro heq
      rcases (h.chain r hr).linked.fwd_or ht with hz | ⟨hm, _⟩
      · exact h.separate.ne_zero x hx (heq.trans hz)
      · exact hnot (heq ▸ hm)
    rw [h.cut_get_of htT hsize hx]
    simp [hxt, hxr]
  · ext x
    rw [h.mem_replace hr, Set.mem_insert_iff]
    have hmem : x ∈ xs ++ t :: splitAddr t s :: ys ↔ x = splitAddr t s ∨ x ∈ chain r.base := by
      rw [hts]
      exact mem_cut
    rw [hmem]
    constructor
    · intro hx
      rcases hx with (hx | hx) | ⟨hx, _⟩
      · exact .inl hx
      · exact .inr ⟨r, hr, hx⟩
      · exact .inr hx
    · intro hx
      by_cases hxc : x ∈ chain r.base
      · exact .inl (.inr hxc)
      · rcases hx with hx | hx
        · exact .inl (.inl hx)
        · exact .inr ⟨hx, hxc⟩

/-- A fresh range, all one block. -/
theorem adjoin (h : Regions s rs chain) (hd : ∀ r' ∈ rs, PageRange.Disjoint r r')
    (hnull : r.base ≠ 0) (hpages : pageCount ≤ r.pages) (hsmall : r.bytes < 2 ^ 32)
    (hstop : r.stop < 2 ^ 64) (hc : Chain s' r [r.base])
    (hg : ∀ t ∈ tagsOf rs chain, ∀ f : Field, f.physical → s'.get t f = s.get t f) :
    Regions s' (r :: rs) (Function.update chain r.base [r.base]) ∧
      tagsOf (r :: rs) (Function.update chain r.base [r.base]) = insert r.base (tagsOf rs chain) := by
  have hbase : ∀ r' ∈ rs, r'.base ≠ r.base := by
    intro r' hr' heq
    have h1 := hd r' hr'
    have h2 := h.pages r' hr'
    simp only [PageRange.Disjoint, PageRange.stop, PageRange.bytes, pageSize, pageCount]
      at h1 h2 hpages
    omega
  constructor
  · refine ⟨List.pairwise_cons.mpr ⟨hd, h.disjoint⟩, ?_, ?_, ?_, ?_, fun r' hr' => ?_⟩
    · exact List.forall_mem_cons.mpr ⟨hnull, h.nonnull⟩
    · exact List.forall_mem_cons.mpr ⟨hpages, h.pages⟩
    · exact List.forall_mem_cons.mpr ⟨hsmall, h.small⟩
    · exact List.forall_mem_cons.mpr ⟨hstop, h.stop_lt⟩
    · rcases List.mem_cons.mp hr' with rfl | hr'
      · rw [Function.update_self]
        exact hc
      · rw [Function.update_of_ne (hbase r' hr')]
        exact (h.chain r' hr').congr fun t ht => hg t ⟨r', hr', ht⟩
  · ext x
    rw [Set.mem_insert_iff]
    constructor
    · intro ⟨r', hr', hx⟩
      rcases List.mem_cons.mp hr' with rfl | hr'
      · rw [Function.update_self, List.mem_singleton] at hx
        exact .inl hx
      · rw [Function.update_of_ne (hbase r' hr')] at hx
        exact .inr ⟨r', hr', hx⟩
    · intro hx
      rcases hx with rfl | ⟨r', hr', hx⟩
      · exact ⟨r, List.mem_cons_self .., by rw [Function.update_self]; simp⟩
      · exact ⟨r', List.mem_cons_of_mem _ hr', by rwa [Function.update_of_ne (hbase r' hr')]⟩

/-- A range that is one block leaves. -/
theorem drop (h : Regions s rs chain) (hr : r ∈ rs) (hts : chain r.base = [r.base]) :
    Regions s (rs.filter (fun r' => r'.base ≠ r.base)) chain ∧
      tagsOf (rs.filter (fun r' => r'.base ≠ r.base)) chain = tagsOf rs chain \ {r.base} := by
  have hsub : ∀ r' ∈ rs.filter (fun r' => r'.base ≠ r.base), r' ∈ rs ∧ r'.base ≠ r.base := by
    intro r' hr'
    simpa using List.mem_filter.mp hr'
  constructor
  · exact ⟨h.disjoint.filter _, fun r' hr' => h.nonnull r' (hsub r' hr').1,
      fun r' hr' => h.pages r' (hsub r' hr').1, fun r' hr' => h.small r' (hsub r' hr').1,
      fun r' hr' => h.stop_lt r' (hsub r' hr').1, fun r' hr' => h.chain r' (hsub r' hr').1⟩
  · ext x
    rw [Set.mem_sdiff, Set.mem_singleton_iff]
    constructor
    · intro ⟨r', hr', hx⟩
      obtain ⟨hm, hne⟩ := hsub r' hr'
      refine ⟨⟨r', hm, hx⟩, fun heq => hne ?_⟩
      rw [h.range_unique hm hr hx (by rw [hts, heq]; simp)]
    · intro ⟨⟨r', hr', hx⟩, hne⟩
      refine ⟨r', List.mem_filter.mpr ⟨hr', ?_⟩, hx⟩
      have : r'.base ≠ r.base := by
        intro heq
        rw [heq, hts, List.mem_singleton] at hx
        exact hne hx
      simpa using this

end Regions
end Kvi.Alloc
