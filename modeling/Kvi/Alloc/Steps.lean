import Kvi.Alloc.Invariant

/-! The steps of `malloc` and `free`.

Of each step three things are said: it keeps the invariant, what becomes of the
set of tags in use, and which headers it writes (`Frame`). A block whose sizes
stay as they are then keeps its payload (`Inv.keeps`). -/
namespace Kvi.Alloc

variable {s s' s'' : Heap} {L L' L'' : Layout} {r : PageRange} {t u x y a b c l n i : Nat}
  {xs ys : List Nat} {U : Set Nat} {f : Field} {k : Int}

/-- The payload of the block `u`. -/
def Payload (s : Heap) (u b : Nat) : Prop := u + 48 ≤ b ∧ b < u + s.get u .realSize

/-- The blocks of `U` have the sizes and the payloads they had. -/
structure Keeps (U : Set Nat) (s s' : Heap) : Prop where
  size : ∀ u ∈ U, s'.get u .size = s.get u .size
  realSize : ∀ u ∈ U, s'.get u .realSize = s.get u .realSize
  payload : ∀ u ∈ U, ∀ b, Payload s u b → s'.mem b = s.mem b

theorem Keeps.trans (h : Keeps U s s') (h' : Keeps U s' s'') : Keeps U s s'' := by
  refine ⟨fun u hu => (h'.size u hu).trans (h.size u hu),
    fun u hu => (h'.realSize u hu).trans (h.realSize u hu), fun u hu b hb => ?_⟩
  have hb' : Payload s' u b := by
    rw [Payload, h.realSize u hu]
    exact hb
  exact (h'.payload u hu b hb').trans (h.payload u hu b hb)

theorem Keeps.mono {V : Set Nat} (h : Keeps U s s') (hV : V ⊆ U) : Keeps V s s' :=
  ⟨fun u hu => h.size u (hV hu), fun u hu => h.realSize u (hV hu),
    fun u hu => h.payload u (hV hu)⟩

/-- A step that writes headers of the blocks there were keeps the payloads. -/
theorem Inv.keeps (h : Inv s L) (hU : U ⊆ tags s L)
    (hmem : ∀ b, Clear (tags s L) b → s'.mem b = s.mem b)
    (hsize : ∀ u ∈ U, s'.get u .size = s.get u .size)
    (hreal : ∀ u ∈ U, s'.get u .realSize = s.get u .realSize) : Keeps U s s' :=
  ⟨hsize, hreal, fun _ hu b hb => hmem b (h.regions.payload_clear (hU hu) hb.1 hb.2)⟩

/-- A step that writes headers of the blocks there are then keeps the payloads. -/
theorem Inv.keeps_after (h' : Inv s' L') (hU : U ⊆ tags s' L')
    (hmem : ∀ b, Clear (tags s' L') b → s'.mem b = s.mem b)
    (hsize : ∀ u ∈ U, s'.get u .size = s.get u .size)
    (hreal : ∀ u ∈ U, s'.get u .realSize = s.get u .realSize) : Keeps U s s' := by
  refine ⟨hsize, hreal, fun u hu b hb => hmem b (h'.regions.payload_clear (hU hu) hb.1 ?_)⟩
  rw [hreal u hu]
  exact hb.2

/-- What `takeTag` does beyond `removeTag`. -/
theorem takeTag_eq : takeTag t i s =
    if whole (removeTag t s) t then (removeTag t s).addCompletePages i (-1) else removeTag t s := by
  simp only [takeTag, whole, decide_eq_true_eq]

theorem takeTag_get : (takeTag t i s).get x f = (removeTag t s).get x f := by
  rw [takeTag_eq]
  split
  · rw [get_addCompletePages]
  · rfl

theorem takeTag_index : (takeTag t i s).index x = (removeTag t s).index x :=
  index_congr takeTag_get

theorem takeTag_freePages : (takeTag t i s).freePages = (removeTag t s).freePages := by
  rw [takeTag_eq]
  split
  · rw [addCompletePages_freePages]
  · rfl

theorem takeTag_completePages :
    (takeTag t i s).completePages =
      if whole (removeTag t s) t then
        Function.update s.completePages i (s.completePages i + -1) else s.completePages := by
  rw [takeTag_eq]
  split
  · rw [addCompletePages_completePages, removeTag_completePages]
  · rw [removeTag_completePages]

theorem countP_erase_int {p : Nat → Bool} {l : List Nat} (ht : t ∈ l) :
    ((l.erase t).countP p : Int) = l.countP p + if p t then -1 else 0 := by
  have hpos : p t = true → 0 < l.countP p := fun hp => List.countP_pos_iff.mpr ⟨t, ht, hp⟩
  rw [List.countP_erase, if_congr (and_iff_right ht) rfl rfl]
  split
  · have := hpos ‹_›
    omega
  · omega

namespace Inv

/-- Only the bins change. -/
theorem rebin {bins : Nat → List Nat} (h : Inv s L) (hframe : Frame (tags s L) s s')
    (ht : t ∈ tags s L)
    (hget : ∀ x ∈ tags s L, ∀ f : Field, f.listed = false → s'.get x f = s.get x f)
    (hbins : Bins s' (tags s L) bins)
    (hsorted : ∀ x ∈ tags s L, 0 ≤ s'.index x → s'.index x = binIndex (s.get x .realSize))
    (hcounts : ∀ j, s'.completePages j = (bins j).countP (whole s))
    (hbounded : ∀ j, s'.completePages j ≤ MAXCOMPLETE)
    (hcoalesced : ∀ x ∈ tags s L, s.get x .splitRight ≠ 0 → 0 ≤ s'.index x →
      s'.index (s.get x .splitRight) < 0) : Inv s' ⟨L.chain, bins⟩ := by
  have htags : tags s' ⟨L.chain, bins⟩ = tags s L := by simp only [tags, hframe.calls]
  have hwhole : ∀ x ∈ tags s L, whole s' x = whole s x := by
    intro x hx
    simp only [whole, hget x hx .splitLeft rfl, hget x hx .splitRight rfl]
  refine ⟨?_, ?_, fun x hx => ?_, fun j => ?_, hbounded, fun x hx => ?_, fun hinit => ?_⟩
  · rw [hframe.calls]
    refine h.regions.congr fun x hx f hf => hget x hx f ?_
    cases f <;> first | rfl | exact absurd hf (by decide)
  · rwa [htags]
  · rw [htags] at hx
    rw [hget x hx .realSize rfl]
    exact hsorted x hx
  · rw [hcounts j]
    exact congrArg _ (List.countP_congr fun x hx => by rw [hwhole x (hbins.mem_tags hx)])
  · rw [htags] at hx
    rw [hget x hx .splitRight rfl]
    exact hcoalesced x hx
  · rw [hframe.initialized, h.initialized_of_mem ht] at hinit
    exact absurd hinit (by decide)

/-! ### Out of a bin -/

theorem removeTag_get_of (h : Inv s L) (ht : t ∈ L.bins i) (hx : x ∈ tags s L)
    (hf : f.listed = false) : (removeTag t s).get x f = s.get x f := by
  rw [removeTag_get h.separate (h.bins.linkable h.separate ht) hx]
  cases f <;> first | exact absurd hf (by decide) | simp

theorem frame_takeTag (h : Inv s L) (ht : t ∈ L.bins i) : Frame (tags s L) s (takeTag t i s) := by
  have hrem := removeTag_frame h.separate (h.bins.linkable h.separate ht)
  rw [takeTag_eq]
  split
  · exact hrem.trans frame_addCompletePages
  · exact hrem

theorem whole_removeTag (h : Inv s L) (ht : t ∈ L.bins i) (hx : x ∈ tags s L) :
    whole (removeTag t s) x = whole s x := by
  simp only [whole, h.removeTag_get_of ht hx (f := .splitLeft) rfl,
    h.removeTag_get_of ht hx (f := .splitRight) rfl]

theorem take_completePages (h : Inv s L) (ht : t ∈ L.bins i) : (takeTag t i s).completePages =
    if whole s t then Function.update s.completePages i (s.completePages i + -1)
    else s.completePages := by
  rw [takeTag_completePages, h.whole_removeTag ht (h.mem_bin ht).1]

/-- The counter of the bin follows. -/
theorem take_counts (h : Inv s L) (ht : t ∈ L.bins i) (j : Nat) : (takeTag t i s).completePages j =
    (Function.update L.bins i ((L.bins i).erase t) j).countP (whole s) := by
  rw [h.take_completePages ht]
  by_cases hj : j = i
  · subst hj
    rw [Function.update_self, countP_erase_int ht, ← h.counts j]
    split <;> simp
  · rw [Function.update_of_ne hj, ← h.counts j]
    split <;> simp [hj]

/-- The queued tag `t` comes into use. -/
theorem take (h : Inv s L) (ht : t ∈ L.bins i) :
    Inv (takeTag t i s) ⟨L.chain, Function.update L.bins i ((L.bins i).erase t)⟩ := by
  have hlink := h.bins.linkable h.separate ht
  have hidx : ∀ x ∈ tags s L, (takeTag t i s).index x = if x = t then -1 else s.index x :=
    fun x hx => takeTag_index.trans (removeTag_index h.separate hlink hx)
  have hbins : Bins (takeTag t i s) (tags s L) (Function.update L.bins i ((L.bins i).erase t)) :=
    (h.bins.dequeue h.separate ht).congr takeTag_freePages (fun x _ => takeTag_get)
      (fun x _ => takeTag_get) fun x _ => takeTag_get
  refine h.rebin (h.frame_takeTag ht) (h.mem_bin ht).1
    (fun x hx f hf => takeTag_get.trans (h.removeTag_get_of ht hx hf)) hbins (fun x hx => ?_)
    (h.take_counts ht) (fun j => ?_) fun x hx => ?_
  · rw [hidx x hx]
    split
    · omega
    · exact h.sorted x hx
  · have := h.bounded j
    rw [h.take_completePages ht]
    split
    · by_cases hj : j = i
      · subst hj
        rw [Function.update_self]
        omega
      · rwa [Function.update_of_ne hj]
    · exact this
  · rw [hidx x hx]
    intro hr hi
    rw [hidx _ (h.regions.right_mem hx hr)]
    split
    · omega
    · split at hi
      · omega
      · exact h.coalesced x hx hr hi

theorem used_take (h : Inv s L) (ht : t ∈ L.bins i) :
    used (takeTag t i s) ⟨L.chain, Function.update L.bins i ((L.bins i).erase t)⟩ =
      insert t (used s L) := by
  have hframe := h.frame_takeTag ht
  have hlink := h.bins.linkable h.separate ht
  ext x
  simp only [mem_used, tags, hframe.calls, Set.mem_insert_iff]
  constructor
  · intro hused
    obtain ⟨hx, hi⟩ := hused
    rw [takeTag_index, removeTag_index h.separate hlink hx] at hi
    split at hi
    · exact .inl ‹_›
    · exact .inr ⟨hx, hi⟩
  · intro hx
    have hxT : x ∈ tags s L := by
      rcases hx with rfl | hx
      · exact (h.mem_bin ht).1
      · exact hx.1
    refine ⟨hxT, ?_⟩
    rw [takeTag_index, removeTag_index h.separate hlink hxT]
    split
    · decide
    · exact (hx.resolve_left ‹_›).2

theorem keeps_take (h : Inv s L) (ht : t ∈ L.bins i) : Keeps (tags s L) s (takeTag t i s) :=
  h.keeps subset_rfl (h.frame_takeTag ht).mem
    (fun _ hu => takeTag_get.trans (h.removeTag_get_of ht hu rfl))
    fun _ hu => takeTag_get.trans (h.removeTag_get_of ht hu rfl)

/-! ### Two neighbours in use become one -/

theorem frame_fuse (h : Inv s L) (hr : r ∈ held s.calls)
    (hts : L.chain r.base = xs ++ a :: b :: ys) : Frame (tags s L) s (takeOver a b s) := by
  have ha : a ∈ tags s L := ⟨r, hr, by simp [hts]⟩
  have hb : b ∈ tags s L := ⟨r, hr, by simp [hts]⟩
  have hadj : b = a + s.get a .realSize := by
    have htile := (h.regions.chain r hr).tiles
    rw [hts] at htile
    exact htile.adjacent
  have hroom := h.regions.room ha
  exact takeOver_frame h.separate ha hb (by omega) (h.regions.right_ptr hb)

theorem fuse_get (h : Inv s L) (hr : r ∈ held s.calls) (hts : L.chain r.base = xs ++ a :: b :: ys)
    (hx : x ∈ tags s L) (hf : f.physical = false) : (takeOver a b s).get x f = s.get x f := by
  rw [h.regions.takeOver_get hr hts hx]
  cases f <;> first | exact absurd hf (by decide) | simp

theorem tags_fuse (h : Inv s L) (hr : r ∈ held s.calls)
    (hts : L.chain r.base = xs ++ a :: b :: ys) :
    tags (takeOver a b s) ⟨Function.update L.chain r.base (xs ++ a :: ys), L.bins⟩ =
      tags s L \ {b} := by
  rw [tags, (h.frame_fuse hr hts).calls]
  exact (h.regions.takeOver hr hts).2

/-- Only the merged tag gets another right neighbour, and no tag loses its last left one. -/
theorem fuse_right (h : Inv s L) (hr : r ∈ held s.calls) (hts : L.chain r.base = xs ++ a :: b :: ys)
    (hx : x ∈ tags s L) (hxa : x ≠ a) :
    (takeOver a b s).get x .splitRight = s.get x .splitRight := by
  rw [h.regions.takeOver_get hr hts hx]
  simp [hxa]

theorem fuse_left (h : Inv s L) (hr : r ∈ held s.calls) (hts : L.chain r.base = xs ++ a :: b :: ys)
    (hx : x ∈ tags s L) :
    (takeOver a b s).get x .splitLeft = 0 ↔ s.get x .splitLeft = 0 := by
  have ha : a ∈ tags s L := ⟨r, hr, by simp [hts]⟩
  have hb : b ∈ tags s L := ⟨r, hr, by simp [hts]⟩
  rw [h.regions.takeOver_get hr hts hx]
  by_cases hxr : x = s.get b .splitRight
  · have hback := h.regions.back_right hb hx hxr
    rw [if_neg (by simp), if_neg (by simp), if_pos ⟨hxr, rfl⟩, hback]
    exact ⟨fun h0 => absurd h0 (h.separate.ne_zero a ha), fun h0 => absurd h0 (h.separate.ne_zero b hb)⟩
  · rw [if_neg (by simp), if_neg (by simp), if_neg fun hc => hxr hc.1]

/-- `takeOver` on two neighbours in use. -/
theorem fuse (h : Inv s L) (hr : r ∈ held s.calls) (hts : L.chain r.base = xs ++ a :: b :: ys)
    (ha : a ∈ used s L) (hb : b ∈ used s L) :
    Inv (takeOver a b s) ⟨Function.update L.chain r.base (xs ++ a :: ys), L.bins⟩ := by
  have hframe := h.frame_fuse hr hts
  have htags := h.tags_fuse hr hts
  have hget : ∀ x ∈ tags s L, ∀ f : Field, f.physical = false → _ :=
    fun x hx f hf => h.fuse_get hr hts hx (f := f) hf
  have hidx : ∀ x ∈ tags s L, (takeOver a b s).index x = s.index x :=
    fun x hx => index_congr (hget x hx .index rfl)
  -- a queued tag is neither of the two
  have hother : ∀ x, 0 ≤ s.index x → x ≠ a := by
    intro x hi heq
    rw [heq] at hi
    have := ha.2
    omega
  refine ⟨?_, ?_, fun x hx hi => ?_, fun j => ?_, fun j => ?_, fun x hx hr0 hi => ?_, fun hinit => ?_⟩
  · rw [hframe.calls]
    exact (h.regions.takeOver hr hts).1
  · rw [htags]
    exact (h.bins.forget hb.2).congr takeOver_freePages (fun x hx => hget x hx.1 .next rfl)
      (fun x hx => hget x hx.1 .prev rfl) fun x hx => hget x hx.1 .index rfl
  · rw [htags] at hx
    rw [hidx x hx.1] at hi ⊢
    rw [h.regions.takeOver_get hr hts hx.1, if_neg fun hc => hother x hi hc.1, if_neg (by simp),
      if_neg (by simp)]
    exact h.sorted x hx.1 hi
  · rw [takeOver_completePages, h.counts j]
    refine congrArg _ (List.countP_congr fun x hx => ?_)
    obtain ⟨hxT, hxi⟩ := h.mem_bin hx
    simp only [whole, h.fuse_right hr hts hxT (hother x (by omega)), h.fuse_left hr hts hxT]
  · rw [takeOver_completePages]
    exact h.bounded j
  · rw [htags] at hx
    rw [hidx x hx.1] at hi
    rw [h.fuse_right hr hts hx.1 (hother x hi)] at hr0 ⊢
    rw [hidx _ (h.regions.right_mem hx.1 hr0)]
    exact h.coalesced x hx.1 hr0 hi
  · rw [hframe.initialized, h.initialized_of_mem ha.1] at hinit
    exact absurd hinit (by decide)

theorem used_fuse (h : Inv s L) (hr : r ∈ held s.calls)
    (hts : L.chain r.base = xs ++ a :: b :: ys) :
    used (takeOver a b s) ⟨Function.update L.chain r.base (xs ++ a :: ys), L.bins⟩ =
      used s L \ {b} := by
  ext x
  rw [mem_used, h.tags_fuse hr hts, Set.mem_sdiff, Set.mem_sdiff, mem_used]
  constructor
  · intro ⟨⟨hx, hne⟩, hi⟩
    rw [index_congr (h.fuse_get hr hts hx rfl)] at hi
    exact ⟨⟨hx, hi⟩, hne⟩
  · intro ⟨⟨hx, hi⟩, hne⟩
    refine ⟨⟨hx, hne⟩, ?_⟩
    rwa [index_congr (h.fuse_get hr hts hx rfl)]

theorem keeps_fuse (h : Inv s L) (hr : r ∈ held s.calls)
    (hts : L.chain r.base = xs ++ a :: b :: ys) :
    Keeps (tags s L \ {a}) s (takeOver a b s) := by
  refine h.keeps Set.sdiff_subset (h.frame_fuse hr hts).mem
    (fun u hu => h.fuse_get hr hts hu.1 rfl) fun u hu => ?_
  rw [h.regions.takeOver_get hr hts hu.1, if_neg fun hc => hu.2 hc.1, if_neg (by simp),
    if_neg (by simp)]

/-! ### Into a bin -/

theorem realIndex_eq (hk : k < 0 ∨ k = binIndex (s.get t .realSize)) : realIndex s t k = binIndex (s.get t .realSize) := by
  unfold realIndex
  split
  · rfl
  · rcases hk with hk | hk
    · omega
    · exact hk

/-- The bin a tag in use goes to, and what that bin needs to know. -/
theorem bin_eq (h : Inv s L) (ht : t ∈ tags s L) :
    ∃ i : Nat, binIndex (s.get t .realSize) = i ∧ i < 32 := by
  have hb := binIndex_bounds (h.regions.room ht) (h.regions.block_lt ht).1
  exact ⟨(binIndex (s.get t .realSize)).toNat, by omega, by omega⟩

theorem bins_addCompletePages (h : Inv s L) {d : Int} :
    Bins (s.addCompletePages i d) (tags s L) L.bins :=
  h.bins.congr rfl (fun _ _ => rfl) (fun _ _ => rfl) fun _ _ => rfl

theorem frame_queue (h : Inv s L) (ht : t ∈ tags s L) {d : Int} :
    Frame (tags s L) s (insertTag t k (s.addCompletePages i d)) :=
  frame_addCompletePages.trans (h.bins_addCompletePages.insertTag_frame ht)

/-- With `t` queued there are still no two queued neighbours. -/
theorem queue_coalesced (h : Inv s L)
    (hleft : s.get t .splitLeft ≠ 0 → s.index (s.get t .splitLeft) < 0)
    (hright : s.get t .splitRight ≠ 0 → s.index (s.get t .splitRight) < 0)
    (hx : x ∈ tags s L) (hr0 : s.get x .splitRight ≠ 0)
    (hx0 : 0 ≤ if x = t then (i : Int) else s.index x) :
    (if s.get x .splitRight = t then (i : Int) else s.index (s.get x .splitRight)) < 0 := by
  obtain ⟨hm, hadj, hback⟩ := (h.regions.right_or hx).resolve_left hr0
  split
  · -- the right neighbour is `t`, so `x` is its left one
    rename_i heq
    have hxl : s.get t .splitLeft = x := heq ▸ hback
    have hne : x ≠ t := by
      intro hxt
      have := hright (by rw [← hxt]; exact hr0)
      have := h.regions.room hx
      omega
    rw [if_neg hne] at hx0
    have := hleft (by rw [hxl]; exact h.separate.ne_zero x hx)
    rw [hxl] at this
    omega
  · split at hx0
    · rename_i hxt
      rw [hxt] at hr0 ⊢
      exact hright hr0
    · exact h.coalesced x hx hr0 hx0

/-- `t`, in use and without queued neighbours, enters the bin of its size. -/
theorem queue (h : Inv s L) (ht : t ∈ used s L) (hk : k < 0 ∨ k = binIndex (s.get t .realSize))
    (hi : binIndex (s.get t .realSize) = i) {d : Int} (hd : d = if whole s t then 1 else 0)
    (hroom : s.completePages i + d ≤ MAXCOMPLETE)
    (hleft : s.get t .splitLeft ≠ 0 → s.index (s.get t .splitLeft) < 0)
    (hright : s.get t .splitRight ≠ 0 → s.index (s.get t .splitRight) < 0) :
    Inv (insertTag t k (s.addCompletePages i d))
      ⟨L.chain, Function.update L.bins i (t :: L.bins i)⟩ := by
  have hT := h.separate
  have hlo := binIndex_bounds (h.regions.room ht.1) (h.regions.block_lt ht.1).1
  have hbins : Bins (s.addCompletePages i d) (tags s L) L.bins := h.bins_addCompletePages
  have hlt : (s.addCompletePages i d).index t < 0 := ht.2
  have hreal : realIndex (s.addCompletePages i d) t k = i := (realIndex_eq hk).trans hi
  have hidx : ∀ x ∈ tags s L,
      (insertTag t k (s.addCompletePages i d)).index x = if x = t then (i : Int) else s.index x :=
    fun x hx => hbins.insertTag_index hT ht.1 hlt hreal (by omega) hx
  refine h.rebin (h.frame_queue ht.1) ht.1 (fun x hx f hf => hbins.insertTag_get hT ht.1 hlt hx hf)
    (hbins.requeue hT ht.1 hlt hreal (by omega)) (fun x hx => ?_) (fun j => ?_) (fun j => ?_)
    fun x hx hr0 => ?_
  · rw [hidx x hx]
    split
    · subst x
      exact fun _ => hi.symm
    · exact h.sorted x hx
  · rw [insertTag_completePages, addCompletePages_completePages]
    by_cases hj : j = i
    · subst hj
      rw [Function.update_self, Function.update_self, List.countP_cons, h.counts j, hd]
      push_cast
      rfl
    · rw [Function.update_of_ne hj, Function.update_of_ne hj, h.counts j]
  · rw [insertTag_completePages, addCompletePages_completePages]
    by_cases hj : j = i
    · subst hj
      rwa [Function.update_self]
    · rw [Function.update_of_ne hj]
      exact h.bounded j
  · rw [hidx x hx, hidx _ (h.regions.right_mem hx hr0)]
    exact h.queue_coalesced hleft hright hx hr0

theorem used_queue (h : Inv s L) (ht : t ∈ used s L)
    (hk : k < 0 ∨ k = binIndex (s.get t .realSize)) {d : Int} :
    used (insertTag t k (s.addCompletePages i d)) ⟨L.chain, Function.update L.bins i (t :: L.bins i)⟩ =
      used s L \ {t} := by
  have hbins : Bins (s.addCompletePages i d) (tags s L) L.bins := h.bins_addCompletePages
  obtain ⟨j, hj, hlt⟩ := h.bin_eq ht.1
  have hreal : realIndex (s.addCompletePages i d) t k = j := (realIndex_eq hk).trans hj
  have hidx : ∀ x ∈ tags s L,
      (insertTag t k (s.addCompletePages i d)).index x = if x = t then (j : Int) else s.index x :=
    fun x hx => hbins.insertTag_index h.separate ht.1 ht.2 hreal (by omega) hx
  ext x
  rw [mem_used, Set.mem_sdiff, mem_used, Set.mem_singleton_iff]
  simp only [tags, (h.frame_queue ht.1).calls]
  constructor
  · intro hused
    obtain ⟨hx, hlt⟩ := hused
    rw [hidx x hx] at hlt
    split at hlt
    · omega
    · exact ⟨⟨hx, hlt⟩, ‹_›⟩
  · intro hused
    obtain ⟨⟨hx, hlt⟩, hne⟩ := hused
    refine ⟨hx, ?_⟩
    rwa [hidx x hx, if_neg hne]

theorem keeps_queue (h : Inv s L) (ht : t ∈ used s L) {d : Int} :
    Keeps (tags s L) s (insertTag t k (s.addCompletePages i d)) := by
  have hbins : Bins (s.addCompletePages i d) (tags s L) L.bins := h.bins_addCompletePages
  exact h.keeps subset_rfl (h.frame_queue ht.1).mem
    (fun _ hu => hbins.insertTag_get h.separate ht.1 ht.2 hu rfl)
    fun _ hu => hbins.insertTag_get h.separate ht.1 ht.2 hu rfl

end Inv

/-! ### A block in use is cut -/

/-- `cutTag` leaves the index of the new tag as its memory had it; `insertTag` sets it. Between
the two the model writes the index of a tag in use. -/
def cutLoose (t : Nat) (s : Heap) : Heap :=
  (cutTag t s).set (splitAddr t s) .index (ofInt32 (-1))

theorem cutLoose_freePages : (cutLoose t s).freePages = s.freePages := by
  rw [cutLoose, set_freePages, cutTag_freePages]

theorem cutLoose_completePages : (cutLoose t s).completePages = s.completePages := by
  rw [cutLoose, set_completePages, cutTag_completePages]

namespace Inv

section
variable (h : Inv s L) (hr : r ∈ held s.calls) (hts : L.chain r.base = xs ++ t :: ys)
  (hsize : s.get t .size + 96 ≤ s.get t .realSize)
include h hr hts hsize

theorem cutLoose_get (hx : x ∈ insert (splitAddr t s) (tags s L)) :
    (cutLoose t s).get x f =
      if x = splitAddr t s ∧ f = .index then 2 ^ 32 - 1 else (cutTag t s).get x f := by
  have ht : t ∈ tags s L := ⟨r, hr, by simp [hts]⟩
  rw [cutLoose, get_set (h.regions.split_fresh ht hsize).2 hx (Set.mem_insert ..)]
  rfl

/-- The other tags: only the neighbours of the cut change. -/
theorem cutLoose_get_of (hx : x ∈ tags s L) :
    (cutLoose t s).get x f =
      if x = t ∧ f = .splitRight then splitAddr t s
      else if x = t ∧ f = .realSize then s.get t .size + 48
      else if x = s.get t .splitRight ∧ f = .splitLeft then splitAddr t s
      else s.get x f := by
  have ht : t ∈ tags s L := ⟨r, hr, by simp [hts]⟩
  have hne : x ≠ splitAddr t s := fun heq => (h.regions.split_fresh ht hsize).1 (heq ▸ hx)
  rw [h.cutLoose_get hr hts hsize (Set.mem_insert_of_mem _ hx), if_neg fun hc => hne hc.1,
    h.regions.cut_get_of ht hsize hx]

/-- They keep what is in their lists. -/
theorem cutLoose_get_old (hx : x ∈ tags s L) (hf : f.physical = false) :
    (cutLoose t s).get x f = s.get x f := by
  rw [h.cutLoose_get_of hr hts hsize hx]
  cases f <;> first | exact absurd hf (by decide) | simp

theorem cutLoose_right (hx : x ∈ tags s L) (hxt : x ≠ t) :
    (cutLoose t s).get x .splitRight = s.get x .splitRight := by
  rw [h.cutLoose_get_of hr hts hsize hx]
  simp [hxt]

theorem cutLoose_left (hx : x ∈ tags s L) :
    (cutLoose t s).get x .splitLeft = 0 ↔ s.get x .splitLeft = 0 := by
  have ht : t ∈ tags s L := ⟨r, hr, by simp [hts]⟩
  have hT := (h.regions.split_fresh ht hsize).2
  rw [h.cutLoose_get_of hr hts hsize hx, if_neg (by simp), if_neg (by simp)]
  by_cases hxr : x = s.get t .splitRight
  · have hback := h.regions.back_right ht hx hxr
    rw [if_pos ⟨hxr, rfl⟩, hback]
    exact ⟨fun h0 => absurd h0 (hT.ne_zero _ (Set.mem_insert ..)),
      fun h0 => absurd h0 (h.separate.ne_zero t ht)⟩
  · rw [if_neg fun hc => hxr hc.1]

theorem cutLoose_realSize (hx : x ∈ tags s L) (hxt : x ≠ t) :
    (cutLoose t s).get x .realSize = s.get x .realSize := by
  rw [h.cutLoose_get_of hr hts hsize hx]
  simp [hxt]

/-- The fields of the new tag. -/
theorem cutLoose_new (hf : f ≠ .index) :
    (cutLoose t s).get (splitAddr t s) f =
      cutFields t (s.get t .realSize - 48 - s.get t .size) (s.get t .splitRight)
        (s.get (splitAddr t s)) f := by
  have ht : t ∈ tags s L := ⟨r, hr, by simp [hts]⟩
  rw [h.cutLoose_get hr hts hsize (Set.mem_insert ..), if_neg fun hc => hf hc.2,
    h.regions.cut_get_new ht hsize]

theorem cutLoose_new_index : (cutLoose t s).index (splitAddr t s) = -1 := by
  unfold Heap.index
  rw [h.cutLoose_get hr hts hsize (Set.mem_insert ..), if_pos ⟨rfl, rfl⟩]
  decide

theorem frame_cutLoose : Frame (insert (splitAddr t s) (tags s L)) s (cutLoose t s) := by
  have ht : t ∈ tags s L := ⟨r, hr, by simp [hts]⟩
  obtain ⟨hfresh, hT⟩ := h.regions.split_fresh ht hsize
  have hsub := Set.subset_insert (splitAddr t s) (tags s L)
  have hne : t ≠ splitAddr t s := fun heq => hfresh (heq ▸ ht)
  exact (cutTag_frame hT (hsub ht) (Set.mem_insert ..) hne
    ((h.regions.right_ptr ht).imp id fun hm => hsub hm)).trans (frame_set (Set.mem_insert ..))

theorem tags_cut :
    tags (cutLoose t s) ⟨Function.update L.chain r.base (xs ++ t :: splitAddr t s :: ys), L.bins⟩ =
      insert (splitAddr t s) (tags s L) := by
  rw [tags, (h.frame_cutLoose hr hts hsize).calls]
  exact (h.regions.cut hr hts hsize).2

theorem cut (ht : t ∈ used s L) :
    Inv (cutLoose t s)
      ⟨Function.update L.chain r.base (xs ++ t :: splitAddr t s :: ys), L.bins⟩ := by
  have hframe := h.frame_cutLoose hr hts hsize
  have htags := h.tags_cut hr hts hsize
  have hcut := h.regions.cut hr hts hsize
  have hget : ∀ x ∈ tags s L, ∀ f : Field, f.physical = false → _ :=
    fun x hx f hf => h.cutLoose_get_old hr hts hsize hx (f := f) hf
  have hidx : ∀ x ∈ tags s L, (cutLoose t s).index x = s.index x :=
    fun x hx => index_congr (hget x hx .index rfl)
  have hnew := h.cutLoose_new_index hr hts hsize
  -- a queued tag is not the one that is cut
  have hother : ∀ x, 0 ≤ s.index x → x ≠ t := by
    intro x hi heq
    rw [heq] at hi
    have := ht.2
    omega
  have hold : ∀ x ∈ insert (splitAddr t s) (tags s L), 0 ≤ (cutLoose t s).index x →
      x ∈ tags s L ∧ 0 ≤ s.index x ∧ x ≠ t := by
    intro x hx hi
    rcases Set.mem_insert_iff.mp hx with rfl | hx
    · omega
    · rw [hidx x hx] at hi
      exact ⟨hx, hi, hother x hi⟩
  refine ⟨?_, ?_, fun x hx hi => ?_, fun j => ?_, fun j => ?_, fun x hx hr0 hi => ?_, fun hinit => ?_⟩
  · rw [hframe.calls]
    refine hcut.1.congr fun x hx f hf => ?_
    rw [hcut.2] at hx
    rw [h.cutLoose_get hr hts hsize hx, if_neg]
    intro hc
    rw [hc.2] at hf
    exact absurd hf (by decide)
  · rw [htags]
    refine (h.bins.congr cutLoose_freePages (fun x hx => hget x hx .next rfl) (fun x hx => hget x hx .prev rfl)
      fun x hx => hget x hx .index rfl).adjoin hnew ?_ ?_
    · rw [h.cutLoose_new hr hts hsize (by simp)]
      simp [cutFields]
    · rw [h.cutLoose_new hr hts hsize (by simp)]
      simp [cutFields]
  · rw [htags] at hx
    obtain ⟨hx, hi, hxt⟩ := hold x hx hi
    rw [hidx x hx, h.cutLoose_realSize hr hts hsize hx hxt]
    exact h.sorted x hx hi
  · rw [cutLoose_completePages, h.counts j]
    refine congrArg _ (List.countP_congr fun x hx => ?_)
    obtain ⟨hxT, hxi⟩ := h.mem_bin hx
    simp only [whole, h.cutLoose_left hr hts hsize hxT,
      h.cutLoose_right hr hts hsize hxT (hother x (by omega))]
  · rw [cutLoose_completePages]
    exact h.bounded j
  · rw [htags] at hx
    obtain ⟨hx, hi, hxt⟩ := hold x hx hi
    rw [h.cutLoose_right hr hts hsize hx hxt] at hr0 ⊢
    rw [hidx _ (h.regions.right_mem hx hr0)]
    exact h.coalesced x hx hr0 hi
  · rw [hframe.initialized, h.initialized_of_mem ht.1] at hinit
    exact absurd hinit (by decide)

theorem used_cut :
    used (cutLoose t s) ⟨Function.update L.chain r.base (xs ++ t :: splitAddr t s :: ys), L.bins⟩ =
      insert (splitAddr t s) (used s L) := by
  have hnew := h.cutLoose_new_index hr hts hsize
  ext x
  rw [mem_used, h.tags_cut hr hts hsize, Set.mem_insert_iff, Set.mem_insert_iff, mem_used]
  have hidx : x ∈ tags s L → (cutLoose t s).index x = s.index x :=
    fun hx => index_congr (h.cutLoose_get_old hr hts hsize hx rfl)
  constructor
  · intro ⟨hx, hi⟩
    rcases hx with hx | hx
    · exact .inl hx
    · rw [hidx hx] at hi
      exact .inr ⟨hx, hi⟩
  · intro hx
    rcases hx with rfl | ⟨hx, hi⟩
    · exact ⟨.inl rfl, by omega⟩
    · rw [← hidx hx] at hi
      exact ⟨.inr hx, hi⟩

theorem keeps_cut (ht : t ∈ used s L) : Keeps (tags s L \ {t}) s (cutLoose t s) := by
  have htags := h.tags_cut hr hts hsize
  refine (h.cut hr hts hsize ht).keeps_after ?_ ?_
    (fun u hu => h.cutLoose_get_old hr hts hsize hu.1 rfl)
    fun u hu => h.cutLoose_realSize hr hts hsize hu.1 hu.2
  · rw [htags]
    exact fun u hu => Set.mem_insert_of_mem _ hu.1
  · rw [htags]
    exact (h.frame_cutLoose hr hts hsize).mem

end

end Inv
end Kvi.Alloc
