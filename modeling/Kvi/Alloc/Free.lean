import Kvi.Alloc.Malloc

/-! `free` from one laid-out heap to the next.

No two neighbours are both queued, so either melt loop takes at most one turn:
after it the next neighbour on that side is in use (`Inv.melt`, `Inv.absorb`).
The block left over is queued or, when it is a whole range too many, goes back
to the page layer. -/
namespace Kvi.Alloc

variable {s s' s'' : Heap} {L L' L'' : Layout} {r : PageRange} {t u x l n i p : Nat} {f : Field}

namespace Inv

/-- A queued tag with a neighbour leaves its bin without touching the count. -/
theorem takeTag_of_neighbour (h : Inv s L) (ht : t ∈ L.bins i) (hw : whole s t = false) :
    takeTag t i s = removeTag t s := by
  rw [takeTag_eq, h.whole_removeTag ht (h.mem_bin ht).1, hw]
  rfl

/-- A tag whose index is not negative is in the bin it names. -/
theorem mem_bin_of_index (h : Inv s L) (ht : t ∈ tags s L) (hi : 0 ≤ s.index t) :
    t ∈ L.bins (s.index t).toNat := by
  rw [h.bins.mem]
  exact ⟨ht, by omega⟩

/-- The left neighbour of a queued tag is in use. -/
theorem left_used (h : Inv s L) (ht : t ∈ tags s L) (hi : 0 ≤ s.index t)
    (h0 : s.get t .splitLeft ≠ 0) : s.index (s.get t .splitLeft) < 0 := by
  obtain ⟨hm, hf⟩ := (h.regions.left_or ht).resolve_left h0
  by_contra hl
  have := h.coalesced _ hm (by rw [hf]; exact h.separate.ne_zero t ht) (by omega)
  rw [hf] at this
  omega

end Inv

/-! ### One turn of a loop -/

/-- `b` became part of its left neighbour `a`, after `q`, one of the two, had left its bin. -/
structure Merged (q a b : Nat) (s s' : Heap) (L L' : Layout) : Prop where
  inv : Inv s' L'
  inUse : used s' L' = insert q (used s L) \ {b}
  keeps : Keeps (used s L \ {a}) s s'
  calls : s'.calls = s.calls
  initialized : s'.initialized = s.initialized
  old : tags s' L' ⊆ tags s L
  index : ∀ x ∈ tags s L, s'.index x = if x = q then -1 else s.index x
  left : s'.get a .splitLeft = s.get a .splitLeft
  right : s'.get a .splitRight = s.get b .splitRight

section
variable {a b q : Nat} {xs ys : List Nat}

/-- A queued tag out of its bin, then the two neighbours taken together. -/
theorem Inv.merge (h : Inv s L) (hr : r ∈ held s.calls) (hts : L.chain r.base = xs ++ a :: b :: ys)
    (hq : q ∈ L.bins i) (hqab : q = a ∨ q = b) (ha : a ∈ insert q (used s L))
    (hb : b ∈ insert q (used s L)) :
    ∃ L', Merged q a b s (takeOver a b (removeTag q s)) L L' := by
  have hlink := (h.regions.chain r hr).linked
  rw [hts] at hlink
  obtain ⟨hfwd, hback⟩ : s.get a .splitRight = b ∧ s.get b .splitLeft = a := hlink.pair
  have haT : a ∈ tags s L := ⟨r, hr, by simp [hts]⟩
  have hbT : b ∈ tags s L := ⟨r, hr, by simp [hts]⟩
  have hw : whole s q = false := by
    rcases hqab with rfl | rfl
    · simp only [whole, hfwd, h.separate.ne_zero b hbT, and_false, decide_false]
    · simp only [whole, hback, h.separate.ne_zero a haT, false_and, decide_false]
  have htake := h.take hq
  have hused := h.used_take hq
  have hkeep := h.keeps_take hq
  have hcalls := (h.frame_takeTag hq).calls
  have hinit := (h.frame_takeTag hq).initialized
  have hidx : ∀ x ∈ tags s L, (takeTag q i s).index x = if x = q then -1 else s.index x :=
    fun x hx => takeTag_index.trans
      (removeTag_index h.separate (h.bins.linkable h.separate hq) hx)
  have hget : ∀ x ∈ tags s L, ∀ f : Field, f.listed = false → (takeTag q i s).get x f = s.get x f :=
    fun x hx f hf => takeTag_get.trans (h.removeTag_get_of hq hx hf)
  have htags : tags (takeTag q i s) ⟨L.chain, Function.update L.bins i ((L.bins i).erase q)⟩ =
      tags s L := by simp only [tags, hcalls]
  rw [h.takeTag_of_neighbour hq hw] at htake hused hkeep hcalls hinit hidx hget htags
  rw [← hused] at ha hb
  have hr' : r ∈ held (removeTag q s).calls := by rw [hcalls]; exact hr
  have hT : ∀ x ∈ tags s L, x ∈ tags (removeTag q s) _ := fun x hx => htags.symm.subset hx
  have hfuse := htake.fuse hr' hts ha hb
  have hkeep' := htake.keeps_fuse hr' hts
  rw [htags] at hkeep'
  refine ⟨_, hfuse, ?_, ?_, ?_, ?_, ?_, fun x hx => ?_, ?_, ?_⟩
  · rw [htake.used_fuse hr' hts, hused]
  · exact (hkeep.mono fun u hu => hu.1.1).trans (hkeep'.mono fun u hu => ⟨hu.1.1, hu.2⟩)
  · rw [(htake.frame_fuse hr' hts).calls, hcalls]
  · rw [(htake.frame_fuse hr' hts).initialized, hinit]
  · rw [htake.tags_fuse hr' hts, htags]
    exact Set.sdiff_subset
  · rw [index_congr (htake.fuse_get hr' hts (hT x hx) rfl), hidx x hx]
  · -- `a` does not follow `b`
    have hne : a ≠ s.get b .splitRight := by
      have hab := h.regions.right_gt haT (by rw [hfwd]; exact h.separate.ne_zero b hbT)
      rw [hfwd] at hab
      by_cases h0 : s.get b .splitRight = 0
      · rw [h0]
        exact h.separate.ne_zero a haT
      · have hb := h.regions.right_gt hbT h0
        omega
    rw [htake.regions.takeOver_get hr' hts (x := a) (hT a haT), hget b hbT .splitRight rfl,
      if_neg (by simp), if_neg (by simp), if_neg fun hc => hne hc.1, hget a haT .splitLeft rfl]
  · rw [htake.regions.takeOver_get hr' hts (x := a) (hT a haT), if_neg (by simp),
      if_pos ⟨rfl, rfl⟩, hget b hbT .splitRight rfl]

/-- The invariant and all that is said of a merge are about the fields of the tags. -/
theorem Merged.congr (h : Merged q a b s s' L L') (ha : a ∈ tags s L)
    (hmem : Keeps (used s L \ {a}) s s'')
    (hcalls : s''.calls = s'.calls) (hinit : s''.initialized = s'.initialized)
    (hfree : s''.freePages = s'.freePages) (hcount : s''.completePages = s'.completePages)
    (hget : ∀ x ∈ tags s L, ∀ f, s''.get x f = s'.get x f) : Merged q a b s s'' L L' := by
  have hidx : ∀ x ∈ tags s L, s''.index x = s'.index x := fun x hx => index_congr (hget x hx .index)
  have htags : tags s'' L' = tags s' L' := by simp only [tags, hcalls]
  refine ⟨h.inv.congr hcalls hinit hfree hcount fun x hx f _ => hget x (h.old hx) f, ?_, hmem,
    hcalls.trans h.calls, hinit.trans h.initialized, htags.trans_subset h.old, fun x hx => (hidx x hx).trans (h.index x hx),
    (hget a ha _).trans h.left, (hget a ha _).trans h.right⟩
  rw [← h.inUse]
  ext x
  rw [mem_used, mem_used]
  rw [htags]
  refine and_congr_right fun hx => ?_
  rw [hidx x (h.old hx)]

theorem absorbRight_eq : absorbRight t s =
    (t, takeOver t (s.get t .splitRight) (removeTag (s.get t .splitRight) s)) := rfl

theorem meltLeft_eq : meltLeft t s =
    (s.get t .splitLeft, takeOver (s.get t .splitLeft) t s) := rfl

/-- One turn of the right loop. -/
theorem Inv.absorb (h : Inv s L) (ht : t ∈ used s L) (h0 : s.get t .splitRight ≠ 0)
    (hi : 0 ≤ s.index (s.get t .splitRight)) :
    ∃ L', Merged (s.get t .splitRight) t (s.get t .splitRight) s (absorbRight t s).2 L L' := by
  obtain ⟨r, hr, htc⟩ := ht.1
  obtain ⟨xs, ys, hts⟩ : ∃ xs ys, L.chain r.base = xs ++ t :: s.get t .splitRight :: ys :=
    (h.regions.chain r hr).linked.fwd_split htc h0
  have hm := h.regions.right_mem ht.1 h0
  simp only [absorbRight_eq]
  exact h.merge hr hts (h.mem_bin_of_index hm hi) (.inr rfl) (Set.mem_insert_of_mem _ ht)
    (Set.mem_insert ..)

/-- `melt_left` leaves the list links alone. -/
theorem Inv.melt_linkable (h : Inv s L) (hr : r ∈ held s.calls)
    (hts : L.chain r.base = xs ++ l :: t :: ys) (hl : l ∈ L.bins i) :
    Linkable (tags s L) (takeOver l t s) l := by
  have hlT := (h.mem_bin hl).1
  obtain ⟨hm, hn, hp, hn', hp'⟩ := h.bins.linkable h.separate hl
  have hnext : (takeOver l t s).get l .next = s.get l .next := h.fuse_get hr hts hlT rfl
  have hprev : (takeOver l t s).get l .prev = s.get l .prev := h.fuse_get hr hts hlT rfl
  refine ⟨hm, ?_, ?_, ?_, ?_⟩
  · rw [hnext]
    exact hn
  · rw [hprev]
    exact hp
  · rw [hnext]
    exact hn'
  · rw [hprev]
    exact hp'

/-- So `remove_tag` may as well come first. -/
theorem Inv.melt_get (h : Inv s L) (hr : r ∈ held s.calls)
    (hts : L.chain r.base = xs ++ l :: t :: ys) (hl : l ∈ L.bins i) (hx : x ∈ tags s L) (f : Field) :
    (removeTag l (takeOver l t s)).get x f = (takeOver l t (removeTag l s)).get x f := by
  have hT := h.separate
  have hlT := (h.mem_bin hl).1
  have htT : t ∈ tags s L := ⟨r, hr, by simp [hts]⟩
  have hne : l ≠ t := by
    have htile := (h.regions.chain r hr).tiles
    rw [hts] at htile
    have hadj : t = l + s.get l .realSize := htile.adjacent
    have := h.regions.room hlT
    omega
  have hright : (removeTag l s).get t .splitRight = s.get t .splitRight :=
    h.removeTag_get_of hl htT rfl
  have hreal : (removeTag l s).get t .realSize = s.get t .realSize := h.removeTag_get_of hl htT rfl
  have hreal' : (removeTag l s).get l .realSize = s.get l .realSize := h.removeTag_get_of hl hlT rfl
  have hnext : (takeOver l t s).get l .next = s.get l .next := h.fuse_get hr hts hlT rfl
  have hprev : (takeOver l t s).get l .prev = s.get l .prev := h.fuse_get hr hts hlT rfl
  have hptr := h.regions.right_ptr htT
  rw [removeTag_get hT (h.melt_linkable hr hts hl) hx,
    takeOver_get (s := removeTag l s) hT hlT htT hne (by rw [hright]; exact hptr) hx,
    takeOver_get hT hlT htT hne hptr hx, removeTag_get hT (h.bins.linkable hT hl) hx,
    hright, hreal, hreal', hnext, hprev]
  cases f <;> simp

/-- One turn of the left loop. -/
theorem Inv.melt (h : Inv s L) (ht : t ∈ used s L) (h0 : s.get t .splitLeft ≠ 0)
    (hi : 0 ≤ s.index (s.get t .splitLeft)) :
    ∃ L', Merged (s.get t .splitLeft) (s.get t .splitLeft) t s
      (removeTag (s.get t .splitLeft) (meltLeft t s).2) L L' := by
  obtain ⟨r, hr, htc⟩ := ht.1
  obtain ⟨xs, ys, hts⟩ : ∃ xs ys, L.chain r.base = xs ++ s.get t .splitLeft :: t :: ys :=
    (h.regions.chain r hr).linked.back_split htc h0
  have hm := h.regions.left_mem ht.1 h0
  have hbin := h.mem_bin_of_index hm hi
  obtain ⟨L', hmerged⟩ := h.merge hr hts hbin (.inl rfl) (Set.mem_insert ..)
    (Set.mem_insert_of_mem _ ht)
  simp only [meltLeft_eq]
  have hframe := h.frame_fuse hr hts
  have hlinkable := h.melt_linkable hr hts hbin
  have hframe' := removeTag_frame h.separate hlinkable
  have hcalls : (removeTag (s.get t .splitLeft) (takeOver (s.get t .splitLeft) t s)).calls =
      s.calls := hframe'.calls.trans hframe.calls
  have hnext : (takeOver (s.get t .splitLeft) t s).get (s.get t .splitLeft) .next =
      s.get (s.get t .splitLeft) .next := h.fuse_get hr hts hm rfl
  have hindex : (takeOver (s.get t .splitLeft) t s).index (s.get t .splitLeft) =
      s.index (s.get t .splitLeft) := index_congr (h.fuse_get hr hts hm rfl)
  have hget : ∀ x ∈ tags s L, ∀ f, _ := fun x hx f => h.melt_get hr hts hbin hx f
  refine ⟨L', hmerged.congr hm ?_ ?_ ?_ ?_ ?_ hget⟩
  · refine h.keeps (fun u hu => hu.1.1) (hframe.trans hframe').mem (fun u hu => ?_) fun u hu => ?_
    · exact (hget u hu.1.1 .size).trans (hmerged.keeps.size u hu)
    · exact (hget u hu.1.1 .realSize).trans (hmerged.keeps.realSize u hu)
  · rw [hcalls, hmerged.calls]
  · rw [hmerged.initialized]
    exact hframe'.initialized.trans hframe.initialized
  · rw [removeTag_freePages, takeOver_freePages, takeOver_freePages, removeTag_freePages, hindex,
      hnext]
  · rw [removeTag_completePages, takeOver_completePages, takeOver_completePages,
      removeTag_completePages]

end

/-! ### The loops -/

/-- The block `t` grew into `t'`; no other block in use was touched. -/
structure Melted (t t' : Nat) (s s' : Heap) (L L' : Layout) : Prop where
  inv : Inv s' L'
  inUse : used s' L' = insert t' (used s L \ {t})
  fresh : t' ∉ used s L \ {t}
  keeps : Keeps (used s L \ {t}) s s'
  calls : s'.calls = s.calls

theorem Melted.refl (h : Inv s L) (ht : t ∈ used s L) : Melted t t s s L L :=
  ⟨h, by rw [Set.insert_sdiff_self_of_mem ht], fun hm => hm.2 rfl,
    ⟨fun _ _ => rfl, fun _ _ => rfl, fun _ _ _ _ => rfl⟩, rfl⟩

theorem Melted.trans {t₁ t₂ t₃ : Nat} (h : Melted t₁ t₂ s s' L L') (h' : Melted t₂ t₃ s' s'' L' L'') :
    Melted t₁ t₃ s s'' L L'' := by
  have hsame : used s' L' \ {t₂} = used s L \ {t₁} := by
    rw [h.inUse, Set.insert_sdiff_self_of_notMem h.fresh]
  refine ⟨h'.inv, by rw [h'.inUse, hsame], hsame ▸ h'.fresh, h.keeps.trans (hsame ▸ h'.keeps),
    h'.calls.trans h.calls⟩

/-- The neighbour to the left is in use. -/
def LeftUsed (s : Heap) (t : Nat) : Prop :=
  s.get t .splitLeft ≠ 0 → s.index (s.get t .splitLeft) < 0

/-- The neighbour to the right is in use. -/
def RightUsed (s : Heap) (t : Nat) : Prop :=
  s.get t .splitRight ≠ 0 → s.index (s.get t .splitRight) < 0

theorem meltLeftLoop_stop (h : LeftUsed s t) : meltLeftLoop t s = some (t, s) := by
  rw [meltLeftLoop, if_neg]
  intro ⟨h0, hi⟩
  have := h h0
  omega

theorem meltRightLoop_stop (h : RightUsed s t) : meltRightLoop t s = some (t, s) := by
  rw [meltRightLoop, if_neg]
  intro ⟨h0, hi⟩
  have := h h0
  omega

theorem meltLeftLoop_step (h : s.get t .splitLeft ≠ 0 ∧ 0 ≤ s.index (s.get t .splitLeft)) :
    meltLeftLoop t s = meltLeftLoop (s.get t .splitLeft)
      (removeTag (s.get t .splitLeft) (meltLeft t s).2) := by
  rw [meltLeftLoop, if_pos h]
  simp only [meltLeft_eq]

theorem meltRightLoop_step (h : s.get t .splitRight ≠ 0 ∧ 0 ≤ s.index (s.get t .splitRight)) :
    meltRightLoop t s = meltRightLoop t (absorbRight t s).2 := by
  rw [meltRightLoop, if_pos h]
  simp only [absorbRight_eq]

/-- After a turn of the left loop the next neighbour is in use. -/
theorem Inv.melt_leftUsed (h : Inv s L) (ht : t ∈ used s L) (h0 : s.get t .splitLeft ≠ 0)
    (hi : 0 ≤ s.index (s.get t .splitLeft)) :
    LeftUsed (removeTag (s.get t .splitLeft) (meltLeft t s).2) (s.get t .splitLeft) := by
  have hl := h.regions.left_mem ht.1 h0
  obtain ⟨L', hm⟩ := h.melt ht h0 hi
  intro hl0
  rw [hm.left] at hl0 ⊢
  rw [hm.index _ (h.regions.left_mem hl hl0)]
  split
  · decide
  · exact h.left_used hl hi hl0

/-- What the left loop leaves. -/
theorem Inv.meltLeftLoop (h : Inv s L) (ht : t ∈ used s L) :
    ∃ t' s' L', Alloc.meltLeftLoop t s = some (t', s') ∧ Melted t t' s s' L L' ∧
      t' ∈ used s' L' ∧ LeftUsed s' t' ∧ tags s' L' ⊆ tags s L := by
  by_cases hcond : s.get t .splitLeft ≠ 0 ∧ 0 ≤ s.index (s.get t .splitLeft)
  · have hstep := meltLeftLoop_step hcond
    have hset := h.melt_leftUsed ht hcond.1 hcond.2
    have hmelt := h.melt ht hcond.1 hcond.2
    have hlu : s.get t .splitLeft ∉ used s L := fun hu => absurd hu.2 (by omega)
    generalize removeTag (s.get t .splitLeft) (meltLeft t s).2 = s' at hstep hmelt hset
    generalize s.get t .splitLeft = l at hstep hmelt hlu hset
    obtain ⟨L', hm⟩ := hmelt
    have hne : l ≠ t := by
      intro heq
      rw [heq] at hlu
      exact hlu ht
    have hused : used s' L' = insert l (used s L \ {t}) := by
      rw [hm.inUse, Set.insert_sdiff_of_notMem _ (fun heq => hne (Set.mem_singleton_iff.mp heq))]
    refine ⟨l, s', L', hstep.trans (meltLeftLoop_stop hset),
      ⟨hm.inv, hused, fun hu => hlu hu.1, hm.keeps.mono fun u hu => ⟨hu.1, ?_⟩, hm.calls⟩, ?_, hset,
      hm.old⟩
    · intro heq
      rw [Set.mem_singleton_iff.mp heq] at hu
      exact hlu hu.1
    · rw [hused]
      exact Set.mem_insert ..
  · have hset : LeftUsed s t := by
      intro h0
      by_contra hi
      exact hcond ⟨h0, by omega⟩
    exact ⟨t, s, L, meltLeftLoop_stop hset, Melted.refl h ht, ht, hset, subset_rfl⟩

/-- After a turn of the right loop the next neighbour is in use. -/
theorem Inv.absorb_rightUsed (h : Inv s L) (ht : t ∈ used s L) (h0 : s.get t .splitRight ≠ 0)
    (hi : 0 ≤ s.index (s.get t .splitRight)) : RightUsed (absorbRight t s).2 t := by
  have hr := h.regions.right_mem ht.1 h0
  obtain ⟨L', hm⟩ := h.absorb ht h0 hi
  intro hr0
  rw [hm.right] at hr0 ⊢
  rw [hm.index _ (h.regions.right_mem hr hr0)]
  split
  · decide
  · exact h.coalesced _ hr hr0 hi

/-- What the right loop leaves. -/
theorem Inv.meltRightLoop (h : Inv s L) (ht : t ∈ used s L) (hl : LeftUsed s t) :
    ∃ s' L', Alloc.meltRightLoop t s = some (t, s') ∧ Melted t t s s' L L' ∧
      t ∈ used s' L' ∧ LeftUsed s' t ∧ RightUsed s' t ∧ tags s' L' ⊆ tags s L := by
  by_cases hcond : s.get t .splitRight ≠ 0 ∧ 0 ≤ s.index (s.get t .splitRight)
  · have hstep := meltRightLoop_step hcond
    have hset := h.absorb_rightUsed ht hcond.1 hcond.2
    have habsorb := h.absorb ht hcond.1 hcond.2
    have hru : s.get t .splitRight ∉ used s L := fun hu => absurd hu.2 (by omega)
    generalize (absorbRight t s).2 = s' at hstep habsorb hset
    generalize s.get t .splitRight = x at habsorb hru
    obtain ⟨L', hm⟩ := habsorb
    have hused : used s' L' = used s L := by
      rw [hm.inUse, Set.insert_sdiff_self_of_notMem hru]
    have hlset : LeftUsed s' t := by
      intro h0
      rw [hm.left] at h0 ⊢
      rw [hm.index _ (h.regions.left_mem ht.1 h0)]
      split
      · decide
      · exact hl h0
    refine ⟨s', L', hstep.trans (meltRightLoop_stop hset),
      ⟨hm.inv, ?_, fun hu => hu.2 rfl, hm.keeps, hm.calls⟩, ?_, hlset, hset, hm.old⟩
    · rw [hused, Set.insert_sdiff_self_of_mem ht]
    · rw [hused]
      exact ht
  · have hset : RightUsed s t := by
      intro h0
      by_contra hi
      exact hcond ⟨h0, by omega⟩
    exact ⟨s, L, meltRightLoop_stop hset, Melted.refl h ht, ht, hl, hset, subset_rfl⟩

/-! ### Into a bin or back to the page layer -/

/-- `free` of the block `t`: what a caller may rely on. -/
structure Freed (t : Nat) (s s' : Heap) (L L' : Layout) : Prop where
  inv : Inv s' L'
  inUse : used s' L' = used s L \ {t}
  keeps : Keeps (used s L \ {t}) s s'
  /-- A range goes back under the base and page count it was obtained with. -/
  calls : s'.calls = s.calls ∨
    ∃ r ∈ held s.calls, s'.calls = .free r.base r.pages :: s.calls

theorem release_eq : release t s =
    if whole s t then
      if s.completePages (binIndex (s.get t .realSize)).toNat = MAXCOMPLETE then
        liballocFree t (pagesFor (s.get t .realSize)) s
      else insertTag t (binIndex (s.get t .realSize))
        (s.addCompletePages (binIndex (s.get t .realSize)).toNat 1)
    else insertTag t (binIndex (s.get t .realSize)) s := by
  simp only [release, whole, decide_eq_true_eq]

theorem Inv.release (h : Inv s L) (ht : t ∈ used s L) (hl : LeftUsed s t) (hr : RightUsed s t) :
    ∃ L', Freed t s (Alloc.release t s) L L' ∧ tags (Alloc.release t s) L' ⊆ tags s L := by
  obtain ⟨i, hi, _⟩ := h.bin_eq ht.1
  have hi' : (binIndex (s.get t .realSize)).toNat = i := by omega
  have hbounded := h.bounded i
  have hqueue : ∀ d : Int, d = (if whole s t then 1 else 0) → s.completePages i + d ≤ MAXCOMPLETE →
      Freed t s (insertTag t (binIndex (s.get t .realSize)) (s.addCompletePages i d)) L
        ⟨L.chain, Function.update L.bins i (t :: L.bins i)⟩ := fun d hd hle =>
    ⟨h.queue ht (.inr rfl) hi hd hle hl hr, h.used_queue ht (.inr rfl),
      (h.keeps_queue ht).mono fun u hu => hu.1.1, .inl (h.frame_queue ht.1).calls⟩
  have htags : ∀ d : Int, tags (insertTag t (binIndex (s.get t .realSize)) (s.addCompletePages i d))
      ⟨L.chain, Function.update L.bins i (t :: L.bins i)⟩ ⊆ tags s L := fun d => by
    rw [tags, (h.frame_queue ht.1).calls]
    exact subset_rfl
  rw [release_eq, hi']
  by_cases hw : whole s t = true
  · rw [if_pos hw]
    by_cases hmax : s.completePages i = MAXCOMPLETE
    · obtain ⟨r, hheld, rfl, hts, hreal⟩ := h.whole_range ht.1 hw
      rw [if_pos hmax, hreal, pagesFor_bytes (h.regions.pages r hheld)]
      refine ⟨L, ⟨h.giveBack hheld hts ht, h.used_giveBack hheld hts,
        ⟨fun _ _ => rfl, fun _ _ => rfl, fun _ _ _ _ => rfl⟩, .inr ⟨r, hheld, rfl⟩⟩, ?_⟩
      rw [h.tags_giveBack hheld hts]
      exact Set.sdiff_subset
    · rw [if_neg hmax]
      exact ⟨_, hqueue 1 (by rw [if_pos hw]) (by omega), htags 1⟩
  · have hzero := hqueue 0 (by rw [if_neg hw]) (by omega)
    have hzero' := htags 0
    rw [addCompletePages_zero] at hzero hzero'
    rw [if_neg hw]
    exact ⟨_, hzero, hzero'⟩

/-- `free` of a block in use ends, and touches no other block in use. It makes no new tag. -/
theorem Inv.free (h : Inv s L) (ht : t ∈ used s L) :
    ∃ s' L', Alloc.free (t + 48) s = some s' ∧ Freed t s s' L L' ∧ tags s' L' ⊆ tags s L := by
  obtain ⟨hlt, hend, h0⟩ := h.regions.block_lt ht.1
  have hroom := h.regions.room ht.1
  have htag : sub64 (t + 48) tagSize = t := sub64_tagSize (by omega)
  have hmagic : s.get t .magic = LIBALLOC_MAGIC := by
    obtain ⟨r, hr, htc⟩ := ht.1
    exact (h.regions.chain r hr).magic t htc
  obtain ⟨t', s₁, L₁, hloop, hm, hu, hset, hsub₁⟩ := h.meltLeftLoop ht
  obtain ⟨s₂, L₂, hloop', hm', hu', hl, hr, hsub₂⟩ := hm.inv.meltRightLoop hu hset
  obtain ⟨L', hf, hsub⟩ := hm'.inv.release hu' hl hr
  have hall := hm.trans hm'
  have hsame : used s₂ L₂ \ {t'} = used s L \ {t} := by
    rw [hall.inUse, Set.insert_sdiff_self_of_notMem hall.fresh]
  refine ⟨Alloc.release t' s₂, L', ?_, ⟨hf.inv, hf.inUse.trans hsame, ?_, ?_⟩,
    hsub.trans (hsub₂.trans hsub₁)⟩
  · simp only [Alloc.free, htag, hmagic, hloop, hloop', ne_eq, not_true_eq_false, if_false,
      Option.bind_eq_bind, Option.bind_some]
    rw [if_neg (by omega)]
  · have hk := hf.keeps
    rw [hsame] at hk
    exact hall.keeps.trans hk
  · rw [← hall.calls]
    exact hf.calls

end Kvi.Alloc
