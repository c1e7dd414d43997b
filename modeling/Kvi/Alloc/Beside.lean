import Kvi.Alloc.Reuse

/-! What `free` does not depend on.

`free` reads the header of the block, those of its neighbours and the bins; what
it writes to the list links of other tags it does not read back. So on two heaps
that differ inside a set of bytes `D` away from the block's page range, and in
the log, it takes the same course and leaves heaps that differ the same way
(`Beside.free`). -/
namespace Kvi.Alloc

/-- Same bins and counters, and the same bytes outside `D`. -/
structure Beside (D : Set Nat) (s s' : Heap) : Prop where
  mem : ∀ b, b ∉ D → s'.mem b = s.mem b
  freePages : s'.freePages = s.freePages
  completePages : s'.completePages = s.completePages

/-- The header at `x` lies outside `D`. -/
def Off (D : Set Nat) (x : Nat) : Prop := ∀ b, x ≤ b → b < x + 48 → b ∉ D

variable {D : Set Nat} {s s' s₂ : Heap} {L L' : Layout} {r : PageRange} {x t u n p : Nat} {f : Field}
  {v : Nat} {i : Int}

namespace Beside

theorem get (h : Beside D s s₂) (hx : Off D x) : s₂.get x f = s.get x f :=
  get_congr fun b hlo hhi => h.mem b (hx b hlo hhi)

theorem index (h : Beside D s s₂) (hx : Off D x) : s₂.index x = s.index x := index_congr (h.get hx)

theorem set (h : Beside D s s₂) : Beside D (s.set x f v) (s₂.set x f v) := by
  refine ⟨fun b hb => ?_, h.freePages, h.completePages⟩
  show Memory.store _ _ _ _ b = Memory.store _ _ _ _ b
  unfold Memory.store
  rw [h.mem b hb]

theorem setThrough (h : Beside D s s₂) : Beside D (s.setThrough x f v) (s₂.setThrough x f v) := by
  unfold Heap.setThrough
  by_cases hx : x ≠ 0
  · rw [if_pos hx, if_pos hx]
    exact h.set
  · rw [if_neg hx, if_neg hx]
    exact h

theorem setFreePages (h : Beside D s s₂) : Beside D (s.setFreePages n t) (s₂.setFreePages n t) := by
  refine ⟨h.mem, ?_, h.completePages⟩
  rw [setFreePages_freePages, setFreePages_freePages, h.freePages]

theorem addCompletePages (h : Beside D s s₂) :
    Beside D (s.addCompletePages n i) (s₂.addCompletePages n i) := by
  refine ⟨h.mem, h.freePages, ?_⟩
  rw [addCompletePages_completePages, addCompletePages_completePages, h.completePages]

/-! ### The operations -/

theorem dropHead (h : Beside D s s₂) (ht : Off D t) : Beside D (dropHead t s) (dropHead t s₂) := by
  simp only [Alloc.dropHead, h.index ht, h.freePages, h.get ht]
  by_cases hc : s.freePages (s.index t).toNat = t
  · rw [if_pos hc, if_pos hc]
    exact h.setFreePages
  · rw [if_neg hc, if_neg hc]
    exact h

theorem removeTag (h : Beside D s s₂) (ht : Off D t) : Beside D (removeTag t s) (removeTag t s₂) := by
  have h₁ := h.dropHead ht
  have h₂ := h₁.setThrough (x := (Alloc.dropHead t s).get t .prev) (f := .next)
    (v := (Alloc.dropHead t s).get t .next)
  unfold Alloc.removeTag
  simp only [h₁.get ht, h₂.get ht]
  exact h₂.setThrough.set.set.set

theorem takeOver (h : Beside D s s₂) (ht : Off D t) (hu : Off D u) :
    Beside D (takeOver t u s) (takeOver t u s₂) := by
  have h₁ := h.set (x := t) (f := .realSize) (v := u32 (s.get t .realSize + s.get u .realSize))
  unfold Alloc.takeOver
  simp only [h.get ht, h.get hu, h₁.get hu]
  have h₂ := h₁.set (x := t) (f := .splitRight)
    (v := (s.set t .realSize (u32 (s.get t .realSize + s.get u .realSize))).get u .splitRight)
  rw [h₂.get hu]
  exact h₂.setThrough

theorem insertTag_of (h : Beside D s s₂) (hindex : realIndex s₂ t i = realIndex s t i) :
    Beside D (insertTag t i s) (insertTag t i s₂) := by
  have hlink : ∀ {s s₂ : Heap} {n : Nat}, Beside D s s₂ → Beside D (linkHead t n s) (linkHead t n s₂) := by
    intro s s₂ n h
    unfold linkHead
    rw [h.freePages]
    by_cases hc : s.freePages n ≠ 0
    · rw [if_pos hc, if_pos hc]
      exact h.set.set
    · rw [if_neg hc, if_neg hc]
      exact h
  simp only [Alloc.insertTag, hindex]
  exact (hlink h.set).setFreePages

theorem insertTag (h : Beside D s s₂) (ht : Off D t) :
    Beside D (insertTag t i s) (insertTag t i s₂) := by
  refine h.insertTag_of ?_
  unfold realIndex
  rw [h.get ht]

/-- The end of `free` calls the page layer on both heaps or on neither. -/
theorem release (h : Beside D s s₂) (ht : Off D t) :
    Beside D (release t s) (release t s₂) ∧
      ∃ new, (Alloc.release t s).calls = new ++ s.calls ∧ (Alloc.release t s₂).calls = new ++ s₂.calls := by
  have hwhole : whole s₂ t = whole s t := by simp only [whole, h.get ht]
  rw [release_eq, release_eq, hwhole, h.get ht, h.completePages]
  by_cases hw : whole s t = true
  · rw [if_pos hw, if_pos hw]
    by_cases hmax : s.completePages (binIndex (s.get t .realSize)).toNat = MAXCOMPLETE
    · rw [if_pos hmax, if_pos hmax]
      exact ⟨⟨h.mem, h.freePages, h.completePages⟩, [.free t (pagesFor (s.get t .realSize))], rfl, rfl⟩
    · rw [if_neg hmax, if_neg hmax]
      exact ⟨h.addCompletePages.insertTag ht, [], insertTag_calls, insertTag_calls⟩
  · rw [if_neg hw, if_neg hw]
    exact ⟨h.insertTag ht, [], insertTag_calls, insertTag_calls⟩

end Beside

theorem takeOver_calls : (takeOver t u s).calls = s.calls := by
  simp only [takeOver, set_calls, setThrough_calls]

/-- Bytes of `D` lie outside the range. -/
def Away (D : Set Nat) (r : PageRange) : Prop := ∀ b, r.base ≤ b → b < r.stop → b ∉ D

theorem Inv.off (h : Inv s L) (hr : r ∈ held s.calls) (hD : Away D r) (hx : x ∈ L.chain r.base) :
    Off D x := by
  obtain ⟨hlo, hroom, hhi⟩ := h.regions.within hr hx
  exact fun b hb hb' => hD b (by omega) (by omega)

/-- Memory and log alone say where the tags are. -/
theorem Inv.tags_eq (h : Inv s L) (h' : Inv s' L') (hmem : s'.mem = s.mem)
    (hcalls : s'.calls = s.calls) : tags s' L' = tags s L := by
  have hget : ∀ t f, s'.get t f = s.get t f := by
    intro t f
    unfold Heap.get
    rw [hmem]
  have hchain : ∀ r ∈ held s.calls, L'.chain r.base = L.chain r.base := by
    intro r hr
    have htiles := (h'.regions.chain r (by rwa [hcalls])).tiles
    exact (htiles.congr fun t _ => (hget t _).symm).unique (h.regions.chain r hr).tiles
  unfold tags
  rw [hcalls]
  ext t
  constructor
  · intro ⟨r, hr, ht⟩
    exact ⟨r, hr, by rwa [← hchain r hr]⟩
  · intro ⟨r, hr, ht⟩
    exact ⟨r, hr, by rwa [hchain r hr]⟩

theorem Clear.mono {T T' : Set Nat} {b : Nat} (h : Clear T b) (hT : T' ⊆ T) : Clear T' b :=
  fun t ht => h t (hT ht)

/-! ### The loops -/

/-- One turn of the left loop writes headers only. -/
theorem Inv.melt_frame (h : Inv s L) (ht : t ∈ used s L) (h0 : s.get t .splitLeft ≠ 0)
    (hi : 0 ≤ s.index (s.get t .splitLeft)) :
    Frame (tags s L) s (removeTag (s.get t .splitLeft) (meltLeft t s).2) := by
  obtain ⟨r, hr, htc⟩ := ht.1
  obtain ⟨xs, ys, hts⟩ : ∃ xs ys, L.chain r.base = xs ++ s.get t .splitLeft :: t :: ys :=
    (h.regions.chain r hr).linked.back_split htc h0
  have hm := h.regions.left_mem ht.1 h0
  simp only [meltLeft_eq]
  exact (h.frame_fuse hr hts).trans
    (removeTag_frame h.separate (h.melt_linkable hr hts (h.mem_bin_of_index hm hi)))

/-- So does one turn of the right loop. -/
theorem Inv.absorb_frame (h : Inv s L) (ht : t ∈ used s L) (h0 : s.get t .splitRight ≠ 0)
    (hi : 0 ≤ s.index (s.get t .splitRight)) : Frame (tags s L) s (absorbRight t s).2 := by
  obtain ⟨hm, hadj, _⟩ := (h.regions.right_or ht.1).resolve_left h0
  have hbin := h.mem_bin_of_index hm hi
  have hroom := h.regions.room ht.1
  have hright : (removeTag (s.get t .splitRight) s).get (s.get t .splitRight) .splitRight =
      s.get (s.get t .splitRight) .splitRight := h.removeTag_get_of hbin hm rfl
  simp only [absorbRight_eq]
  refine (removeTag_frame h.separate (h.bins.linkable h.separate hbin)).trans
    (takeOver_frame h.separate ht.1 hm (by omega) ?_)
  rw [hright]
  exact h.regions.right_ptr hm

theorem Inv.release_mem (h : Inv s L) (ht : t ∈ used s L) {b : Nat} (hc : Clear (tags s L) b) :
    (Alloc.release t s).mem b = s.mem b := by
  have hqueue : ∀ i d, (insertTag t i (s.addCompletePages (binIndex (s.get t .realSize)).toNat d)).mem b =
      s.mem b := fun i d => (h.frame_queue ht.1).mem b hc
  rw [release_eq]
  by_cases hw : whole s t = true
  · rw [if_pos hw]
    by_cases hmax : s.completePages (binIndex (s.get t .realSize)).toNat = MAXCOMPLETE
    · rw [if_pos hmax]
      rfl
    · rw [if_neg hmax]
      exact hqueue _ 1
  · rw [if_neg hw]
    have hzero := hqueue (binIndex (s.get t .realSize)) 0
    rwa [addCompletePages_zero] at hzero

section
variable (h : Inv s L) (ht : t ∈ used s L) (hr : r ∈ held s.calls) (htr : t ∈ L.chain r.base)
  (hD : Away D r) (hb : Beside D s s₂)
include h ht hr htr hD hb

theorem Inv.meltLeftLoop_beside : ∃ t' s' s₂' L', Alloc.meltLeftLoop t s = some (t', s') ∧
    Alloc.meltLeftLoop t s₂ = some (t', s₂') ∧ Beside D s' s₂' ∧ s₂'.calls = s₂.calls ∧
    Melted t t' s s' L L' ∧ t' ∈ used s' L' ∧ LeftUsed s' t' ∧ t' ∈ L.chain r.base ∧
    Frame (tags s L) s s' ∧ tags s' L' ⊆ tags s L := by
  have hchain : ∀ x ∈ L.chain r.base, s.get x .splitLeft = 0 ∨ s.get x .splitLeft ∈ L.chain r.base :=
    fun x hx => ((h.regions.chain r hr).linked.back_or hx).imp id fun hm => hm.1
  obtain ⟨t', s', L', hloop, hm, hu, hset, hsub⟩ := h.meltLeftLoop ht
  by_cases hcond : s.get t .splitLeft ≠ 0 ∧ 0 ≤ s.index (s.get t .splitLeft)
  · have hl := (hchain t htr).resolve_left hcond.1
    have hoff := h.off hr hD hl
    have hnext : Beside D (removeTag (s.get t .splitLeft) (meltLeft t s).2)
        (removeTag (s.get t .splitLeft) (meltLeft t s₂).2) := by
      simp only [meltLeft_eq, hb.get (h.off hr hD htr)]
      exact (hb.takeOver hoff (h.off hr hD htr)).removeTag hoff
    have hcond₂ : s₂.get t .splitLeft ≠ 0 ∧ 0 ≤ s₂.index (s₂.get t .splitLeft) := by
      rw [hb.get (h.off hr hD htr), hb.index hoff]
      exact hcond
    have hstep := (meltLeftLoop_step hcond).symm.trans hloop
    have hstop := meltLeftLoop_stop (h.melt_leftUsed ht hcond.1 hcond.2)
    obtain ⟨rfl, rfl⟩ := Prod.mk.inj (Option.some.inj (hstop.symm.trans hstep))
    -- the loop stops on the other heap too
    have hstop₂ : LeftUsed (removeTag (s.get t .splitLeft) (meltLeft t s₂).2) (s.get t .splitLeft) := by
      intro h0
      rw [hnext.get hoff] at h0 ⊢
      obtain ⟨L₁, hm₁⟩ := h.melt ht hcond.1 hcond.2
      have hll := (hchain _ hl).resolve_left (by rw [← hm₁.left]; exact h0)
      rw [hnext.index (by rw [hm₁.left]; exact h.off hr hD hll)]
      exact hset h0
    refine ⟨_, _, _, L', hloop, ?_, hnext, ?_, hm, hu, hset, hl, h.melt_frame ht hcond.1 hcond.2, hsub⟩
    · rw [meltLeftLoop_step hcond₂, hb.get (h.off hr hD htr)]
      exact meltLeftLoop_stop hstop₂
    · rw [removeTag_calls, meltLeft_eq, takeOver_calls]
  · have hset₀ : LeftUsed s t := by
      intro h0
      by_contra hi
      exact hcond ⟨h0, by omega⟩
    obtain ⟨rfl, rfl⟩ := Prod.mk.inj (Option.some.inj ((meltLeftLoop_stop hset₀).symm.trans hloop))
    refine ⟨t, s, s₂, L', hloop, meltLeftLoop_stop fun h0 => ?_, hb, rfl, hm, hu, hset, htr,
      Frame.refl s, hsub⟩
    rw [hb.get (h.off hr hD htr)] at h0 ⊢
    rw [hb.index (h.off hr hD ((hchain t htr).resolve_left h0))]
    exact hset₀ h0

theorem Inv.meltRightLoop_beside (hl : LeftUsed s t) : ∃ s' s₂' L',
    Alloc.meltRightLoop t s = some (t, s') ∧ Alloc.meltRightLoop t s₂ = some (t, s₂') ∧
    Beside D s' s₂' ∧ s₂'.calls = s₂.calls ∧ Melted t t s s' L L' ∧ t ∈ used s' L' ∧
    LeftUsed s' t ∧ RightUsed s' t ∧ Frame (tags s L) s s' ∧ tags s' L' ⊆ tags s L := by
  have hchain : ∀ x ∈ L.chain r.base, s.get x .splitRight = 0 ∨ s.get x .splitRight ∈ L.chain r.base :=
    fun x hx => ((h.regions.chain r hr).linked.fwd_or hx).imp id fun hm => hm.1
  have hoff := h.off hr hD htr
  obtain ⟨s', L', hloop, hm, hu, hlset, hset, hsub⟩ := h.meltRightLoop ht hl
  by_cases hcond : s.get t .splitRight ≠ 0 ∧ 0 ≤ s.index (s.get t .splitRight)
  · have hx := (hchain t htr).resolve_left hcond.1
    have hoffx := h.off hr hD hx
    have hnext : Beside D (absorbRight t s).2 (absorbRight t s₂).2 := by
      simp only [absorbRight_eq, hb.get hoff]
      exact (hb.removeTag hoffx).takeOver hoff hoffx
    have hcond₂ : s₂.get t .splitRight ≠ 0 ∧ 0 ≤ s₂.index (s₂.get t .splitRight) := by
      rw [hb.get hoff, hb.index hoffx]
      exact hcond
    have hstep := (meltRightLoop_step hcond).symm.trans hloop
    have hstop := meltRightLoop_stop (h.absorb_rightUsed ht hcond.1 hcond.2)
    obtain ⟨_, rfl⟩ := Prod.mk.inj (Option.some.inj (hstop.symm.trans hstep))
    have hstop₂ : RightUsed (absorbRight t s₂).2 t := by
      intro h0
      rw [hnext.get hoff] at h0 ⊢
      obtain ⟨L₁, hm₁⟩ := h.absorb ht hcond.1 hcond.2
      have hrr := (hchain _ hx).resolve_left (by rw [← hm₁.right]; exact h0)
      rw [hnext.index (by rw [hm₁.right]; exact h.off hr hD hrr)]
      exact hset h0
    refine ⟨_, _, L', hloop, ?_, hnext, ?_, hm, hu, hlset, hset, h.absorb_frame ht hcond.1 hcond.2,
      hsub⟩
    · rw [meltRightLoop_step hcond₂]
      exact meltRightLoop_stop hstop₂
    · rw [absorbRight_eq, takeOver_calls, removeTag_calls]
  · have hset₀ : RightUsed s t := by
      intro h0
      by_contra hi
      exact hcond ⟨h0, by omega⟩
    obtain ⟨_, rfl⟩ := Prod.mk.inj (Option.some.inj ((meltRightLoop_stop hset₀).symm.trans hloop))
    refine ⟨s, s₂, L', hloop, meltRightLoop_stop fun h0 => ?_, hb, rfl, hm, hu, hlset, hset,
      Frame.refl s, hsub⟩
    rw [hb.get hoff] at h0 ⊢
    rw [hb.index (h.off hr hD ((hchain t htr).resolve_left h0))]
    exact hset₀ h0

/-- `free` of a block takes the same course beside bytes outside the block's page range. It writes
headers only. -/
theorem Inv.free_beside : ∃ s' s₂' L', Alloc.free (t + 48) s = some s' ∧
    Alloc.free (t + 48) s₂ = some s₂' ∧ Beside D s' s₂' ∧ Freed t s s' L L' ∧
    (∀ b, Clear (tags s L) b → s'.mem b = s.mem b) ∧
    ∃ new, s'.calls = new ++ s.calls ∧ s₂'.calls = new ++ s₂.calls := by
  obtain ⟨hlt, hend, h0⟩ := h.regions.block_lt ht.1
  have hroom := h.regions.room ht.1
  have htag : sub64 (t + 48) tagSize = t := sub64_tagSize (by omega)
  have hmagic : s.get t .magic = LIBALLOC_MAGIC := (h.regions.chain r hr).magic t htr
  have hmagic₂ : s₂.get t .magic = LIBALLOC_MAGIC := by rw [hb.get (h.off hr hD htr), hmagic]
  obtain ⟨t', s₁, s₂₁, L₁, hloop, hloop₂, hb₁, hc₁, hm₁, hu₁, hset₁, hchain, hf₁, hT₁⟩ :=
    h.meltLeftLoop_beside ht hr htr hD hb
  -- the block grew inside its range
  have hr₁ : r ∈ held s₁.calls := by rwa [hm₁.calls]
  have htr₁ : t' ∈ L₁.chain r.base := by
    obtain ⟨r₁, hheld, htc⟩ := hu₁.1
    have hw := h.regions.within hr hchain
    have hw₁ := hm₁.inv.regions.within hheld htc
    rcases hm₁.inv.regions.apart_or hheld hr₁ with heq | hd
    · rwa [heq] at htc
    · rcases hd with hd | hd <;> omega
  obtain ⟨s₃, s₂₃, L₃, hloop', hloop₂', hb₃, hc₃, hm₃, hu₃, hl₃, hr₃, hf₃, hT₃⟩ :=
    hm₁.inv.meltRightLoop_beside hu₁ hr₁ htr₁ hD hb₁ hset₁
  have htr₃ : Off D t' := hm₁.inv.off hr₁ hD htr₁
  obtain ⟨hb', new, hnew, hnew₂⟩ := hb₃.release htr₃
  obtain ⟨s', L', heq, hf, _⟩ := h.free ht
  have hfree : Alloc.free (t + 48) s = some (Alloc.release t' s₃) := by
    simp only [Alloc.free, htag, hmagic, hloop, hloop', ne_eq, not_true_eq_false, if_false,
      Option.bind_eq_bind, Option.bind_some]
    rw [if_neg (by omega)]
  have hs' : s' = Alloc.release t' s₃ := Option.some.inj (heq.symm.trans hfree)
  rw [hs'] at hf
  refine ⟨_, _, L', hfree, ?_, hb', hf, fun b hc => ?_, new, ?_, ?_⟩
  · simp only [Alloc.free, htag, hmagic₂, hloop₂, hloop₂', ne_eq, not_true_eq_false, if_false,
      Option.bind_eq_bind, Option.bind_some]
    rw [if_neg (by omega)]
  · rw [hm₃.inv.release_mem hu₃ ((hc.mono hT₁).mono hT₃), hf₃.mem b (hc.mono hT₁), hf₁.mem b hc]
  · rw [hnew, hm₃.calls, hm₁.calls]
  · rw [hnew₂, hc₃, hc₁]

end

end Kvi.Alloc
