import Kvi.Alloc.Steps

/-! Ranges that come and go.

`free` returns a block that is its whole range (`Inv.giveBack`), with the page
count the range was obtained with; `malloc` turns a fresh range into one block
(`Inv.obtain`). -/
namespace Kvi.Alloc

variable {s s' : Heap} {L : Layout} {r : PageRange} {t x n p size pages : Nat} {src : PageSource}
  {f : Field}

/-! ### Page counts -/

theorem pagesFor_eq (n : Nat) : pagesFor n = max pageCount ((n + 4095) / 4096) := by
  have hp : pageSize = 4096 := rfl
  have hc : pageCount = 16 := rfl
  simp only [pagesFor]
  split_ifs <;> rw [hp] at * <;> omega

/-- A range's bytes give back its page count. -/
theorem pagesFor_bytes (h : pageCount ≤ r.pages) : pagesFor r.bytes = r.pages := by
  rw [pagesFor_eq, PageRange.bytes]
  simp only [pageSize, pageCount] at h ⊢
  omega

theorem le_pagesFor (n : Nat) : n ≤ pagesFor n * pageSize := by
  rw [pagesFor_eq]
  simp only [pageSize, pageCount]
  omega

namespace Inv

/-! ### A range goes -/

/-- A block without neighbours and its range. -/
theorem whole_range (h : Inv s L) (ht : t ∈ tags s L) (hw : whole s t = true) :
    ∃ r ∈ held s.calls, r.base = t ∧ L.chain r.base = [r.base] ∧ s.get t .realSize = r.bytes := by
  obtain ⟨r, hr, htc⟩ := ht
  simp only [whole, decide_eq_true_eq] at hw
  obtain ⟨hc, hb, hs⟩ := h.regions.whole_range hr htc hw.1 hw.2
  exact ⟨r, hr, hb.symm, by rw [hc, hb], hs⟩

variable (h : Inv s L) (hr : r ∈ held s.calls) (hts : L.chain r.base = [r.base])

include h hr hts in
theorem tags_giveBack : tags (liballocFree r.base pages s) L = tags s L \ {r.base} :=
  (h.regions.drop hr hts).2

include h hr hts in
/-- The range of the block `r.base`, in use, goes back. -/
theorem giveBack (hu : r.base ∈ used s L) : Inv (liballocFree r.base pages s) L := by
  have htags : tags (liballocFree r.base pages s) L = _ := h.tags_giveBack hr hts
  refine ⟨(h.regions.drop hr hts).1.congr fun _ _ _ _ => rfl, ?_, fun x hx => ?_, h.counts, h.bounded, fun x hx => ?_,
    fun hinit => ?_⟩
  · rw [htags]
    exact (h.bins.forget hu.2).congr rfl (fun _ _ => rfl) (fun _ _ => rfl) fun _ _ => rfl
  · rw [htags] at hx
    exact h.sorted x hx.1
  · rw [htags] at hx
    exact h.coalesced x hx.1
  · have hinit : s.initialized = false := hinit
    rw [h.initialized_of_mem hu.1] at hinit
    exact absurd hinit (by decide)

include h hr hts in
theorem used_giveBack : used (liballocFree r.base pages s) L = used s L \ {r.base} := by
  ext x
  rw [mem_used, h.tags_giveBack hr hts, Set.mem_sdiff, Set.mem_sdiff, mem_used]
  constructor
  · intro ⟨⟨hx, hne⟩, hi⟩
    exact ⟨⟨hx, hi⟩, hne⟩
  · intro ⟨⟨hx, hi⟩, hne⟩
    exact ⟨⟨hx, hne⟩, hi⟩

end Inv

/-! ### A range comes -/

/-- What `allocateNewTag` writes. -/
def freshTag (tag size pages : Nat) (s : Heap) : Heap :=
  let s := s.set tag .magic LIBALLOC_MAGIC
  let s := s.set tag .size size
  let s := s.set tag .realSize (u32 (pages * pageSize))
  let s := s.set tag .index (ofInt32 (-1))
  let s := s.set tag .next 0
  let s := s.set tag .prev 0
  let s := s.set tag .splitLeft 0
  s.set tag .splitRight 0

/-- The heap with the range `r` made one block. -/
def obtained (r : PageRange) (size : Nat) (s : Heap) : Heap :=
  freshTag r.base size r.pages {s with calls := .alloc r.pages r.base :: s.calls}

theorem allocateNewTag_eq
    (hr : r = ⟨src s.calls (pagesFor (u32 (size + tagSize))), pagesFor (u32 (size + tagSize))⟩) :
    allocateNewTag src size s =
      if r.base = 0 then (0, {s with calls := .alloc r.pages r.base :: s.calls})
      else (r.base, obtained r size s) := by
  subst hr
  rfl

/-- The fields of a fresh tag. -/
def freshFields (size realSize : Nat) : Field → Nat
  | .magic => LIBALLOC_MAGIC
  | .size => size
  | .realSize => realSize
  | .index => 2 ^ 32 - 1
  | .next | .prev | .splitLeft | .splitRight => 0

theorem freshTag_get {T : Set Nat} (hT : Separate T) (ht : t ∈ T) (hx : x ∈ T)
    (hsize : size < 2 ^ 32) :
    (freshTag t size pages s).get x f =
      if x = t then freshFields size (u32 (pages * pageSize)) f else s.get x f := by
  have hsm : size % 256 ^ 4 = size := Nat.mod_eq_of_lt hsize
  have hpm : u32 (pages * pageSize) % 256 ^ 4 = u32 (pages * pageSize) :=
    Nat.mod_eq_of_lt (u32_lt _)
  have hmm : LIBALLOC_MAGIC % 256 ^ 4 = LIBALLOC_MAGIC := by decide
  have hminus : ofInt32 (-1) % 256 ^ 4 = 2 ^ 32 - 1 := by decide
  simp only [freshTag, get_set hT hx ht, Field.width, hsm, hpm, hmm, hminus]
  by_cases hxt : x = t
  · cases f <;> simp [hxt, freshFields]
  · simp [hxt]

theorem frame_freshTag {T : Set Nat} (ht : t ∈ T) : Frame T s (freshTag t size pages s) :=
  (frame_set ht).trans <| (frame_set ht).trans <| (frame_set ht).trans <| (frame_set ht).trans <|
    (frame_set ht).trans <| (frame_set ht).trans <| (frame_set ht).trans (frame_set ht)

/-- What `obtain` needs to know of the range handed out. -/
structure Fresh (rs : List PageRange) (r : PageRange) : Prop where
  nonnull : r.base ≠ 0
  stop_lt : r.stop < 2 ^ 64
  disjoint : ∀ r' ∈ rs, PageRange.Disjoint r r'
  pages : pageCount ≤ r.pages
  small : r.bytes < 2 ^ 32

namespace Inv

theorem fresh_separate (h : Inv s L) (hf : Fresh (held s.calls) r) :
    r.base ∉ tags s L ∧ Separate (insert r.base (tags s L)) := by
  have hstop := hf.stop_lt
  have hpages := hf.pages
  simp only [PageRange.stop, PageRange.bytes, pageSize, pageCount] at hstop hpages
  -- the new header lies in the new range, every other one in an old range
  have hapart : ∀ u ∈ tags s L, r.base + 48 ≤ u ∨ u + 48 ≤ r.base := by
    intro u htag
    obtain ⟨r', hr', hu⟩ := htag
    obtain ⟨hlo, hroom, hhi⟩ := h.regions.within hr' hu
    have hd := hf.disjoint r' hr'
    simp only [PageRange.Disjoint, PageRange.stop, PageRange.bytes, pageSize] at hd hhi
    omega
  exact h.separate.insert hf.nonnull (by omega) hapart

theorem frame_obtained :
    Frame (insert r.base (tags s L)) {s with calls := .alloc r.pages r.base :: s.calls}
      (obtained r size s) := frame_freshTag (Set.mem_insert ..)

section
variable (h : Inv s L) (hf : Fresh (held s.calls) r) (hsize : size < 2 ^ 32)
include h hf hsize

theorem obtained_get (hx : x ∈ insert r.base (tags s L)) :
    (obtained r size s).get x f = if x = r.base then freshFields size r.bytes f else s.get x f := by
  have hsmall := hf.small
  rw [PageRange.bytes] at hsmall
  rw [obtained, freshTag_get (h.fresh_separate hf).2 (Set.mem_insert ..) hx hsize,
    u32_of_lt (by omega)]
  rfl

theorem obtained_get_old (hx : x ∈ tags s L) : (obtained r size s).get x f = s.get x f := by
  rw [h.obtained_get hf hsize (Set.mem_insert_of_mem _ hx), if_neg]
  exact fun heq => (h.fresh_separate hf).1 (heq ▸ hx)

theorem obtained_get_new : (obtained r size s).get r.base f = freshFields size r.bytes f := by
  rw [h.obtained_get hf hsize (Set.mem_insert ..), if_pos rfl]

theorem obtained_index_new : (obtained r size s).index r.base = -1 := by
  unfold Heap.index
  rw [h.obtained_get_new hf hsize, freshFields]
  decide

theorem obtained_regions :
    Regions (obtained r size s) (held (obtained r size s).calls)
        (Function.update L.chain r.base [r.base]) ∧
      tags (obtained r size s) ⟨Function.update L.chain r.base [r.base], L.bins⟩ =
        insert r.base (tags s L) := by
  have hframe : Frame (insert r.base (tags s L)) _ (obtained r size s) := frame_obtained
  have hnew := fun f : Field => h.obtained_get_new hf hsize (f := f)
  have hpages := hf.pages
  have hbytes : 65536 ≤ r.bytes := by
    simp only [PageRange.bytes, pageSize, pageCount] at hpages ⊢
    omega
  have hchain : Chain (obtained r size s) r [r.base] := by
    refine ⟨⟨hnew .splitLeft, hnew .splitRight, trivial⟩, ⟨rfl, ?_, ?_⟩, fun t ht => ?_, fun t ht => ?_⟩
    · show 0 < (obtained r size s).get r.base .realSize
      rw [hnew, freshFields]
      omega
    · show r.base + (obtained r size s).get r.base .realSize = r.stop
      rw [hnew]
      rfl
    · rw [List.mem_singleton.mp ht, hnew]
      simp only [freshFields]
      omega
    · rw [List.mem_singleton.mp ht, hnew]
      rfl
  rw [tags, hframe.calls]
  exact h.regions.adjoin hf.disjoint hf.nonnull hf.pages hf.small hf.stop_lt hchain
    fun t ht f _ => h.obtained_get_old hf hsize ht

theorem take_range (hinit : s.initialized = true) :
    Inv (obtained r size s) ⟨Function.update L.chain r.base [r.base], L.bins⟩ := by
  have hframe : Frame (insert r.base (tags s L)) _ (obtained r size s) := frame_obtained
  obtain ⟨hregions, htags⟩ := h.obtained_regions hf hsize
  have hold : ∀ x ∈ tags s L, ∀ f, (obtained r size s).get x f = s.get x f :=
    fun x hx f => h.obtained_get_old hf hsize hx
  have hnew := fun f : Field => h.obtained_get_new hf hsize (f := f)
  have hidx : ∀ x ∈ tags s L, (obtained r size s).index x = s.index x :=
    fun x hx => index_congr (hold x hx .index)
  have hnewidx := h.obtained_index_new hf hsize
  have hfree : (obtained r size s).freePages = s.freePages := by
    simp only [obtained, freshTag, set_freePages]
  have hcount : (obtained r size s).completePages = s.completePages := by
    simp only [obtained, freshTag, set_completePages]
  refine ⟨hregions, ?_, fun x hx hi => ?_, fun j => ?_, fun j => ?_, fun x hx hr0 hi => ?_, fun hi => ?_⟩
  · rw [htags]
    exact (h.bins.congr hfree (fun x hx => hold x hx _) (fun x hx => hold x hx _)
      fun x hx => hold x hx _).adjoin hnewidx (hnew .next) (hnew .prev)
  · rw [htags] at hx
    rcases Set.mem_insert_iff.mp hx with rfl | hx
    · omega
    · rw [hidx x hx] at hi ⊢
      rw [hold x hx]
      exact h.sorted x hx hi
  · rw [hcount, h.counts j]
    refine congrArg _ (List.countP_congr fun x hx => ?_)
    have hxT := (h.mem_bin hx).1
    simp only [whole, hold x hxT]
  · rw [hcount]
    exact h.bounded j
  · rw [htags] at hx
    rcases Set.mem_insert_iff.mp hx with rfl | hx
    · omega
    · rw [hidx x hx] at hi
      rw [hold x hx] at hr0 ⊢
      rw [hidx _ (h.regions.right_mem hx hr0)]
      exact h.coalesced x hx hr0 hi
  · rw [hframe.initialized] at hi
    have hi : s.initialized = false := hi
    rw [hinit] at hi
    exact absurd hi (by decide)

theorem used_take_range :
    used (obtained r size s) ⟨Function.update L.chain r.base [r.base], L.bins⟩ =
      insert r.base (used s L) := by
  have htags := (h.obtained_regions hf hsize).2
  have hnewidx := h.obtained_index_new hf hsize
  ext x
  rw [mem_used, htags, Set.mem_insert_iff, Set.mem_insert_iff, mem_used]
  have hidx : x ∈ tags s L → (obtained r size s).index x = s.index x :=
    fun hx => index_congr (h.obtained_get_old hf hsize hx)
  constructor
  · intro ⟨hx, hi⟩
    rcases hx with hx | hx
    · exact .inl hx
    · rw [hidx hx] at hi
      exact .inr ⟨hx, hi⟩
  · intro hx
    rcases hx with rfl | ⟨hx, hi⟩
    · exact ⟨.inl rfl, by omega⟩
    · rw [← hidx hx] at hi
      exact ⟨.inr hx, hi⟩

theorem keeps_take_range (hinit : s.initialized = true) :
    Keeps (tags s L) s (obtained r size s) := by
  have htags := (h.obtained_regions hf hsize).2
  refine (h.take_range hf hsize hinit).keeps_after ?_ ?_
    (fun u hu => h.obtained_get_old hf hsize hu) fun u hu => h.obtained_get_old hf hsize hu
  · rw [htags]
    exact Set.subset_insert ..
  · rw [htags]
    exact frame_obtained.mem

end

end Inv
end Kvi.Alloc
