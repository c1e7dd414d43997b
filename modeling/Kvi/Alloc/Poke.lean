import Kvi.Alloc.Free

/-! A byte written meanwhile.

The owner of a block may write into it while another processor is in `malloc` or
`free`. The functions of `alloc.c` read headers and nothing else, so the byte changes
neither what they do nor what they return: written before or after, the heap is the
same (`Inv.carve_poke`, `Inv.release_poke`). -/
namespace Kvi.Alloc

/-- One byte of memory written. -/
def Heap.poke (s : Heap) (a : Nat) (v : UInt8) : Heap := {s with mem := Function.update s.mem a v}

/-- The same byte written after a call. -/
def poked (a : Nat) (v : UInt8) (r : Nat × Heap) : Nat × Heap := (r.1, r.2.poke a v)

variable {T : Set Nat} {s s' : Heap} {L L' : Layout} {t u a p n i tag left right : Nat} {v : UInt8}
  {f : Field} {w : Nat} {k d : Int} {src : PageSource} {ts : List Nat}

@[simp] theorem poke_calls : (s.poke a v).calls = s.calls := rfl

@[simp] theorem poke_freePages : (s.poke a v).freePages = s.freePages := rfl

@[simp] theorem poke_completePages : (s.poke a v).completePages = s.completePages := rfl

@[simp] theorem poke_initialized : (s.poke a v).initialized = s.initialized := rfl

theorem setFreePages_poke : (s.poke a v).setFreePages i t = (s.setFreePages i t).poke a v := rfl

theorem addCompletePages_poke :
    (s.poke a v).addCompletePages i d = (s.addCompletePages i d).poke a v := rfl

section
variable (hc : Clear T a)
include hc

theorem get_poke (ht : t ∈ T) : (s.poke a v).get t f = s.get t f := by
  refine get_congr fun b hlo hhi => ?_
  have := hc t ht
  exact Function.update_of_ne (by omega) ..

theorem index_poke (ht : t ∈ T) : (s.poke a v).index t = s.index t := index_congr (get_poke hc ht)

theorem set_poke (ht : t ∈ T) : (s.poke a v).set t f w = (s.set t f w).poke a v := by
  have hmem : Memory.store (Function.update s.mem a v) (t + f.offset) f.width w =
      Function.update (s.mem.store (t + f.offset) f.width w) a v := by
    funext b
    by_cases hb : b = a
    · subst hb
      have hf := f.fits_tag
      have := hc t ht
      rw [Memory.store_outside (by omega), Function.update_self, Function.update_self]
    · rw [Function.update_of_ne hb, Memory.store, Memory.store, Function.update_of_ne hb]
  rw [Heap.set, Heap.poke, hmem]
  rfl

theorem setThrough_poke (hp : Ptr T p) :
    (s.poke a v).setThrough p f w = (s.setThrough p f w).poke a v := by
  unfold Heap.setThrough
  rcases hp with rfl | hp
  · rw [if_neg (by simp), if_neg (by simp)]
  · by_cases hp0 : p ≠ 0
    · rw [if_pos hp0, if_pos hp0, set_poke hc hp]
    · rw [if_neg hp0, if_neg hp0]

theorem whole_poke (ht : t ∈ T) : whole (s.poke a v) t = whole s t := by
  simp only [whole, get_poke hc ht]

/-! ### The helper functions -/

theorem dropHead_poke (ht : t ∈ T) : dropHead t (s.poke a v) = (dropHead t s).poke a v := by
  simp only [dropHead, index_poke hc ht, get_poke hc ht, poke_freePages]
  split
  · exact setFreePages_poke
  · rfl

theorem removeTag_poke (hT : Separate T) (h : Linkable T s t) :
    removeTag t (s.poke a v) = (removeTag t s).poke a v := by
  simp only [removeTag, dropHead_poke hc h.mem, get_poke hc h.mem, get_dropHead,
    setThrough_poke hc h.prev, h.get_bypassed hT, setThrough_poke hc h.next, set_poke hc h.mem]

theorem takeTag_poke (hT : Separate T) (h : Linkable T s t) :
    takeTag t i (s.poke a v) = (takeTag t i s).poke a v := by
  rw [takeTag_eq, takeTag_eq, removeTag_poke hc hT h, whole_poke hc h.mem]
  split
  · exact addCompletePages_poke
  · rfl

theorem takeOver_poke (hT : Separate T) (hl : left ∈ T) (hr : right ∈ T) (hne : left ≠ right)
    (hn : Ptr T (s.get right .splitRight)) :
    takeOver left right (s.poke a v) = (takeOver left right s).poke a v := by
  have hrn : ¬ right = left := fun h => hne h.symm
  simp only [takeOver, get_set hT hr hl, hrn, false_and, if_false, get_poke hc hl, get_poke hc hr]
  rw [set_poke hc hl, set_poke hc hl, setThrough_poke hc hn]

theorem realIndex_poke (ht : t ∈ T) : realIndex (s.poke a v) t k = realIndex s t k := by
  unfold realIndex
  rw [get_poke hc ht]

theorem linkHead_poke (ht : t ∈ T) (hh : Ptr T (s.freePages i)) :
    linkHead t i (s.poke a v) = (linkHead t i s).poke a v := by
  unfold linkHead
  rw [poke_freePages]
  split
  · have hh := hh.resolve_left ‹_›
    rw [set_poke hc hh, set_poke hc ht]
  · rfl

theorem insertTag_poke (ht : t ∈ T) (hh : Ptr T (s.freePages (realIndex s t k).toNat)) :
    insertTag t k (s.poke a v) = (insertTag t k s).poke a v := by
  simp only [insertTag, realIndex_poke hc ht]
  rw [set_poke hc ht, linkHead_poke hc ht (by rwa [set_freePages]), setFreePages_poke]

theorem splitAddr_poke (ht : t ∈ T) : splitAddr t (s.poke a v) = splitAddr t s := by
  unfold splitAddr
  rw [get_poke hc ht]

theorem cutTag_poke (hT : Separate T) (ht : t ∈ T) (hn : splitAddr t s ∈ T)
    (hne : t ≠ splitAddr t s) (hr : Ptr T (s.get t .splitRight)) :
    cutTag t (s.poke a v) = (cutTag t s).poke a v := by
  have hrm : s.get t .splitRight % 256 ^ 8 = s.get t .splitRight := Nat.mod_eq_of_lt (hr.lt hT)
  simp only [cutTag, splitAddr_poke hc ht, get_poke hc ht, get_set hT ht hn, get_set hT hn hn, hne,
    false_and, if_false, Field.width, hrm, true_and, if_true, set_poke hc hn, set_poke hc ht,
    setThrough_poke hc hr, get_poke hc hn]

theorem freshTag_poke (ht : t ∈ T) : freshTag t n i (s.poke a v) = (freshTag t n i s).poke a v := by
  simp only [freshTag, set_poke hc ht]

end

theorem fits_poke (hc : Clear T a) (ht : t ∈ T) : fits (s.poke a v) n t = fits s n t := by
  unfold fits
  rw [get_poke hc ht]

theorem search_next : search s n t =
    if t = 0 then some 0 else if fits s n t then some t else search s n (s.get t .next) := by
  rw [search]

theorem search_poke (hc : Clear T a) (hl : Linked (s.get · .next) (s.get · .prev) p ts 0)
    (hts : ∀ x ∈ ts, x ∈ T) : search (s.poke a v) n (ts.headD 0) = search s n (ts.headD 0) := by
  induction ts generalizing p with
  | nil =>
    rw [List.headD_nil, search_next (s := s.poke a v), search_next (s := s), if_pos rfl, if_pos rfl]
  | cons t ts ih =>
    obtain ⟨_, hnext, htail⟩ := hl
    have hnext : s.get t .next = ts.headD 0 := hnext
    have ht : t ∈ T := hts t (List.mem_cons_self ..)
    rw [List.headD_cons, search_next (s := s.poke a v), search_next (s := s), fits_poke hc ht,
      get_poke hc ht, hnext, ih htail fun x hx => hts x (List.mem_cons_of_mem _ hx)]

/-! ### The byte belongs to a block in use -/

namespace Inv

section
variable (h : Inv s L) (hu : u ∈ tags s L) (ha : Payload s u a)
include h hu ha

theorem poke_clear : Clear (tags s L) a := h.regions.payload_clear hu ha.1 ha.2

theorem poke : Inv (s.poke a v) L :=
  h.congr rfl rfl rfl rfl fun _ ht _ _ => get_poke (h.poke_clear hu ha) ht

theorem used_poke : used (s.poke a v) L = used s L := by
  ext x
  rw [mem_used, mem_used]
  refine and_congr_right fun hx => ?_
  rw [index_poke (h.poke_clear hu ha) hx]

end

theorem payload_keeps {U : Set Nat} (hk : Keeps U s s') (hu : u ∈ U) (ha : Payload s u a) :
    Payload s' u a := by
  rw [Payload, hk.realSize u hu]
  exact ha

theorem head_tag (h : Inv s L) : Ptr (tags s L) (s.freePages i) :=
  (h.bins.head_or i).imp id fun hm => (h.mem_bin hm).1

/-! ### `malloc` -/

theorem splitTag_poke (h : Inv s L) (ht : t ∈ tags s L)
    (hsize : s.get t .size + 96 ≤ s.get t .realSize) (hu : u ∈ tags s L) (hne : u ≠ t)
    (ha : Payload s u a) : (Alloc.splitTag t (s.poke a v)).2 = (Alloc.splitTag t s).2.poke a v := by
  obtain ⟨hfresh, hT⟩ := h.regions.split_fresh ht hsize
  obtain ⟨hn, _⟩ := h.regions.split_eq ht hsize
  have hsub := Set.subset_insert (splitAddr t s) (tags s L)
  have hc : Clear (insert (splitAddr t s) (tags s L)) a := by
    intro x hx
    rcases Set.mem_insert_iff.mp hx with rfl | hx
    · obtain ⟨hlo, hhi⟩ := ha
      rcases h.regions.apart ht hu with heq | hd | hd
      · exact absurd heq.symm hne
      · omega
      · omega
    · exact h.poke_clear hu ha x hx
  have hnt : t ≠ splitAddr t s := fun heq => hfresh (heq ▸ ht)
  have hright : Ptr (insert (splitAddr t s) (tags s L)) (s.get t .splitRight) :=
    (h.regions.right_ptr ht).imp id fun hm => hsub hm
  have hhead : ∀ i, Ptr (insert (splitAddr t s) (tags s L)) ((cutTag t s).freePages i) := by
    intro i
    rw [cutTag_freePages]
    exact h.head_tag.imp id fun hm => hsub hm
  have hcut : cutTag t (s.poke a v) = (cutTag t s).poke a v :=
    cutTag_poke hc hT (hsub ht) (Set.mem_insert ..) hnt hright
  simp only [Alloc.splitTag, splitAddr_poke hc (hsub ht), hcut]
  exact insertTag_poke hc (Set.mem_insert ..) (hhead _)

/-- The end of `malloc`. -/
theorem carve_poke (h : Inv s L) (ht : t ∈ tags s L) (hsize : n + 48 < 2 ^ 32)
    (hroom : n + 48 ≤ s.get t .realSize) (hu : u ∈ tags s L) (hne : u ≠ t) (ha : Payload s u a) :
    Alloc.carve n t (s.poke a v) = poked a v (Alloc.carve n t s) := by
  have hc := h.poke_clear hu ha
  have hz : n < 2 ^ 32 := by omega
  have hget : ∀ x ∈ tags s L, ∀ f, (s.set t .size n).get x f = _ :=
    fun x hx f => setSize_get h ht hx hz
  have hreal : (s.set t .size n).get t .realSize = s.get t .realSize := by
    rw [hget t ht, if_neg (by simp)]
  have hcut : 0 < s32 (u32 (sub64 (sub64 (s.get t .realSize) n) (tagSize * 2))) →
      n + 96 ≤ s.get t .realSize := room_of_remainder (h.regions.block_lt ht).1 (by omega)
  simp only [Alloc.carve, u32_of_lt hz, set_poke hc ht]
  rw [get_poke hc ht]
  split
  · rename_i hcond
    have hset : (s.set t .size n).get t .size + 96 ≤ (s.set t .size n).get t .realSize := by
      rw [hreal] at hcond ⊢
      rw [hget t ht, if_pos ⟨rfl, rfl⟩]
      exact hcut hcond.1
    have ha' : Payload (s.set t .size n) u a := by
      rw [Payload, hget u hu, if_neg (by simp)]
      exact ha
    rw [(h.setSize ht hz).splitTag_poke ht hset hu hne ha']
    rfl
  · rfl

/-- From a tag of a bin on, the search walks the rest of the bin. -/
theorem rest_of_bin (h : Inv s L) (ht : t = 0 ∨ t ∈ L.bins i) :
    ∃ p ts, t = ts.headD 0 ∧ Linked (s.get · .next) (s.get · .prev) p ts 0 ∧ ∀ x ∈ ts, x ∈ L.bins i := by
  rcases ht with rfl | ht
  · exact ⟨0, [], rfl, linked_nil, nofun⟩
  · obtain ⟨xs, ys, hxy⟩ := List.append_of_mem ht
    have hlink := h.bins.linked i
    rw [hxy] at hlink ⊢
    exact ⟨_, t :: ys, rfl, (linked_append.mp hlink).2, fun x hx => List.mem_append_right _ hx⟩

theorem search_rest (h : Inv s L) (ht : t = 0 ∨ t ∈ L.bins i) (n : Nat) :
    ∃ x, Alloc.search s n t = some x ∧ (x = 0 ∨ x ∈ L.bins i ∧ fits s n x = true) := by
  obtain ⟨p, ts, rfl, hlink, hsub⟩ := h.rest_of_bin ht
  have h0 : 0 ∉ ts := fun hm => h.bins.zero_not_mem h.separate (hsub 0 hm)
  obtain ⟨x, hx, hor⟩ : ∃ x, Alloc.search s n (ts.headD 0) = some x ∧
      (x = 0 ∨ x ∈ ts ∧ fits s n x = true) := search_linked hlink h0
  exact ⟨x, hx, hor.imp id fun hm => ⟨hsub x hm.1, hm.2⟩⟩

theorem search_rest_poke (h : Inv s L) (hc : Clear (tags s L) a) (ht : t = 0 ∨ t ∈ L.bins i) :
    Alloc.search (s.poke a v) n t = Alloc.search s n t := by
  obtain ⟨p, ts, rfl, hlink, hsub⟩ := h.rest_of_bin ht
  exact search_poke hc hlink fun x hx => (h.mem_bin (hsub x hx)).1

/-- A block found in its bin. -/
theorem found_poke (h : Inv s L) (ht : t ∈ L.bins i) (hfit : fits s n t = true)
    (hsize : n + 48 < 2 ^ 32) (hu : u ∈ used s L) (ha : Payload s u a) :
    Alloc.carve n t (takeTag t i (s.poke a v)) = poked a v (Alloc.carve n t (takeTag t i s)) := by
  obtain ⟨htT, hti⟩ := h.mem_bin ht
  have hne : u ≠ t := by
    intro heq
    have := hu.2
    rw [heq, hti] at this
    omega
  have hkeep := h.keeps_take ht
  have htags : tags (takeTag t i s) ⟨L.chain, Function.update L.bins i ((L.bins i).erase t)⟩ =
      tags s L := by simp only [tags, (h.frame_takeTag ht).calls]
  have hroom := h.room_of_fits htT hsize hfit
  rw [takeTag_poke (h.poke_clear hu.1 ha) h.separate (h.bins.linkable h.separate ht)]
  refine (h.take ht).carve_poke (by rwa [htags]) hsize ?_ (by rw [htags]; exact hu.1) hne
    (payload_keeps hkeep hu.1 ha)
  rw [hkeep.realSize t htT]
  omega

/-- A block made of a fresh range. -/
theorem fresh_poke {r : PageRange} (h : Inv s L) (hinit : s.initialized = true)
    (hf : Fresh (held s.calls) r) (hsize : n + 48 < 2 ^ 32) (hroom : n + 48 ≤ r.bytes)
    (hu : u ∈ tags s L) (ha : Payload s u a) :
    Alloc.carve n r.base (obtained r n (s.poke a v)) =
      poked a v (Alloc.carve n r.base (obtained r n s)) := by
  have hlt : n < 2 ^ 32 := by omega
  have htags := (h.obtained_regions hf hlt).2
  have hnot := (h.fresh_separate hf).1
  have hkeep := h.keeps_take_range hf hlt hinit
  have hu' : u ∈ tags (obtained r n s) ⟨Function.update L.chain r.base [r.base], L.bins⟩ := by
    rw [htags]
    exact Set.mem_insert_of_mem _ hu
  have hr : r.base ∈ tags (obtained r n s) ⟨Function.update L.chain r.base [r.base], L.bins⟩ := by
    rw [htags]
    exact Set.mem_insert ..
  have hinv := h.take_range hf hlt hinit
  have ha' : Payload (obtained r n s) u a := payload_keeps hkeep hu ha
  have hobtained : obtained r n (s.poke a v) = (obtained r n s).poke a v := by
    have hc := hinv.poke_clear hu' ha'
    unfold obtained at hc ⊢
    rw [← freshTag_poke hc hr]
    rfl
  rw [hobtained]
  refine hinv.carve_poke hr hsize ?_ hu' (fun heq => hnot (heq ▸ hu)) ha'
  rwa [h.obtained_get_new hf hlt]

/-! ### `free` -/

theorem absorb_poke (h : Inv s L) (ht : t ∈ tags s L) (hc : Clear (tags s L) a)
    (h0 : s.get t .splitRight ≠ 0) (hi : 0 ≤ s.index (s.get t .splitRight)) :
    (absorbRight t (s.poke a v)).2 = (absorbRight t s).2.poke a v := by
  have hr := h.regions.right_mem ht h0
  have hbin := h.mem_bin_of_index hr hi
  have hgt := h.regions.right_gt ht h0
  have hptr : Ptr (tags s L) ((removeTag (s.get t .splitRight) s).get (s.get t .splitRight) .splitRight) := by
    rw [h.removeTag_get_of hbin hr rfl]
    exact h.regions.right_ptr hr
  simp only [absorbRight_eq, get_poke hc ht]
  rw [removeTag_poke hc h.separate (h.bins.linkable h.separate hbin),
    takeOver_poke hc h.separate ht hr (Nat.ne_of_lt hgt) hptr]

theorem melt_poke (h : Inv s L) (ht : t ∈ tags s L) (hc : Clear (tags s L) a)
    (h0 : s.get t .splitLeft ≠ 0) (hi : 0 ≤ s.index (s.get t .splitLeft)) :
    removeTag (s.get t .splitLeft) (meltLeft t (s.poke a v)).2 =
      (removeTag (s.get t .splitLeft) (meltLeft t s).2).poke a v := by
  obtain ⟨r, hr, htc⟩ := ht
  obtain ⟨xs, ys, hts⟩ : ∃ xs ys, L.chain r.base = xs ++ s.get t .splitLeft :: t :: ys :=
    (h.regions.chain r hr).linked.back_split htc h0
  have ht : t ∈ tags s L := ⟨r, hr, htc⟩
  have hl := h.regions.left_mem ht h0
  have hbin := h.mem_bin_of_index hl hi
  have hne : s.get t .splitLeft ≠ t := by
    have htile := (h.regions.chain r hr).tiles
    rw [hts] at htile
    have hadj : t = s.get t .splitLeft + s.get (s.get t .splitLeft) .realSize := htile.adjacent
    have := h.regions.room hl
    omega
  simp only [meltLeft_eq, get_poke hc ht]
  rw [takeOver_poke hc h.separate hl ht hne (h.regions.right_ptr ht),
    removeTag_poke hc h.separate (h.melt_linkable hr hts hbin)]

section
variable (h : Inv s L) (ht : t ∈ used s L) (hu : u ∈ tags s L) (ha : Payload s u a)
include h ht hu ha

theorem meltLeftLoop_poke :
    Alloc.meltLeftLoop t (s.poke a v) = (Alloc.meltLeftLoop t s).map (poked a v) := by
  have hc := h.poke_clear hu ha
  have hinv := h.poke (v := v) hu ha
  have hl : (s.poke a v).get t .splitLeft = s.get t .splitLeft := get_poke hc ht.1
  have ht' : t ∈ used (s.poke a v) L := by
    rw [h.used_poke hu ha]
    exact ht
  have hi : s.get t .splitLeft ≠ 0 →
      (s.poke a v).index (s.get t .splitLeft) = s.index (s.get t .splitLeft) :=
    fun h0 => index_poke hc (h.regions.left_mem ht.1 h0)
  by_cases hcond : s.get t .splitLeft ≠ 0 ∧ 0 ≤ s.index (s.get t .splitLeft)
  · have hcond' : (s.poke a v).get t .splitLeft ≠ 0 ∧
        0 ≤ (s.poke a v).index ((s.poke a v).get t .splitLeft) := by
      rw [hl, hi hcond.1]
      exact hcond
    have hstop := hinv.melt_leftUsed ht' hcond'.1 hcond'.2
    rw [meltLeftLoop_step hcond, meltLeftLoop_step hcond', meltLeftLoop_stop hstop,
      meltLeftLoop_stop (h.melt_leftUsed ht hcond.1 hcond.2), hl, h.melt_poke ht.1 hc hcond.1 hcond.2,
      Option.map_some, poked]
  · have hset : LeftUsed s t := fun h0 => by
      by_contra hneg
      exact hcond ⟨h0, by omega⟩
    have hset' : LeftUsed (s.poke a v) t := fun h0 => by
      rw [hl] at h0 ⊢
      rw [hi h0]
      exact hset h0
    rw [meltLeftLoop_stop hset, meltLeftLoop_stop hset']
    rfl

theorem meltRightLoop_poke :
    Alloc.meltRightLoop t (s.poke a v) = (Alloc.meltRightLoop t s).map (poked a v) := by
  have hc := h.poke_clear hu ha
  have hinv := h.poke (v := v) hu ha
  have hr : (s.poke a v).get t .splitRight = s.get t .splitRight := get_poke hc ht.1
  have ht' : t ∈ used (s.poke a v) L := by
    rw [h.used_poke hu ha]
    exact ht
  have hi : s.get t .splitRight ≠ 0 →
      (s.poke a v).index (s.get t .splitRight) = s.index (s.get t .splitRight) :=
    fun h0 => index_poke hc (h.regions.right_mem ht.1 h0)
  by_cases hcond : s.get t .splitRight ≠ 0 ∧ 0 ≤ s.index (s.get t .splitRight)
  · have hcond' : (s.poke a v).get t .splitRight ≠ 0 ∧
        0 ≤ (s.poke a v).index ((s.poke a v).get t .splitRight) := by
      rw [hr, hi hcond.1]
      exact hcond
    have hstop := hinv.absorb_rightUsed ht' hcond'.1 hcond'.2
    rw [meltRightLoop_step hcond, meltRightLoop_step hcond', meltRightLoop_stop hstop,
      meltRightLoop_stop (h.absorb_rightUsed ht hcond.1 hcond.2),
      h.absorb_poke ht.1 hc hcond.1 hcond.2, Option.map_some, poked]
  · have hset : RightUsed s t := fun h0 => by
      by_contra hneg
      exact hcond ⟨h0, by omega⟩
    have hset' : RightUsed (s.poke a v) t := fun h0 => by
      rw [hr] at h0 ⊢
      rw [hi h0]
      exact hset h0
    rw [meltRightLoop_stop hset, meltRightLoop_stop hset']
    rfl

end

theorem release_poke (h : Inv s L) (ht : t ∈ tags s L) (hc : Clear (tags s L) a) :
    Alloc.release t (s.poke a v) = (Alloc.release t s).poke a v := by
  have hqueue : ∀ (s' : Heap) (k : Int), s'.freePages = s.freePages →
      insertTag t k (s'.poke a v) = (insertTag t k s').poke a v := by
    intro s' k hfree
    refine insertTag_poke hc ht ?_
    rw [hfree]
    exact h.head_tag
  rw [release_eq, release_eq, whole_poke hc ht, get_poke hc ht, poke_completePages]
  split
  · split
    · rfl
    · rw [addCompletePages_poke]
      exact hqueue _ _ rfl
  · exact hqueue _ _ rfl

end Inv
end Kvi.Alloc
