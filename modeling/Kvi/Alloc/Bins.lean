import Kvi.Alloc.Tags
import Kvi.Library.Links

/-! The bins.

`Bins s T bins` says that the free lists of `s` are the lists `bins i`: the head
of bin `i` starts `bins i`, `next` and `prev` link it both ways between `NULL`
and `NULL`, and a tag of `T` is in `bins i` exactly when its index says so. A tag
with a negative index is in no bin and carries no links, which is what
`insert_tag` relies on when it leaves `next` alone in an empty bin. -/
namespace Kvi.Alloc

variable {T : Set Nat} {s s' : Heap} {bins : Nat → List Nat} {i j : Nat} {x t tag : Nat} {k : Int}

structure Bins (s : Heap) (T : Set Nat) (bins : Nat → List Nat) : Prop where
  head : ∀ i, s.freePages i = (bins i).headD 0
  linked : ∀ i, Linked (s.get · .next) (s.get · .prev) 0 (bins i) 0
  nodup : ∀ i, (bins i).Nodup
  mem : ∀ i t, t ∈ bins i ↔ t ∈ T ∧ s.index t = i
  loose : ∀ t ∈ T, s.index t < 0 → s.index t = -1 ∧ s.get t .next = 0 ∧ s.get t .prev = 0

theorem Bins.mem_tags (h : Bins s T bins) (ht : t ∈ bins i) : t ∈ T := ((h.mem i t).mp ht).1

theorem Bins.index_eq (h : Bins s T bins) (ht : t ∈ bins i) : s.index t = i := ((h.mem i t).mp ht).2

theorem Bins.zero_not_mem (h : Bins s T bins) (hT : Separate T) : 0 ∉ bins i :=
  fun h0 => hT.ne_zero 0 (h.mem_tags h0) rfl

/-- Only the heads and the list fields of the tags matter. -/
theorem Bins.congr (h : Bins s T bins) (hf : s'.freePages = s.freePages)
    (hn : ∀ t ∈ T, s'.get t .next = s.get t .next) (hp : ∀ t ∈ T, s'.get t .prev = s.get t .prev)
    (hi : ∀ t ∈ T, s'.get t .index = s.get t .index) : Bins s' T bins := by
  refine ⟨fun i => by rw [hf]; exact h.head i, fun i => ?_, h.nodup, fun i t => ?_, fun t ht => ?_⟩
  · exact (h.linked i).congr (fun x hx => hn x (h.mem_tags hx)) fun x hx => hp x (h.mem_tags hx)
  · rw [h.mem i t]
    constructor
    · intro ⟨ht, hidx⟩
      exact ⟨ht, by rw [index_congr (hi t ht), hidx]⟩
    · intro ⟨ht, hidx⟩
      exact ⟨ht, by rw [← index_congr (hi t ht), hidx]⟩
  · rw [index_congr (hi t ht), hn t ht, hp t ht]
    exact h.loose t ht

/-- A tag in no bin may be forgotten. -/
theorem Bins.forget (h : Bins s T bins) (ht : s.index tag < 0) : Bins s (T \ {tag}) bins := by
  refine ⟨h.head, h.linked, h.nodup, fun i t => ?_, fun t hmem => h.loose t hmem.1⟩
  rw [h.mem i t]
  constructor
  · intro ⟨hmem, hidx⟩
    refine ⟨⟨hmem, ?_⟩, hidx⟩
    intro heq
    rw [Set.mem_singleton_iff.mp heq] at hidx
    omega
  · intro ⟨hmem, hidx⟩
    exact ⟨hmem.1, hidx⟩

/-- A tag in no bin may be added. -/
theorem Bins.adjoin (h : Bins s T bins) (ht : s.index tag = -1) (hn : s.get tag .next = 0)
    (hp : s.get tag .prev = 0) : Bins s (insert tag T) bins := by
  refine ⟨h.head, h.linked, h.nodup, fun i t => ?_, fun t hmem hlt => ?_⟩
  · rw [h.mem i t]
    constructor
    · intro ⟨hmem, hidx⟩
      exact ⟨Set.mem_insert_of_mem _ hmem, hidx⟩
    · intro ⟨hmem, hidx⟩
      rcases Set.mem_insert_iff.mp hmem with rfl | hmem
      · omega
      · exact ⟨hmem, hidx⟩
  · rcases Set.mem_insert_iff.mp hmem with rfl | hmem
    · exact ⟨ht, hn, hp⟩
    · exact h.loose t hmem hlt

/-- A link out of a queued tag stays in its bin. -/
theorem Bins.next_bin (h : Bins s T bins) (ht : tag ∈ bins i) :
    s.get tag .next = 0 ∨ s.get tag .next ∈ bins i := by
  rcases (h.linked i).fwd_or ht with h0 | ⟨hm, _⟩
  · exact .inl h0
  · exact .inr hm

theorem Bins.prev_bin (h : Bins s T bins) (ht : tag ∈ bins i) :
    s.get tag .prev = 0 ∨ s.get tag .prev ∈ bins i := by
  rcases (h.linked i).back_or ht with h0 | ⟨hm, _⟩
  · exact .inl h0
  · exact .inr hm

/-- A queued tag has the links `removeTag` relies on. -/
theorem Bins.linkable (h : Bins s T bins) (hT : Separate T) (ht : tag ∈ bins i) :
    Linkable T s tag where
  mem := h.mem_tags ht
  next := (h.next_bin ht).imp id h.mem_tags
  prev := (h.prev_bin ht).imp id h.mem_tags
  next_ne := (h.linked i).fwd_ne (h.nodup i) (h.zero_not_mem hT) ht
  prev_ne := (h.linked i).back_ne (h.nodup i) (h.zero_not_mem hT) ht

theorem removeTag_index (hT : Separate T) (hl : Linkable T s tag) (hx : x ∈ T) :
    (removeTag tag s).index x = if x = tag then -1 else s.index x := by
  unfold Heap.index
  rw [removeTag_get hT hl hx]
  by_cases hxt : x = tag
  · simp only [hxt, true_and, if_true]
    decide
  · simp [hxt]

/-! ### A tag leaves its bin -/

/-- The tags of one bin are not those of another. -/
theorem Bins.index_ne (h : Bins s T bins) (hj : j ≠ i) (hx : x ∈ bins j) : s.index x ≠ i := by
  rw [h.index_eq hx]
  exact fun heq => hj (by exact_mod_cast heq)

section
variable (h : Bins s T bins) (hT : Separate T) (ht : tag ∈ bins i)
include h hT ht

/-- A tag outside the bin is none of the three tags written. -/
theorem Bins.apart (hx : x ∈ T) (hi : s.index x ≠ i) :
    x ≠ tag ∧ x ≠ s.get tag .next ∧ x ≠ s.get tag .prev := by
  have hne : ∀ y ∈ bins i, x ≠ y := by
    intro y hy heq
    exact hi (heq ▸ h.index_eq hy)
  refine ⟨hne _ ht, ?_, ?_⟩
  · rcases h.next_bin ht with hz | hm
    · rw [hz]; exact hT.ne_zero x hx
    · exact hne _ hm
  · rcases h.prev_bin ht with hz | hm
    · rw [hz]; exact hT.ne_zero x hx
    · exact hne _ hm

omit hT in
theorem Bins.head_removeTag (j : Nat) :
    (removeTag tag s).freePages j = (Function.update bins i ((bins i).erase tag) j).headD 0 := by
  obtain ⟨xs, ys, hnot, hxy, herase⟩ := List.exists_erase_eq ht
  have hl := h.linked i
  rw [hxy] at hl
  obtain ⟨_, hnext⟩ := hl.middle
  rw [herase, removeTag_freePages, h.index_eq ht, Int.toNat_natCast]
  by_cases hj : j = i
  · subst hj
    have hhead := h.head j
    rw [hxy] at hhead
    cases xs with
    | nil =>
      rw [hhead]
      simpa using hnext
    | cons x xs =>
      have hx : x ≠ tag := fun heq => hnot (by simp [heq])
      rw [hhead]
      simp [hx, hhead]
  · split
    · simp [hj, h.head j]
    · simp [hj, h.head j]

/-- The neighbours of the tag are linked to each other. -/
theorem Bins.linked_removeTag (j : Nat) : Linked ((removeTag tag s).get · .next)
    ((removeTag tag s).get · .prev) 0 (Function.update bins i ((bins i).erase tag) j) 0 := by
  have hget := fun x (hx : x ∈ T) f => removeTag_get hT (h.linkable hT ht) hx (f := f)
  by_cases hj : j = i
  · subst hj
    rw [Function.update_self]
    obtain ⟨xs, ys, _, hxy, herase⟩ := List.exists_erase_eq ht
    have hmem : ∀ x ∈ xs ++ ys, x ≠ tag ∧ x ∈ T := by
      intro x hx
      rw [← herase, (h.nodup j).mem_erase_iff] at hx
      exact ⟨hx.1, h.mem_tags hx.2⟩
    have hl := h.linked j
    have hnd := h.nodup j
    have h0 : 0 ∉ bins j := h.zero_not_mem hT
    rw [hxy] at hl hnd h0
    rw [herase]
    refine hl.remove hnd h0 h0 (fun x hx => ?_) fun x hx => ?_
    · rw [hget x (hmem x hx).2]
      simp [(hmem x hx).1]
    · rw [hget x (hmem x hx).2]
      simp [(hmem x hx).1]
  · rw [Function.update_of_ne hj]
    refine (h.linked j).congr (fun x hx => ?_) fun x hx => ?_
    · obtain ⟨h1, _, h3⟩ := h.apart hT ht (h.mem_tags hx) (h.index_ne hj hx)
      rw [hget x (h.mem_tags hx)]
      simp [h1, h3]
    · obtain ⟨h1, h2, _⟩ := h.apart hT ht (h.mem_tags hx) (h.index_ne hj hx)
      rw [hget x (h.mem_tags hx)]
      simp [h1, h2]

theorem Bins.mem_removeTag (j t : Nat) :
    t ∈ Function.update bins i ((bins i).erase tag) j ↔ t ∈ T ∧ (removeTag tag s).index t = j := by
  have hindex := fun {x} (hx : x ∈ T) => removeTag_index hT (h.linkable hT ht) hx
  have htag := h.index_eq ht
  by_cases hj : j = i
  · subst hj
    rw [Function.update_self, (h.nodup j).mem_erase_iff, h.mem j t]
    constructor
    · intro ⟨hne, htT, hti⟩
      exact ⟨htT, by rw [hindex htT, if_neg hne, hti]⟩
    · intro ⟨htT, hti⟩
      rw [hindex htT] at hti
      split at hti
      · omega
      · exact ⟨by assumption, htT, hti⟩
  · rw [Function.update_of_ne hj, h.mem j t]
    refine and_congr_right fun htT => ?_
    rw [hindex htT]
    split
    · subst t
      omega
    · rfl

/-- The tag has no links left. -/
theorem Bins.loose_removeTag (t : Nat) (htT : t ∈ T) (hlt : (removeTag tag s).index t < 0) :
    (removeTag tag s).index t = -1 ∧ (removeTag tag s).get t .next = 0 ∧
      (removeTag tag s).get t .prev = 0 := by
  have hlink := h.linkable hT ht
  rw [removeTag_index hT hlink htT] at hlt ⊢
  rw [removeTag_get hT hlink htT, removeTag_get hT hlink htT]
  by_cases hne : t = tag
  · simp [hne]
  · rw [if_neg hne] at hlt ⊢
    obtain ⟨h1, h2, h3⟩ := h.loose t htT hlt
    obtain ⟨_, hn, hp⟩ := h.apart hT ht htT (by omega)
    simp [hne, hn, hp, h1, h2, h3]

/-- `remove_tag` takes a queued tag out of its bin and leaves every other bin alone. -/
theorem Bins.dequeue : Bins (removeTag tag s) T (Function.update bins i ((bins i).erase tag)) where
  head := h.head_removeTag ht
  linked := h.linked_removeTag hT ht
  nodup j := by
    by_cases hj : j = i
    · subst hj
      rw [Function.update_self]
      exact (h.nodup j).erase tag
    · rw [Function.update_of_ne hj]
      exact h.nodup j
  mem := h.mem_removeTag hT ht
  loose := h.loose_removeTag hT ht

end

/-! ### A tag enters a bin -/

theorem insertTag_index (hT : Separate T) (ht : tag ∈ T)
    (hh : Ptr T (s.freePages (realIndex s tag k).toNat))
    (hne : s.freePages (realIndex s tag k).toNat ≠ tag) (hlo : 0 ≤ realIndex s tag k)
    (hhi : realIndex s tag k < 2 ^ 31) (hx : x ∈ T) :
    (insertTag tag k s).index x = if x = tag then realIndex s tag k else s.index x := by
  unfold Heap.index
  rw [insertTag_get hT ht hh hne hx]
  by_cases hxt : x = tag
  · simp only [hxt, true_and, if_true]
    exact s32_ofInt32 (by omega) hhi
  · simp [hxt]

/-- The head of a bin is a queued tag or `NULL`. -/
theorem Bins.head_or (h : Bins s T bins) (i : Nat) : s.freePages i = 0 ∨ s.freePages i ∈ bins i := by
  rw [h.head i]
  rcases headD_mem_or (bins i) 0 with hm | ⟨_, hm⟩
  · exact .inr hm
  · exact .inl hm

section
variable (h : Bins s T bins) (hT : Separate (insert tag T)) (ht : tag ∉ T)
include h hT ht

theorem Bins.head_apart (i : Nat) : Ptr (insert tag T) (s.freePages i) ∧ s.freePages i ≠ tag := by
  refine ⟨(h.head_or i).imp id fun hm => Set.mem_insert_of_mem _ (h.mem_tags hm), ?_⟩
  rcases h.head_or i with h0 | hm
  · rw [h0]
    exact (hT.ne_zero tag (Set.mem_insert ..)).symm
  · exact fun heq => ht (heq ▸ h.mem_tags hm)

omit ht in
/-- A tag of `T` outside the bin is not its head. -/
theorem Bins.ne_head (hx : x ∈ T) (hi : s.index x ≠ i) : x ≠ s.freePages i := by
  intro heq
  rcases h.head_or i with h0 | hm
  · exact hT.ne_zero x (Set.mem_insert_of_mem _ hx) (heq.trans h0)
  · rw [← heq] at hm
    exact hi (h.index_eq hm)

variable (hi : realIndex s tag k = i)
include hi

theorem Bins.enqueue_get {f : Field} (hx : x ∈ insert tag T) : (insertTag tag k s).get x f =
    if x = tag ∧ f = .index then ofInt32 i
    else if x = tag ∧ f = .next ∧ s.freePages i ≠ 0 then s.freePages i
    else if x = s.freePages i ∧ f = .prev then tag
    else s.get x f := by
  obtain ⟨hh, hne⟩ := h.head_apart hT ht (realIndex s tag k).toNat
  rw [insertTag_get hT (Set.mem_insert ..) hh hne hx, hi, Int.toNat_natCast]

theorem Bins.enqueue_index (hhi : i < 2 ^ 31) (hx : x ∈ insert tag T) :
    (insertTag tag k s).index x = if x = tag then (i : Int) else s.index x := by
  obtain ⟨hh, hne⟩ := h.head_apart hT ht (realIndex s tag k).toNat
  rw [Alloc.insertTag_index hT (Set.mem_insert ..) hh hne (by omega) (by omega) hx, hi]

theorem Bins.linked_insertTag (hn : s.get tag .next = 0) (hp : s.get tag .prev = 0) (j : Nat) :
    Linked ((insertTag tag k s).get · .next) ((insertTag tag k s).get · .prev) 0
      (Function.update bins i (tag :: bins i) j) 0 := by
  have hget := fun x (hx : x ∈ insert tag T) f => h.enqueue_get hT ht hi hx (f := f)
  have htag : tag ∈ insert tag T := Set.mem_insert tag T
  have hx_ne : ∀ x ∈ T, x ≠ tag := fun x hx heq => ht (heq ▸ hx)
  by_cases hj : j = i
  · subst hj
    rw [Function.update_self]
    have hhead := h.head j
    refine (h.linked j).cons (h.nodup j) ?_ ?_ (fun x hx => ?_) fun x hx => ?_
    · rw [hget tag htag, hp]
      have : tag ≠ s.freePages j := (h.head_apart hT ht j).2.symm
      simp [this]
    · rw [hget tag htag, ← hhead, hn]
      by_cases h0 : s.freePages j = 0 <;> simp [h0]
    · have hxT := h.mem_tags hx
      rw [hget x (Set.mem_insert_of_mem _ hxT)]
      simp [hx_ne x hxT]
    · have hxT := h.mem_tags hx
      rw [hget x (Set.mem_insert_of_mem _ hxT), hhead]
      simp [hx_ne x hxT]
  · rw [Function.update_of_ne hj]
    refine (h.linked j).congr (fun x hx => ?_) fun x hx => ?_
    · have hxT := h.mem_tags hx
      rw [hget x (Set.mem_insert_of_mem _ hxT)]
      simp [hx_ne x hxT]
    · have hxT := h.mem_tags hx
      rw [hget x (Set.mem_insert_of_mem _ hxT)]
      simp [h.ne_head hT hxT (h.index_ne hj hx)]

theorem Bins.mem_insertTag (hhi : i < 2 ^ 31) (j t : Nat) :
    t ∈ Function.update bins i (tag :: bins i) j ↔
      t ∈ insert tag T ∧ (insertTag tag k s).index t = j := by
  have hidx := fun {x} (hx : x ∈ insert tag T) => h.enqueue_index hT ht hi hhi hx
  have hsub : T ⊆ insert tag T := Set.subset_insert tag T
  have hx_ne : ∀ x ∈ T, x ≠ tag := fun x hx heq => ht (heq ▸ hx)
  by_cases hj : j = i
  · subst hj
    rw [Function.update_self, List.mem_cons, h.mem j t]
    constructor
    · intro hm
      rcases hm with rfl | ⟨htT, hti⟩
      · exact ⟨Set.mem_insert .., by rw [hidx (Set.mem_insert ..), if_pos rfl]⟩
      · exact ⟨hsub htT, by rw [hidx (hsub htT), if_neg (hx_ne t htT), hti]⟩
    · intro ⟨hm, hti⟩
      rcases Set.mem_insert_iff.mp hm with rfl | htT
      · exact .inl rfl
      · rw [hidx hm, if_neg (hx_ne t htT)] at hti
        exact .inr ⟨htT, hti⟩
  · rw [Function.update_of_ne hj, h.mem j t]
    constructor
    · intro ⟨htT, hti⟩
      exact ⟨hsub htT, by rw [hidx (hsub htT), if_neg (hx_ne t htT), hti]⟩
    · intro ⟨hm, hti⟩
      rw [hidx hm] at hti
      rcases Set.mem_insert_iff.mp hm with rfl | htT
      · rw [if_pos rfl] at hti
        exact absurd (by exact_mod_cast hti.symm) hj
      · rw [if_neg (hx_ne t htT)] at hti
        exact ⟨htT, hti⟩

theorem Bins.loose_insertTag (hhi : i < 2 ^ 31) (t : Nat) (hm : t ∈ insert tag T)
    (hlt : (insertTag tag k s).index t < 0) : (insertTag tag k s).index t = -1 ∧
      (insertTag tag k s).get t .next = 0 ∧ (insertTag tag k s).get t .prev = 0 := by
  rw [h.enqueue_index hT ht hi hhi hm] at hlt ⊢
  rw [h.enqueue_get hT ht hi hm, h.enqueue_get hT ht hi hm]
  split at hlt
  · omega
  · rename_i hne
    have htT : t ∈ T := (Set.mem_insert_iff.mp hm).resolve_left hne
    obtain ⟨h1, h2, h3⟩ := h.loose t htT hlt
    have hth : t ≠ s.freePages i := h.ne_head hT htT (by omega)
    simp [hne, hth, h1, h2, h3]

/-- `insert_tag` puts an unlinked tag in front of its bin. -/
theorem Bins.enqueue (hn : s.get tag .next = 0) (hp : s.get tag .prev = 0) (hhi : i < 2 ^ 31) :
    Bins (insertTag tag k s) (insert tag T) (Function.update bins i (tag :: bins i)) where
  head j := by
    have hi' : (realIndex s tag k).toNat = i := by omega
    rw [insertTag_freePages, hi']
    by_cases hj : j = i
    · simp [hj]
    · simp [hj, h.head j]
  linked := h.linked_insertTag hT ht hi hn hp
  nodup j := by
    by_cases hj : j = i
    · subst hj
      rw [Function.update_self]
      exact List.nodup_cons.mpr ⟨fun hm => ht (h.mem_tags hm), h.nodup j⟩
    · rw [Function.update_of_ne hj]
      exact h.nodup j
  mem := h.mem_insertTag hT ht hi hhi
  loose := h.loose_insertTag hT ht hi hhi

end

/-! ### A tag in use enters a bin -/

/-- The fields of the free lists. -/
def Field.listed : Field → Bool
  | .index | .next | .prev => true
  | _ => false

/-- No bin starts with a tag in use. -/
theorem Bins.head_ptr (h : Bins s T bins) (hT : Separate T) (ht : tag ∈ T) (hlt : s.index tag < 0)
    (i : Nat) : Ptr T (s.freePages i) ∧ s.freePages i ≠ tag := by
  refine ⟨(h.head_or i).imp id h.mem_tags, fun heq => ?_⟩
  rcases h.head_or i with h0 | hm
  · exact hT.ne_zero tag ht (heq.symm.trans h0)
  · have := h.index_eq hm
    rw [heq] at this
    omega

theorem Bins.insertTag_get (h : Bins s T bins) (hT : Separate T) (ht : tag ∈ T)
    (hlt : s.index tag < 0) (hx : x ∈ T) {f : Field} (hf : f.listed = false) :
    (insertTag tag k s).get x f = s.get x f := by
  obtain ⟨hh, hne⟩ := h.head_ptr hT ht hlt (realIndex s tag k).toNat
  rw [Alloc.insertTag_get hT ht hh hne hx]
  cases f <;> first | exact absurd hf (by decide) | simp

theorem Bins.insertTag_index (h : Bins s T bins) (hT : Separate T) (ht : tag ∈ T)
    (hlt : s.index tag < 0) (hi : realIndex s tag k = i) (hhi : i < 2 ^ 31) (hx : x ∈ T) :
    (insertTag tag k s).index x = if x = tag then (i : Int) else s.index x := by
  obtain ⟨hh, hne⟩ := h.head_ptr hT ht hlt (realIndex s tag k).toNat
  rw [Alloc.insertTag_index hT ht hh hne (by omega) (by omega) hx, hi]

theorem Bins.insertTag_frame (h : Bins s T bins) (ht : tag ∈ T) :
    Frame T s (insertTag tag k s) :=
  Alloc.insertTag_frame ht ((h.head_or _).imp id h.mem_tags)

theorem Bins.requeue (h : Bins s T bins) (hT : Separate T) (ht : tag ∈ T) (hlt : s.index tag < 0)
    (hi : realIndex s tag k = i) (hhi : i < 2 ^ 31) :
    Bins (insertTag tag k s) T (Function.update bins i (tag :: bins i)) := by
  obtain ⟨_, hn, hp⟩ := h.loose tag ht hlt
  have hinsert : insert tag (T \ {tag}) = T := by
    rw [Set.insert_sdiff_singleton, Set.insert_eq_of_mem ht]
  have := (h.forget hlt).enqueue (by rwa [hinsert]) (by simp) hi hn hp hhi
  rwa [hinsert] at this

end Kvi.Alloc
