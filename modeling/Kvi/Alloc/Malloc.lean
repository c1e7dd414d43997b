import Kvi.Alloc.Pages

/-! `malloc` from one laid-out heap to the next.

The search of a bin ends, since a bin is a finite list (`Inv.search`). What it
finds comes out of its bin, or a fresh range does, and `carve` notes the size
and queues what is left over. `Handed` is what a caller may rely on. -/
namespace Kvi.Alloc

variable {s s' s'' : Heap} {L L' L'' : Layout} {r : PageRange} {t u x n size i p : Nat}
  {src : PageSource} {xs ys ts : List Nat}

/-- Sizes `malloc` can serve: with its header the request is less than `2^31` bytes of pages. -/
def Small (size : Nat) : Prop := (size + tagSize + (pageSize - 1)) / pageSize * pageSize < 2 ^ 31

instance : DecidablePred Small := fun _ => inferInstanceAs (Decidable (_ < _))

theorem small_iff : Small size ↔ (size + 4143) / 4096 * 4096 < 2 ^ 31 := Iff.rfl

theorem Small.lt (h : Small size) : size + 48 < 2 ^ 31 := by
  rw [small_iff] at h
  omega

theorem Small.le (h : Small size) (hle : n ≤ size) : Small n := by
  have hpages : (n + 4143) / 4096 ≤ (size + 4143) / 4096 := Nat.div_le_div_right (by omega)
  exact small_iff.mpr ((Nat.mul_le_mul_right 4096 hpages).trans_lt (small_iff.mp h))

/-- Sizes for which the bytes of all pages asked for are an `unsigned int`. -/
def Sized (size : Nat) : Prop := (size + tagSize + (pageSize - 1)) / pageSize * pageSize < 2 ^ 32

instance : DecidablePred Sized := fun _ => inferInstanceAs (Decidable (_ < _))

theorem sized_iff : Sized size ↔ (size + 4143) / 4096 * 4096 < 2 ^ 32 := Iff.rfl

theorem Small.sized (h : Small size) : Sized size :=
  sized_iff.mpr (Nat.lt_trans (small_iff.mp h) (by decide))

theorem Sized.lt (h : Sized size) : size + 48 < 2 ^ 32 := by
  rw [sized_iff] at h
  omega

theorem sized_of_lt (h : size < 2 ^ 31) : Sized size := by
  rw [sized_iff]
  omega

theorem pages_lt {bound : Nat} (h : (size + 4143) / 4096 * 4096 < bound) (hb : 65536 < bound) :
    pagesFor (size + 48) * pageSize < bound := by
  have hp : pagesFor (size + 48) = max 16 ((size + 48 + 4095) / 4096) := pagesFor_eq _
  have hs : pageSize = 4096 := rfl
  rw [hp, hs]
  rcases Nat.le_total 16 ((size + 48 + 4095) / 4096) with hm | hm
  · rw [Nat.max_eq_right hm]
    omega
  · rw [Nat.max_eq_left hm]
    omega

theorem Small.pages (h : Small size) : pagesFor (size + 48) * pageSize < 2 ^ 31 :=
  pages_lt (small_iff.mp h) (by decide)

theorem Sized.pages (h : Sized size) : pagesFor (size + 48) * pageSize < 2 ^ 32 :=
  pages_lt (sized_iff.mp h) (by decide)

/-- The block `t` was handed out for `size` bytes and no other block in use was touched. -/
structure Handed (size t : Nat) (s s' : Heap) (L L' : Layout) : Prop where
  inv : Inv s' L'
  inUse : used s' L' = insert t (used s L)
  fresh : t ∉ used s L
  noted : s'.get t .size = size
  room : size + 48 ≤ s'.get t .realSize
  keeps : Keeps (used s L) s s'

/-! ### The search -/

theorem search_linked (hl : Linked (s.get · .next) (s.get · .prev) p ts 0) (h0 : 0 ∉ ts) :
    ∃ t, search s size (ts.headD 0) = some t ∧ (t = 0 ∨ t ∈ ts ∧ fits s size t = true) := by
  induction ts generalizing p with
  | nil =>
    refine ⟨0, ?_, .inl rfl⟩
    rw [search]
    rfl
  | cons t ts ih =>
    have ht : t ≠ 0 := fun heq => h0 (by simp [heq])
    rw [List.headD_cons, search, if_neg ht]
    by_cases hfit : fits s size t = true
    · rw [if_pos hfit]
      exact ⟨t, rfl, .inr ⟨List.mem_cons_self .., hfit⟩⟩
    · obtain ⟨_, hnext, htail⟩ := hl
      obtain ⟨v, hv, hor⟩ := ih htail fun hm => h0 (List.mem_cons_of_mem _ hm)
      have hnext : s.get t .next = ts.headD 0 := hnext
      rw [if_neg hfit, hnext]
      exact ⟨v, hv, hor.imp id fun hm => ⟨List.mem_cons_of_mem _ hm.1, hm.2⟩⟩

namespace Inv

/-- The list search of `malloc` ends, with `NULL` or a queued tag that fits. -/
theorem search (h : Inv s L) (size i : Nat) :
    ∃ t, search s size (s.freePages i) = some t ∧
      (t = 0 ∨ t ∈ L.bins i ∧ fits s size t = true) := by
  rw [h.bins.head i]
  exact search_linked (h.bins.linked i) (h.bins.zero_not_mem h.separate)

theorem room_of_fits (h : Inv s L) (ht : t ∈ tags s L) (hsize : size + 48 < 2 ^ 32)
    (hfit : fits s size t = true) : size + 96 ≤ s.get t .realSize := by
  have hroom := h.regions.room ht
  have hlt := (h.regions.block_lt ht).1
  have hfit : u64 (size + 48) ≤ sub64 (s.get t .realSize) 48 := of_decide_eq_true hfit
  rw [sub64_of_le (by omega) hroom, u64_of_lt (by omega)] at hfit
  omega

/-! ### The first call -/

theorem bins_empty (h : Inv s L) (hcalls : s.calls = []) (i : Nat) : L.bins i = [] := by
  rw [List.eq_nil_iff_forall_not_mem]
  intro t ht
  obtain ⟨r, hr, _⟩ := (h.mem_bin ht).1
  rw [hcalls] at hr
  cases hr

/-- Clearing the bins changes nothing. -/
theorem setup (h : Inv s L) : Inv (setup s) L := by
  unfold Alloc.setup
  split
  · exact h
  · rename_i hinit
    have hcalls := h.unset (by simpa using hinit)
    refine ⟨h.regions.congr fun _ _ _ _ => rfl, h.bins.congr ?_ (fun _ _ => rfl) (fun _ _ => rfl)
      fun _ _ => rfl, h.sorted, fun i => ?_, fun i => ?_, h.coalesced, fun hi => absurd hi (by simp)⟩
    · funext i
      rw [h.bins.head i, h.bins_empty hcalls]
      rfl
    · rw [h.bins_empty hcalls]
      rfl
    · show (0 : Int) ≤ MAXCOMPLETE
      decide

end Inv

theorem setup_mem : (setup s).mem = s.mem := by
  unfold setup
  split <;> rfl

theorem setup_calls : (setup s).calls = s.calls := by
  unfold setup
  split <;> rfl

theorem setup_initialized : (setup s).initialized = true := by
  unfold setup
  split
  · assumption
  · rfl

theorem used_setup : used (setup s) L = used s L := by
  simp only [used, tags, Heap.index, Heap.get, setup_mem, setup_calls]

theorem keeps_setup {U : Set Nat} : Keeps U s (setup s) := by
  refine ⟨fun u _ => ?_, fun u _ => ?_, fun u _ b _ => ?_⟩
  · simp only [Heap.get, setup_mem]
  · simp only [Heap.get, setup_mem]
  · rw [setup_mem]

/-! ### Noting the size -/

theorem setSize_get (h : Inv s L) (ht : t ∈ tags s L) (hx : x ∈ tags s L) (hsize : size < 2 ^ 32)
    {f : Field} :
    (s.set t .size size).get x f = if x = t ∧ f = .size then size else s.get x f := by
  have hm : size % 256 ^ 4 = size := Nat.mod_eq_of_lt hsize
  rw [get_set h.separate hx ht, Field.width, hm]

theorem Inv.setSize (h : Inv s L) (ht : t ∈ tags s L) (hsize : size < 2 ^ 32) :
    Inv (s.set t .size size) L :=
  h.congr rfl rfl rfl rfl fun x hx f hf => by
    rw [setSize_get h ht hx hsize, if_neg fun hc => hf hc.2]

theorem Inv.used_setSize (h : Inv s L) (ht : t ∈ tags s L) (hsize : size < 2 ^ 32) :
    used (s.set t .size size) L = used s L := by
  ext x
  rw [mem_used, mem_used]
  refine and_congr_right fun hx => ?_
  rw [index_congr (s := s)]
  rw [setSize_get h ht hx hsize]
  simp

theorem Inv.keeps_setSize (h : Inv s L) (ht : t ∈ tags s L) (hsize : size < 2 ^ 32) :
    Keeps (tags s L \ {t}) s (s.set t .size size) := by
  refine h.keeps Set.sdiff_subset (frame_set ht).mem (fun u hu => ?_) fun u hu => ?_
  · rw [setSize_get h ht hu.1 hsize, if_neg fun hc => hu.2 hc.1]
  · rw [setSize_get h ht hu.1 hsize, if_neg (by simp)]

/-! ### Splitting the excess off -/

theorem addCompletePages_zero : s.addCompletePages i 0 = s := by
  unfold Heap.addCompletePages
  rw [Int.add_zero, Function.update_eq_self]

/-- `insertTag` overwrites the index whatever it was. -/
theorem insertTag_set_index {k : Int} {v : Nat} :
    insertTag t k (s.set t .index v) = insertTag t k s := by
  have hreal : (s.set t .index v).get t .realSize = s.get t .realSize :=
    Memory.load_store_disjoint (by simp only [Field.offset, Field.width]; omega)
  have hindex : realIndex (s.set t .index v) t k = realIndex s t k := by
    unfold realIndex
    rw [hreal]
  have hset : ∀ w, (s.set t .index v).set t .index w = s.set t .index w := by
    intro w
    unfold Heap.set
    rw [Memory.store_store]
  simp only [insertTag, hindex, hset]

theorem splitTag_eq : (splitTag t s).2 =
    insertTag (splitAddr t s) (-1) ((cutLoose t s).addCompletePages i 0) := by
  rw [addCompletePages_zero, cutLoose, insertTag_set_index]
  rfl

/-- The new tag has the block in use on its left and nothing queued on its right: it enters a bin. -/
theorem Inv.queue_cut (h : Inv s L) (ht : t ∈ used s L) (hr : r ∈ held s.calls)
    (hts : L.chain r.base = xs ++ t :: ys) (hsize : s.get t .size + 96 ≤ s.get t .realSize)
    (hright : s.get t .splitRight ≠ 0 → s.index (s.get t .splitRight) < 0) :
    ∃ i, Inv (insertTag (splitAddr t s) (-1) ((cutLoose t s).addCompletePages i 0))
      ⟨Function.update L.chain r.base (xs ++ t :: splitAddr t s :: ys),
        Function.update L.bins i (splitAddr t s :: L.bins i)⟩ := by
  have hcut := h.cut hr hts hsize ht
  have hnew := fun f : Field => h.cutLoose_new hr hts hsize (f := f)
  have hn : splitAddr t s ∈ used (cutLoose t s) ⟨Function.update L.chain r.base
      (xs ++ t :: splitAddr t s :: ys), L.bins⟩ := by
    rw [h.used_cut hr hts hsize]
    exact Set.mem_insert ..
  have hleft : (cutLoose t s).get (splitAddr t s) .splitLeft = t := by
    rw [hnew .splitLeft (by simp)]
    rfl
  have hnright : (cutLoose t s).get (splitAddr t s) .splitRight = s.get t .splitRight := by
    rw [hnew .splitRight (by simp)]
    rfl
  have hidx : ∀ x ∈ tags s L, (cutLoose t s).index x = s.index x :=
    fun x hx => index_congr (h.cutLoose_get_old hr hts hsize hx rfl)
  have hwhole : whole (cutLoose t s) (splitAddr t s) = false := by
    simp only [whole, hleft, h.separate.ne_zero t ht.1, false_and, decide_false]
  obtain ⟨i, hi, _⟩ := hcut.bin_eq hn.1
  refine ⟨i, hcut.queue hn (.inl (by decide)) hi ?_ ?_ ?_ ?_⟩
  · rw [hwhole]
    rfl
  · rw [Int.add_zero]
    exact hcut.bounded i
  · rw [hleft, hidx t ht.1]
    exact fun _ => ht.2
  · rw [hnright]
    intro h0
    rw [hidx _ (h.regions.right_mem ht.1 h0)]
    exact hright h0

/-- `split_tag` on a block in use whose right neighbour is in use too. -/
theorem Inv.splitTag (h : Inv s L) (ht : t ∈ used s L)
    (hsize : s.get t .size + 96 ≤ s.get t .realSize)
    (hright : s.get t .splitRight ≠ 0 → s.index (s.get t .splitRight) < 0) :
    ∃ L', Inv (splitTag t s).2 L' ∧ used (splitTag t s).2 L' = used s L ∧
      Keeps (used s L \ {t}) s (splitTag t s).2 ∧
      (splitTag t s).2.get t .size = s.get t .size ∧
      (splitTag t s).2.get t .realSize = s.get t .size + 48 ∧
      (splitTag t s).2.calls = s.calls ∧
      tags (splitTag t s).2 L' = insert (splitAddr t s) (tags s L) := by
  obtain ⟨r, hr, htc⟩ := ht.1
  obtain ⟨xs, ys, hts⟩ := List.append_of_mem htc
  have hcut := h.cut hr hts hsize ht
  have hused := h.used_cut hr hts hsize
  have htags := h.tags_cut hr hts hsize
  have hfresh := (h.regions.split_fresh ht.1 hsize).1
  have hn : splitAddr t s ∈ used (cutLoose t s) ⟨Function.update L.chain r.base
      (xs ++ t :: splitAddr t s :: ys), L.bins⟩ := by
    rw [hused]
    exact Set.mem_insert ..
  obtain ⟨i, hqueue⟩ := h.queue_cut ht hr hts hsize hright
  have hkeep := hcut.keeps_queue (k := -1) (i := i) (d := 0) hn
  have htin : t ∈ tags (cutLoose t s) ⟨Function.update L.chain r.base
      (xs ++ t :: splitAddr t s :: ys), L.bins⟩ := by
    rw [htags]
    exact Set.mem_insert_of_mem _ ht.1
  rw [splitTag_eq]
  refine ⟨_, hqueue, ?_, ?_, ?_, ?_, ?_, ?_⟩
  · rw [hcut.used_queue hn (.inl (by decide)), hused]
    exact Set.insert_sdiff_self_of_notMem fun hm => hfresh hm.1
  · refine ((h.keeps_cut hr hts hsize ht).mono ?_).trans (hkeep.mono ?_)
    · exact fun u hu => ⟨hu.1.1, hu.2⟩
    · rw [htags]
      exact fun u hu => Set.mem_insert_of_mem _ hu.1.1
  · rw [hkeep.size t htin, h.cutLoose_get_old hr hts hsize ht.1 rfl]
  · rw [hkeep.realSize t htin, h.cutLoose_get_of hr hts hsize ht.1]
    simp
  · rw [(hcut.frame_queue hn.1).calls, (h.frame_cutLoose hr hts hsize).calls]
  · rw [← htags, tags, (hcut.frame_queue hn.1).calls]
    rfl

/-- A remainder that is positive as an `int` did not wrap. -/
theorem room_of_remainder {real : Nat} (hreal : real < 2 ^ 32) (hle : size ≤ real)
    (h : 0 < s32 (u32 (sub64 (sub64 real size) (tagSize * 2)))) : size + 96 ≤ real := by
  rw [sub64_of_le (by omega) hle] at h
  by_contra hlt
  unfold s32 sub64 u64 u32 tagSize at h
  split at h <;> omega

/-- The tag that the end of `malloc` splits off, if it does. -/
def carved (size tag : Nat) (s : Heap) : List Nat :=
  let s := s.set tag .size (u32 size)
  let remainder := u32 (sub64 (sub64 (s.get tag .realSize) size) (tagSize * 2))
  if 0 < s32 remainder ∧ 0 ≤ getexp remainder then [splitAddr tag s] else []

/-- The end of `malloc`: the block `t`, in use, is given its size and shortened. -/
theorem Inv.carve (h : Inv s L) (ht : t ∈ used s L) (hsize : size + 48 < 2 ^ 32)
    (hroom : size + 48 ≤ s.get t .realSize)
    (hright : s.get t .splitRight ≠ 0 → s.index (s.get t .splitRight) < 0) :
    ∃ s' L', carve size t s = (t + 48, s') ∧ Inv s' L' ∧ used s' L' = used s L ∧
      Keeps (used s L \ {t}) s s' ∧ s'.get t .size = size ∧ size + 48 ≤ s'.get t .realSize ∧
      s'.calls = s.calls ∧ tags s' L' ⊆ tags s L ∪ {x | x ∈ carved size t s} := by
  have hlt := (h.regions.block_lt ht.1)
  have hptr : u64 (t + tagSize) = t + 48 := u64_of_lt (by simp only [tagSize]; omega)
  have hz : size < 2 ^ 32 := by omega
  have hu : u32 size = size := u32_of_lt hz
  have h1 := h.setSize ht.1 hz
  have hused := h.used_setSize ht.1 hz
  have hkeep := h.keeps_setSize ht.1 hz
  have hget : ∀ x ∈ tags s L, ∀ f, (s.set t .size size).get x f = _ :=
    fun x hx f => setSize_get h ht.1 hx hz
  have hnoted : (s.set t .size size).get t .size = size := by
    rw [hget t ht.1, if_pos ⟨rfl, rfl⟩]
  have hreal : (s.set t .size size).get t .realSize = s.get t .realSize := by
    rw [hget t ht.1, if_neg (by simp)]
  simp only [Alloc.carve, carved, hptr, hu, hreal]
  split
  · rename_i hcond
    have hfit := room_of_remainder hlt.1 (by omega) hcond.1
    have ht1 : t ∈ used (s.set t .size size) L := by
      rw [hused]
      exact ht
    obtain ⟨L', hinv, hused', hkeep', hsz, hrl, hcalls, htags⟩ := h1.splitTag ht1
      (by rw [hnoted, hreal]; exact hfit)
      (by
        rw [hget t ht.1, if_neg (by simp)]
        intro h0
        rw [index_congr ((hget _ (h.regions.right_mem ht.1 h0) .index).trans
          (if_neg (by simp)))]
        exact hright h0)
    refine ⟨_, L', rfl, hinv, hused'.trans hused, ?_, hsz.trans hnoted, ?_, hcalls, ?_⟩
    · rw [hused] at hkeep'
      exact (hkeep.mono fun u hu => ⟨hu.1.1, hu.2⟩).trans hkeep'
    · rw [hrl, hnoted]
    · intro x hx
      rw [htags] at hx
      exact (Set.mem_insert_iff.mp hx).symm.imp id List.mem_singleton.mpr
  · exact ⟨_, L, rfl, h1, hused, hkeep.mono fun u hu => ⟨hu.1.1, hu.2⟩, hnoted,
      by rw [hreal]; exact hroom, rfl, Set.subset_union_left⟩

/-! ### The whole call -/

theorem set_calls {f : Field} {v : Nat} : (s.set t f v).calls = s.calls := rfl

theorem setThrough_calls {f : Field} {v : Nat} : (s.setThrough p f v).calls = s.calls := by
  unfold Heap.setThrough
  split <;> rfl

theorem insertTag_calls {k : Int} : (insertTag t k s).calls = s.calls := by
  simp only [insertTag, linkHead, Heap.setFreePages]
  split <;> rfl

/-- The page layer is called for nothing but fresh ranges. -/
theorem carve_calls : (carve size t s).2.calls = s.calls := by
  simp only [carve]
  split
  · simp only [splitTag, insertTag_calls, cutTag, set_calls, setThrough_calls]
  · rfl

theorem dropHead_calls : (dropHead t s).calls = s.calls := by
  rw [dropHead]
  split <;> rfl

theorem removeTag_calls : (removeTag t s).calls = s.calls := by
  simp only [removeTag, set_calls, setThrough_calls, dropHead_calls]

theorem takeTag_calls {i : Nat} : (takeTag t i s).calls = s.calls := by
  rw [← removeTag_calls (t := t) (s := s), takeTag]
  generalize removeTag t s = s'
  split <;> rfl

theorem allocateNewTag_calls (src : PageSource) (size : Nat) (s : Heap) :
    ∃ r : PageRange, (allocateNewTag src size s).2.calls = .alloc r.pages r.base :: s.calls := by
  obtain ⟨r, hr⟩ : ∃ r : PageRange, r = ⟨src s.calls (pagesFor (u32 (size + tagSize))),
    pagesFor (u32 (size + tagSize))⟩ := ⟨_, rfl⟩
  refine ⟨r, ?_⟩
  rw [allocateNewTag_eq hr]
  split <;> rfl

/-- Whatever the heap holds, a call adds at most one call of the page layer. -/
theorem malloc_calls {src : PageSource} (h : Alloc.malloc src size s = some (p, s')) :
    s'.calls = s.calls ∨ ∃ r : PageRange, s'.calls = .alloc r.pages r.base :: s.calls := by
  rw [Alloc.malloc] at h
  obtain ⟨u, _, h⟩ := Option.bind_eq_some_iff.mp h
  obtain ⟨r, hr⟩ := allocateNewTag_calls src (u32 size) (Alloc.setup s)
  rw [setup_calls] at hr
  generalize allocateNewTag src (u32 size) (Alloc.setup s) = new at h hr
  split at h
  · right
    refine ⟨r, ?_⟩
    dsimp only at h
    split at h
    · obtain ⟨_, rfl⟩ := Prod.mk.inj (Option.some.inj h)
      exact hr
    · have hcarve : (Alloc.carve size new.1 new.2).2.calls = new.2.calls := carve_calls
      rw [Option.some.inj h] at hcarve
      exact hcarve.trans hr
  · left
    generalize htaken : takeTag u _ (Alloc.setup s) = taken at h
    have hcarve : (Alloc.carve size u taken).2.calls = taken.calls := carve_calls
    rw [Option.some.inj h, ← htaken, takeTag_calls, setup_calls] at hcarve
    exact hcarve

theorem granted_of_malloc {src : PageSource} (h : Alloc.malloc src size s = some (p, s'))
    (hg : Granted s'.calls) : Granted s.calls := by
  rcases malloc_calls h with hc | ⟨r, hc⟩
  · rwa [hc] at hg
  · rw [hc] at hg
    exact hg.2.2.2

/-- The bin `malloc` searches. -/
def searchBin (size : Nat) : Nat := (atLeastMin (getexp (u32 size) + MODE)).toNat

/-- When the search finds nothing a fresh range is asked for. -/
theorem malloc_none (hsearch : search (setup s) size ((setup s).freePages (searchBin size)) = some 0)
    (hr : r = ⟨src s.calls (pagesFor (u32 (u32 size + tagSize))),
      pagesFor (u32 (u32 size + tagSize))⟩) :
    malloc src size s = some (if r.base = 0 then
      (0, {setup s with calls := .alloc r.pages r.base :: s.calls})
      else carve size r.base (obtained r (u32 size) (setup s))) := by
  have hsearch : search (setup s) size ((setup s).freePages
      (atLeastMin (getexp (u32 size) + MODE)).toNat) = some 0 := hsearch
  rw [← setup_calls (s := s)] at hr
  simp only [malloc, hsearch, Option.bind_eq_bind, Option.bind_some, if_true]
  rw [allocateNewTag_eq hr]
  by_cases hb : r.base = 0
  · rw [if_pos hb, if_pos hb, setup_calls]
    exact if_pos rfl
  · rw [if_neg hb, if_neg hb]
    exact congrArg some (if_neg hb).symm

theorem malloc_found (ht : t ≠ 0)
    (hsearch : search (setup s) size ((setup s).freePages (searchBin size)) = some t) :
    malloc src size s = some (carve size t (takeTag t (searchBin size) (setup s))) := by
  have hsearch : search (setup s) size ((setup s).freePages
      (atLeastMin (getexp (u32 size) + MODE)).toNat) = some t := hsearch
  simp only [malloc, hsearch, Option.bind_eq_bind, Option.bind_some]
  exact if_neg ht

/-- A fresh range for a request of `n` bytes. -/
structure Obtained (rs : List PageRange) (r : PageRange) (n : Nat) : Prop where
  pages : r.pages = pagesFor (u32 (n + 48))
  nonnull : r.base ≠ 0
  stop_lt : r.stop < 2 ^ 64
  disjoint : ∀ r' ∈ rs, PageRange.Disjoint r r'

theorem Obtained.fits {rs : List PageRange} (h : Obtained rs r n) (hn : n + 48 < 2 ^ 32) :
    n + 48 ≤ r.bytes := by
  rw [PageRange.bytes, h.pages, u32_of_lt hn]
  exact le_pagesFor _

theorem Obtained.fresh {rs : List PageRange} (h : Obtained rs r n) (hsmall : r.bytes < 2 ^ 32) :
    Fresh rs r := by
  refine ⟨h.nonnull, h.stop_lt, h.disjoint, ?_, hsmall⟩
  rw [h.pages, pagesFor_eq]
  exact Nat.le_max_left ..

theorem Obtained.small {rs : List PageRange} (h : Obtained rs r n) (hn : Sized n) :
    r.bytes < 2 ^ 32 := by
  rw [PageRange.bytes, h.pages, u32_of_lt hn.lt]
  exact hn.pages

theorem u32_tag : u32 (u32 n + tagSize) = u32 (n + 48) := by
  unfold u32 tagSize
  omega

/-- A fresh range is in the log. -/
theorem carve_obtained_calls :
    (carve n r.base (obtained r size (setup s))).2.calls = .alloc r.pages r.base :: s.calls := by
  rw [carve_calls, ← setup_calls (s := s)]
  rfl

/-- `malloc` takes the first block of its bin that fits, or else asks for a range. -/
theorem Inv.malloc_eq (h : Inv s L) (src : PageSource) (n : Nat) :
    (∃ t ∈ L.bins (searchBin n), t ≠ 0 ∧ fits (Alloc.setup s) n t = true ∧
      Alloc.search (Alloc.setup s) n ((Alloc.setup s).freePages (searchBin n)) = some t ∧
      Alloc.malloc src n s = some (Alloc.carve n t (takeTag t (searchBin n) (Alloc.setup s)))) ∨
    (Alloc.search (Alloc.setup s) n ((Alloc.setup s).freePages (searchBin n)) = some 0 ∧
      ∃ r : PageRange, r.pages = pagesFor (u32 (n + 48)) ∧ r.base = src s.calls r.pages ∧
        Alloc.malloc src n s = some (if r.base = 0 then
          (0, {Alloc.setup s with calls := .alloc r.pages r.base :: s.calls})
          else Alloc.carve n r.base (obtained r (u32 n) (Alloc.setup s)))) := by
  obtain ⟨t, hsearch, ht⟩ := h.setup.search n (searchBin n)
  rcases ht with rfl | ⟨ht, hfit⟩
  · obtain ⟨r, hr⟩ : ∃ r : PageRange, r = ⟨src s.calls (pagesFor (u32 (u32 n + tagSize))),
      pagesFor (u32 (u32 n + tagSize))⟩ := ⟨_, rfl⟩
    have hpages : r.pages = pagesFor (u32 (n + 48)) := by rw [hr, u32_tag]
    exact .inr ⟨hsearch, r, hpages, by rw [hr], malloc_none hsearch hr⟩
  · have ht0 : t ≠ 0 := h.setup.separate.ne_zero t (h.setup.mem_bin ht).1
    exact .inl ⟨t, ht, ht0, hfit, hsearch, malloc_found ht0 hsearch⟩

/-- A block that was found in its bin. -/
theorem Inv.handed_found (h : Inv s L) (hsize : size + 48 < 2 ^ 32) (ht : t ∈ L.bins i)
    (hfit : fits s size t = true) :
    ∃ s' L', Alloc.carve size t (takeTag t i s) = (t + 48, s') ∧ Handed size t s s' L L' ∧
      s'.calls = s.calls ∧ tags s' L' ⊆ tags s L ∪ {x | x ∈ carved size t (takeTag t i s)} := by
  obtain ⟨htT, hti⟩ := h.mem_bin ht
  have hroom := h.room_of_fits htT hsize hfit
  have hkeep := h.keeps_take ht
  have hused := h.used_take ht
  have hget : ∀ x ∈ tags s L, ∀ f : Field, f.listed = false → (takeTag t i s).get x f = s.get x f :=
    fun x hx f hf => takeTag_get.trans (h.removeTag_get_of ht hx hf)
  have hfresh : t ∉ used s L := by
    intro hm
    have := hm.2
    omega
  obtain ⟨s', L', heq, hinv, hused', hkeep', hsz, hrl, hcalls, htags⟩ :=
    (h.take ht).carve (t := t) (by rw [hused]; exact Set.mem_insert ..) hsize
      (by rw [hget t htT .realSize rfl]; omega)
      (by
        rw [hget t htT .splitRight rfl]
        intro h0
        have hrT := h.regions.right_mem htT h0
        rw [takeTag_index, removeTag_index h.separate (h.bins.linkable h.separate ht) hrT]
        split
        · decide
        · exact h.coalesced t htT h0 (by omega))
  refine ⟨s', L', heq, ⟨hinv, hused'.trans hused, hfresh, hsz, hrl, ?_⟩,
    hcalls.trans (h.frame_takeTag ht).calls, ?_⟩
  · refine (hkeep.mono fun u hu => hu.1).trans (hkeep'.mono fun u hu => ?_)
    rw [hused]
    exact ⟨Set.mem_insert_of_mem _ hu, fun heq => hfresh (heq ▸ hu)⟩
  · have hsame : tags (takeTag t i s) ⟨L.chain, Function.update L.bins i ((L.bins i).erase t)⟩ =
        tags s L := by
      simp only [tags, (h.frame_takeTag ht).calls]
    rwa [hsame] at htags

/-- A block made of a fresh range. -/
theorem Inv.handed_fresh (h : Inv s L) (hinit : s.initialized = true) (hsize : size + 48 < 2 ^ 32)
    (hf : Fresh (held s.calls) r) (hroom : size + 48 ≤ r.bytes) :
    ∃ s' L', Alloc.carve size r.base (obtained r size s) = (r.base + 48, s') ∧
      Handed size r.base s s' L L' ∧ s'.calls = .alloc r.pages r.base :: s.calls ∧
      tags s' L' ⊆ insert r.base (tags s L) ∪ {x | x ∈ carved size r.base (obtained r size s)} := by
  have hlt : size < 2 ^ 32 := by omega
  have hkeep := h.keeps_take_range hf hlt hinit
  have hused := h.used_take_range hf hlt
  have hnew := fun f : Field => h.obtained_get_new hf hlt (f := f)
  have hfresh : r.base ∉ used s L := fun hm => (h.fresh_separate hf).1 hm.1
  obtain ⟨s', L', heq, hinv, hused', hkeep', hsz, hrl, hcalls, htags⟩ :=
    (h.take_range hf hlt hinit).carve (t := r.base) (by rw [hused]; exact Set.mem_insert ..) hsize
      (by rw [hnew]; exact hroom) (by rw [hnew]; exact fun h0 => absurd rfl h0)
  refine ⟨s', L', heq, ⟨hinv, hused'.trans hused, hfresh, hsz, hrl, ?_⟩, hcalls, ?_⟩
  · refine (hkeep.mono fun u hu => hu.1).trans (hkeep'.mono fun u hu => ?_)
    rw [hused]
    exact ⟨Set.mem_insert_of_mem _ hu, fun heq => hfresh (heq ▸ hu)⟩
  · rw [(h.obtained_regions hf hlt).2] at htags
    exact htags

theorem Handed.after_setup (h : Handed size t (Alloc.setup s) s' L L') : Handed size t s s' L L' := by
  obtain ⟨hinv, hused, hfresh, hsz, hrl, hkeep⟩ := h
  rw [used_setup] at hused hfresh hkeep
  exact ⟨hinv, hused, hfresh, hsz, hrl, keeps_setup.trans hkeep⟩

/-- `malloc` ends. On granted ranges it hands out a block and touches no other block in use. -/
theorem Inv.malloc (src : PageSource) (h : Inv s L) (hsize : Sized size) :
    ∃ p s', Alloc.malloc src size s = some (p, s') ∧
      (s'.calls = s.calls ∨ ∃ r : PageRange, r.pages = pagesFor (size + 48) ∧
        r.base = src s.calls r.pages ∧ s'.calls = .alloc r.pages r.base :: s.calls) ∧
      (Granted s'.calls → ∃ t L', p = t + 48 ∧ Handed size t s s' L L') := by
  have hlt := hsize.lt
  rcases h.malloc_eq src size with ⟨t, ht, _, hfit, _, hnow⟩ | ⟨_, r, hpages, hbase, hnow⟩
  · obtain ⟨s', L', heq, hh, hcalls, _⟩ := h.setup.handed_found hlt ht hfit
    exact ⟨t + 48, s', hnow.trans (congrArg some heq), .inl (hcalls.trans setup_calls),
      fun _ => ⟨t, L', rfl, hh.after_setup⟩⟩
  · have hpages' : r.pages = pagesFor (size + 48) := by
      rw [hpages, u32_of_lt hlt]
    rw [u32_of_lt (show size < 2 ^ 32 by omega)] at hnow
    by_cases hb : r.base = 0
    · rw [if_pos hb] at hnow
      exact ⟨0, _, hnow, .inr ⟨r, hpages', hbase, rfl⟩, fun hg => absurd hb hg.1⟩
    · rw [if_neg hb] at hnow
      have hcalls : (Alloc.carve size r.base (obtained r size (Alloc.setup s))).2.calls = _ :=
        carve_obtained_calls
      obtain ⟨p, s', hcarve⟩ :
          ∃ p s', Alloc.carve size r.base (obtained r size (Alloc.setup s)) = (p, s') := ⟨_, _, rfl⟩
      rw [hcarve] at hnow hcalls
      refine ⟨p, s', hnow, .inr ⟨r, hpages', hbase, hcalls⟩, fun hg => ?_⟩
      rw [show s'.calls = _ from hcalls] at hg
      have hr : Obtained (held s.calls) r size := ⟨hpages, hb, hg.2.1, hg.2.2.1⟩
      have hf : Fresh (held (Alloc.setup s).calls) r := by
        rw [setup_calls]
        exact hr.fresh (hr.small hsize)
      obtain ⟨s'', L', heq, hh, _⟩ :=
        h.setup.handed_fresh setup_initialized hlt hf (hr.fits hlt)
      obtain ⟨rfl, rfl⟩ := Prod.mk.inj (heq.symm.trans hcarve)
      exact ⟨r.base, L', rfl, hh.after_setup⟩

end Kvi.Alloc
