import Kvi.Alloc.System

/-! When `malloc` asks for new pages.

The search walks one bin, the one of the request's own exponent, and takes the
first tag that fits. `Queued` is what it walks. A free tag in another bin is not
looked at, however large: the remainder of a split is filed under its own size,
so the next request of the same size does not find it. -/
namespace Kvi.Alloc

variable {s s' : Heap} {L : Layout} {t size i p : Nat} {src : PageSource} {ts : List Nat}
  {σ : System} {trace : List (Op × Nat)}

/-- The tags of a bin: its head and what the list links lead to. -/
inductive Queued (s : Heap) (i : Nat) : Nat → Prop where
  | first (h : s.freePages i ≠ 0) : Queued s i (s.freePages i)
  | next {t : Nat} (ht : Queued s i t) (h : s.get t .next ≠ 0) : Queued s i (s.get t .next)

/-- `malloc (size)` calls `liballoc_alloc`. -/
def AsksForPages (src : PageSource) (size : Nat) (s : Heap) : Prop :=
  ∃ p s', ∃ r : PageRange, malloc src size s = some (p, s') ∧
    s'.calls = .alloc r.pages r.base :: s.calls

/-! ### What a bin holds -/

theorem Inv.queued_iff (h : Inv s L) : Queued s i t ↔ t ∈ L.bins i := by
  have hlink := h.bins.linked i
  have hhead := h.bins.head i
  have h0 := h.bins.zero_not_mem (i := i) h.separate
  constructor
  · intro hq
    induction hq with
    | first hne =>
      rcases h.bins.head_or i with hz | hm
      · exact absurd hz hne
      · exact hm
    | next _ hne ih =>
      rcases hlink.fwd_or ih with hz | ⟨hm, _⟩
      · exact absurd hz hne
      · exact hm
  · -- from the head of the list down, each tag leads to the next
    intro ht
    have hwalk : ∀ xs ys, L.bins i = xs ++ ys → ∀ u ∈ xs, Queued s i u := by
      intro xs
      induction xs using List.reverseRecOn with
      | nil => exact fun _ _ u hu => absurd hu (List.not_mem_nil)
      | append_singleton xs x ih =>
        intro ys hxy u hu
        have hxy' : L.bins i = xs ++ x :: ys := by simpa using hxy
        have hx : Queued s i x := by
          have hx0 : x ≠ 0 := fun heq => h0 (by rw [hxy', heq]; simp)
          rcases List.eq_nil_or_concat xs with rfl | ⟨zs, z, rfl⟩
          · rw [hxy'] at hhead
            have hfirst := Queued.first (s := s) (i := i) (by rw [hhead]; exact hx0)
            rwa [hhead] at hfirst
          · have hz := ih _ hxy' z (by simp)
            have hpair : s.get z .next = x := by
              rw [hxy', List.concat_eq_append, List.append_assoc] at hlink
              exact hlink.pair.1
            have hnext := hz.next (by rw [hpair]; exact hx0)
            rwa [hpair] at hnext
        rcases List.mem_append.mp hu with hu | hu
        · exact ih _ hxy' u hu
        · rwa [List.mem_singleton.mp hu]
    exact hwalk (L.bins i) [] (List.append_nil _).symm t ht

theorem queued_head (h : s.freePages i = t) (ht : t ≠ 0) : Queued s i t := by
  subst h
  exact .first ht

theorem not_queued (h : s.freePages i = 0) : ¬ Queued s i t := by
  intro ht
  induction ht with
  | first hne => exact hne h
  | next _ _ ih => exact ih

/-! ### The search -/

/-- A search that finds nothing has seen every tag of the bin. -/
theorem search_all (hl : Linked (s.get · .next) (s.get · .prev) p ts 0) (h0 : 0 ∉ ts)
    (hs : search s size (ts.headD 0) = some 0) : ∀ t ∈ ts, fits s size t = false := by
  induction ts generalizing p with
  | nil => exact nofun
  | cons u us ih =>
    have hu : u ≠ 0 := fun heq => h0 (by simp [heq])
    obtain ⟨_, hnext, htail⟩ := hl
    have hnext : s.get u .next = us.headD 0 := hnext
    rw [List.headD_cons, search, if_neg hu] at hs
    by_cases hfit : fits s size u = true
    · rw [if_pos hfit] at hs
      exact absurd (Option.some.inj hs) hu
    · rw [if_neg hfit, hnext] at hs
      intro t ht
      rcases List.mem_cons.mp ht with rfl | ht
      · simpa using hfit
      · exact ih htail (fun hm => h0 (List.mem_cons_of_mem _ hm)) hs t ht

/-- The search of `malloc` comes back empty exactly when no tag of its bin fits. -/
theorem Inv.search_none (h : Inv s L) :
    Alloc.search s size (s.freePages i) = some 0 ↔ ∀ t, Queued s i t → fits s size t = false := by
  constructor
  · intro hs t ht
    rw [h.bins.head i] at hs
    exact search_all (h.bins.linked i) (h.bins.zero_not_mem h.separate) hs t (h.queued_iff.mp ht)
  · intro hnone
    obtain ⟨t, hs, ht⟩ := h.search size i
    rcases ht with rfl | ⟨hm, hfit⟩
    · exact hs
    · rw [hnone t (h.queued_iff.mpr hm)] at hfit
      exact absurd hfit (by decide)

theorem Inv.setup_freePages (h : Inv s L) : (Alloc.setup s).freePages = s.freePages := by
  funext i
  rw [h.setup.bins.head i, h.bins.head i]

theorem fits_setup : fits (setup s) size t = fits s size t := by
  unfold fits Heap.get
  rw [setup_mem]

theorem Inv.queued_setup (h : Inv s L) : Queued (Alloc.setup s) i t ↔ Queued s i t := by
  rw [h.setup.queued_iff, h.queued_iff]

theorem Inv.allocates_iff (h : Inv s L) :
    AsksForPages src size s ↔ ∀ t, Queued s (searchBin size) t → fits s size t = false := by
  have hnone : Alloc.search (Alloc.setup s) size ((Alloc.setup s).freePages (searchBin size)) = some 0 ↔
      ∀ t, Queued s (searchBin size) t → fits s size t = false := by
    rw [h.setup.search_none]
    exact forall_congr' fun t => by rw [h.queued_setup, fits_setup]
  rw [← hnone]
  constructor
  · intro ⟨p, s', r, hnow, hcalls⟩
    rcases h.malloc_eq src size with ⟨t, _, _, _, _, heq⟩ | ⟨hsearch, _⟩
    · -- a tag was found: the page layer is left alone
      have hsame : (Alloc.carve size t (takeTag t (searchBin size) (Alloc.setup s))).2.calls = _ :=
        carve_calls
      rw [Option.some.inj (heq.symm.trans hnow), takeTag_calls, setup_calls, hcalls] at hsame
      exact absurd hsame (List.cons_ne_self _ _)
    · exact hsearch
  · intro hs
    rcases h.malloc_eq src size with ⟨t, _, ht0, _, hsearch, _⟩ | ⟨_, r, _, _, hnow⟩
    · exact absurd (Option.some.inj (hsearch.symm.trans hs)) ht0
    · by_cases hb : r.base = 0
      · rw [if_pos hb] at hnow
        exact ⟨_, _, r, hnow, rfl⟩
      · rw [if_neg hb] at hnow
        have hcalls : (Alloc.carve size r.base (obtained r (u32 size) (Alloc.setup s))).2.calls = _ :=
          carve_obtained_calls
        exact ⟨_, _, r, hnow, hcalls⟩

/-- The bin of a request. -/
theorem searchBin_eq (hsize : Small size) : searchBin size = max 8 size.log2 := by
  have hlt := hsize.lt
  have hbin : searchBin size = (binIndex (size + 48)).toNat := by
    unfold searchBin binIndex MODE MODE_BEST
    rw [Int.add_zero, tagSize, sub64_of_le (by omega) (by omega), Nat.add_sub_cancel]
  rw [hbin, binIndex_eq (by omega) (by omega), Nat.add_sub_cancel, Int.toNat_natCast]

/-- `malloc` asks for new pages exactly when no free tag of the bin of the request's exponent
fits. -/
theorem asks_iff (h : History src trace σ) (hsize : Small size) :
    AsksForPages src size σ.heap ↔
      ∀ t, Queued σ.heap (max MINEXP size.log2) t → fits σ.heap size t = false := by
  obtain ⟨L, hL⟩ := h.sound
  have hbin : searchBin size = max MINEXP size.log2 := searchBin_eq hsize
  rw [← hbin]
  exact hL.inv.allocates_iff

/-- The remainder is in the bin of its own exponent, 15, and the bin of 100 is empty. -/
theorem once_bins : once.heap.freePages 8 = 0 ∧ once.heap.freePages 15 = 0x1000094 ∧
    fits once.heap 100 0x1000094 = true := by
  refine ⟨?_, ?_, ?_⟩ <;> decide +kernel

theorem asks_once : AsksForPages apart16 100 once.heap :=
  (asks_iff (history_once (by decide)) (by decide)).mpr fun _ ht => absurd ht (not_queued once_bins.1)

/-- The second 100 bytes come from new pages, though the remainder of the first range would do. -/
theorem remainder_missed : History apart16 [(.malloc 100, 0x1000030)] once ∧ Small 100 ∧
    AsksForPages apart16 100 once.heap ∧
    ∃ t, Queued once.heap 15 t ∧ fits once.heap 100 t = true := by
  obtain ⟨hempty, hhead, hfit⟩ := once_bins
  have h : History apart16 [(.malloc 100, 0x1000030)] once := history_once (by decide)
  obtain ⟨L, hL⟩ := h.sound
  refine ⟨h, by decide, hL.inv.allocates_iff.mpr fun _ ht => ?_, 0x1000094, ?_, hfit⟩
  · have hbin : searchBin 100 = 8 := by decide
    rw [hbin] at ht
    exact absurd ht (not_queued hempty)
  · exact queued_head hhead (by omega)

end Kvi.Alloc
