import Kvi.Alloc.Refused
import Kvi.Alloc.Guarantees
import Mathlib.Algebra.BigOperators.Intervals
import Mathlib.Algebra.Order.BigOperators.Group.Finset

/-! The ranges the allocator keeps.

A page range whose last live block is freed is not given back to the page layer at
once: `free` keeps up to `MAXCOMPLETE` such ranges of each size class standing by.
What counts them is `l_completePages`, which is raised by `free`, lowered by the
search of `malloc` and never compared with the bins. Here it is shown to be the
number of ranges held without a live block, class by class, in every state; and a
range goes back exactly when its last block is freed and its class is full
(`idle_ranges_kept`). -/
namespace Kvi.Alloc

/-- A block of the range may have its pointer at `p`; that of an empty block may be where the
range ends. -/
def PageRange.Covers (r : PageRange) (p : Nat) : Prop := r.base < p ∧ p ≤ r.stop

/-- No live block lies in the range. -/
def Idle (live : List Block) (r : PageRange) : Prop := ∀ b ∈ live, ¬ r.Covers b.ptr

instance (r : PageRange) (p : Nat) : Decidable (r.Covers p) := inferInstanceAs (Decidable (_ ∧ _))

instance (live : List Block) (r : PageRange) : Decidable (Idle live r) :=
  inferInstanceAs (Decidable (∀ b ∈ live, ¬ r.Covers b.ptr))

/-- The ranges without live blocks of a size class. -/
def idle (σ : System) (i : Int) : List PageRange :=
  (held σ.heap.calls).filter fun r => Idle σ.live r ∧ binIndex r.bytes = i

/-- None of the blocks at `U` lies in the range. -/
def Vacant (U : Set Nat) (r : PageRange) : Prop := ∀ u ∈ U, ¬ (r.base ≤ u ∧ u < r.stop)

variable {src : PageSource} {trace : List (Op × Nat)} {σ : System} {s s' : Heap} {L L' : Layout}
  {r r' : PageRange} {t u p i : Nat} {U : Set Nat}

/-! ### Where the blocks lie -/

theorem Inv.range_of_mem (h : Inv s L) (ht : t ∈ tags s L) (hr : r ∈ held s.calls)
    (hlo : r.base < t + 48) (hhi : t < r.stop) : t ∈ L.chain r.base := by
  obtain ⟨r', hr', htc⟩ := ht
  have hw := h.regions.within hr' htc
  rcases h.regions.apart_or hr' hr with rfl | hd | hd
  · exact htc
  · omega
  · omega

/-- A header and the pointer behind it lie in the same range. -/
theorem Inv.covers_iff (h : Inv s L) (ht : t ∈ tags s L) (hr : r ∈ held s.calls) :
    r.Covers (t + 48) ↔ r.base ≤ t ∧ t < r.stop := by
  constructor
  · intro ⟨hlo, hhi⟩
    have hw := h.regions.within hr (h.range_of_mem ht hr hlo (by omega))
    omega
  · intro ⟨hlo, hhi⟩
    have hw := h.regions.within hr (h.range_of_mem ht hr (by omega) hhi)
    exact ⟨by omega, by omega⟩

theorem Inv.mem_chain_iff (h : Inv s L) (ht : t ∈ tags s L) (hr : r ∈ held s.calls) :
    t ∈ L.chain r.base ↔ r.base ≤ t ∧ t < r.stop := by
  constructor
  · intro htc
    have hw := h.regions.within hr htc
    omega
  · intro ⟨hlo, hhi⟩
    exact h.range_of_mem ht hr (by omega) hhi

/-! ### A range without a block in use -/

/-- The size classes of whole ranges: a range has at least sixteen pages. -/
theorem Inv.class_bounds (h : Inv s L) (hr : r ∈ held s.calls) :
    15 ≤ binIndex r.bytes ∧ binIndex r.bytes ≤ 31 := by
  have hpages := h.regions.pages r hr
  have hsmall := h.regions.small r hr
  have hbytes : 65536 ≤ r.bytes := by
    simp only [PageRange.bytes, pageSize, pageCount] at hpages ⊢
    omega
  have hlo := (Nat.le_log2 (n := r.bytes - 48) (by omega)).mpr (show 2 ^ 15 ≤ r.bytes - 48 by omega)
  have hhi := (Nat.log2_lt (n := r.bytes - 48) (by omega)).mpr (show r.bytes - 48 < 2 ^ 32 by omega)
  rw [binIndex_eq (by omega) hsmall]
  omega

/-- Of such a range there is one tag, and it is in the bin of the range's size. -/
theorem Inv.vacant_iff (h : Inv s L) (hr : r ∈ held s.calls) :
    Vacant (used s L) r ↔ s.index r.base = binIndex r.bytes ∧ whole s r.base = true ∧ r.base ∈ tags s L := by
  have htiled := h.tiled hr
  have hbase : r.base ∈ L.chain r.base := List.mem_of_head? htiled.first
  have hin := h.regions.within hr hbase
  constructor
  · intro hv
    have hfree : ∀ t ∈ L.chain r.base, 0 ≤ s.index t := by
      intro t ht
      by_contra hi
      exact hv t ⟨⟨r, hr, ht⟩, by omega⟩ ((h.mem_chain_iff ⟨r, hr, ht⟩ hr).mp ht)
    have hright : s.get r.base .splitRight = 0 := by
      by_contra h0
      have hmem : s.get r.base .splitRight ∈ L.chain r.base :=
        (((h.regions.chain r hr).linked.fwd_or hbase).resolve_left h0).1
      have hi := h.coalesced _ ⟨r, hr, hbase⟩ h0 (hfree _ hbase)
      have := hfree _ hmem
      omega
    obtain ⟨_, _, hsize⟩ := h.regions.whole_range hr hbase htiled.left hright
    refine ⟨?_, decide_eq_true ⟨htiled.left, hright⟩, ⟨r, hr, hbase⟩⟩
    rw [h.sorted _ ⟨r, hr, hbase⟩ (hfree _ hbase), hsize]
  · intro ⟨hindex, hwhole, hmem⟩ u hu hpos
    obtain ⟨hleft, hright⟩ := of_decide_eq_true hwhole
    obtain ⟨hchain, _, _⟩ := h.regions.whole_range hr hbase hleft hright
    have huc := (h.mem_chain_iff hu.1 hr).mpr hpos
    rw [hchain, List.mem_singleton] at huc
    have hbounds := h.class_bounds hr
    have hneg := hu.2
    rw [huc, hindex] at hneg
    omega

theorem Inv.nodup_held (h : Inv s L) : ((held s.calls).map PageRange.base).Nodup := by
  have hnodup : (held s.calls).Nodup := by
    refine h.regions.disjoint.imp_of_mem fun {r r'} hr _ hd heq => ?_
    subst heq
    have hpages := h.regions.pages r hr
    simp only [PageRange.Disjoint, PageRange.stop, PageRange.bytes, pageSize, pageCount] at hd hpages
    omega
  exact hnodup.map_on fun r hr r' hr' heq => h.regions.base_inj hr hr' heq

/-- The counter of a class is the number of its ranges without a block in use. -/
theorem Inv.count_vacant (h : Inv s L) (q : PageRange → Bool)
    (hq : ∀ r ∈ held s.calls, q r = true ↔ Vacant (used s L) r ∧ binIndex r.bytes = i) :
    s.completePages i = ((held s.calls).filter q).length := by
  have hperm : (((held s.calls).filter q).map PageRange.base).Perm ((L.bins i).filter (whole s)) := by
    have hsub : (((held s.calls).filter q).map PageRange.base).Nodup :=
      h.nodup_held.sublist (List.filter_sublist.map _)
    refine (List.perm_ext_iff_of_nodup hsub ((h.bins.nodup i).filter _)).mpr fun t => ?_
    rw [List.mem_map, List.mem_filter]
    constructor
    · intro ⟨r, hr, ht⟩
      obtain ⟨hr, hqr⟩ := List.mem_filter.mp hr
      obtain ⟨hv, hclass⟩ := (hq r hr).mp hqr
      obtain ⟨hindex, hwhole, hmem⟩ := (h.vacant_iff hr).mp hv
      rw [← ht]
      exact ⟨(h.bins.mem i _).mpr ⟨hmem, hindex.trans hclass⟩, hwhole⟩
    · intro ⟨ht, hwhole⟩
      obtain ⟨hmem, hindex⟩ := h.mem_bin ht
      obtain ⟨r, hr, rfl, _, hsize⟩ := h.whole_range hmem hwhole
      have hclass : binIndex r.bytes = i := by
        rw [← hsize, ← h.sorted _ hmem (by omega), hindex]
      refine ⟨r, List.mem_filter.mpr ⟨hr, (hq r hr).mpr ⟨?_, hclass⟩⟩, rfl⟩
      exact (h.vacant_iff hr).mpr ⟨hindex.trans hclass.symm, hwhole, hmem⟩
  rw [h.counts i, List.countP_eq_length_filter, ← hperm.length_eq, List.length_map]

theorem Sound.mem_used_iff (h : Sound σ L) : t ∈ used σ.heap L ↔ ∃ b ∈ σ.live, b.ptr = t + 48 := by
  constructor
  · exact h.owned t
  · intro ⟨b, hb, hptr⟩
    obtain ⟨u, hu, hptr', _⟩ := h.header b hb
    obtain rfl : u = t := by omega
    exact hu

/-- Once a block is gone. -/
theorem Sound.vacant_forget (h : Sound σ L) (hr : r ∈ held σ.heap.calls) :
    Vacant (used σ.heap L \ {t}) r ↔ Idle (forget (t + 48) σ.live) r := by
  constructor
  · intro hv b hb hcovers
    obtain ⟨hb, hne⟩ := mem_forget.mp hb
    obtain ⟨u, hu, hptr, _⟩ := h.header b hb
    rw [hptr] at hcovers hne
    exact hv u ⟨hu, fun heq => hne (by rw [Set.mem_singleton_iff.mp heq])⟩
      ((h.inv.covers_iff hu.1 hr).mp hcovers)
  · intro hidle u hu hpos
    obtain ⟨b, hb, hptr⟩ := h.mem_used_iff.mp hu.1
    refine hidle b (mem_forget.mpr ⟨hb, fun heq => hu.2 ?_⟩) ?_
    · rw [Set.mem_singleton_iff]
      omega
    · rw [hptr]
      exact (h.inv.covers_iff hu.1.1 hr).mpr hpos

theorem Sound.vacant_idle (h : Sound σ L) (hr : r ∈ held σ.heap.calls) :
    Vacant (used σ.heap L) r ↔ Idle σ.live r := by
  constructor
  · intro hv b hb hcovers
    obtain ⟨u, hu, hptr, _⟩ := h.header b hb
    rw [hptr] at hcovers
    exact hv u hu ((h.inv.covers_iff hu.1 hr).mp hcovers)
  · intro hidle u hu hpos
    obtain ⟨b, hb, hptr⟩ := h.mem_used_iff.mp hu
    refine hidle b hb ?_
    rw [hptr]
    exact (h.inv.covers_iff hu.1 hr).mpr hpos

/-- The counters count the ranges without live blocks. -/
theorem Sound.count_idle (h : Sound σ L) (i : Nat) : σ.heap.completePages i = (idle σ i).length := by
  refine h.inv.count_vacant _ fun r hr => ?_
  rw [decide_eq_true_iff, h.vacant_idle hr]

theorem Sound.idle_le (h : Sound σ L) (i : Nat) : (idle σ i).length ≤ 5 := by
  have hle := h.inv.bounded i
  rw [h.count_idle i, MAXCOMPLETE] at hle
  omega

/-- Five for each of the seventeen classes there are. -/
theorem Sound.idle_total (h : Sound σ L) :
    ((held σ.heap.calls).filter fun r => decide (Idle σ.live r)).length ≤ 85 := by
  obtain ⟨rs, hrs⟩ : ∃ rs, rs = (held σ.heap.calls).filter fun r => decide (Idle σ.live r) := ⟨_, rfl⟩
  have hmem : ∀ a ∈ (rs.map fun r => (binIndex r.bytes).toNat : Multiset Nat), a ∈ Finset.Icc 15 31 := by
    intro a ha
    obtain ⟨r, hr, rfl⟩ := List.mem_map.mp (Multiset.mem_coe.mp ha)
    rw [hrs] at hr
    have hbounds := h.inv.class_bounds (List.mem_filter.mp hr).1
    rw [Finset.mem_Icc]
    omega
  have hcount : ∀ a ∈ Finset.Icc 15 31,
      (rs.map fun r => (binIndex r.bytes).toNat : Multiset Nat).count a ≤ 5 := by
    intro a _
    refine le_trans (le_of_eq ?_) (h.idle_le a)
    rw [Multiset.coe_count, List.count_eq_countP, List.countP_map, List.countP_eq_length_filter, hrs,
      List.filter_filter, idle]
    refine congrArg List.length (List.filter_congr fun r hr => ?_)
    have hbounds := h.inv.class_bounds hr
    have hclass : (binIndex r.bytes).toNat = a ↔ binIndex r.bytes = a := by omega
    rw [Function.comp_apply, Bool.eq_iff_iff, Bool.and_eq_true, beq_iff_eq, hclass, decide_eq_true_iff,
      decide_eq_true_iff, and_comm]
  have hsum := Multiset.sum_count_eq_card hmem
  have hle := Finset.sum_le_card_nsmul _ _ 5 hcount
  rw [hsum] at hle
  simpa [hrs] using hle

/-! ### When a range goes back -/

theorem Beside.refl : Beside ∅ s s := ⟨fun _ _ => rfl, rfl, rfl⟩

/-- What `free` asks before it gives a range back. -/
def Due (U : Set Nat) (r : PageRange) (s : Heap) : Prop :=
  Vacant U r ∧ s.completePages (binIndex r.bytes).toNat = MAXCOMPLETE

/-- A block that has grown over all of its range. -/
theorem Inv.whole_iff (h : Inv s L) (ht : t ∈ used s L) (hr : r ∈ held s.calls) (htr : t ∈ L.chain r.base)
    (hl : LeftUsed s t) (hright : RightUsed s t) : whole s t = true ↔ Vacant (used s L \ {t}) r := by
  rw [whole, decide_eq_true_iff]
  constructor
  · intro hw u hu hpos
    obtain ⟨hchain, _⟩ := h.regions.whole_range hr htr hw.1 hw.2
    have huc := (h.mem_chain_iff hu.1.1 hr).mpr hpos
    rw [hchain] at huc
    exact hu.2 (Set.mem_singleton_iff.mpr (List.mem_singleton.mp huc))
  · intro hv
    -- a neighbour would be in use, and lie in the range
    have hnone : ∀ u ∈ L.chain r.base, u ≠ t → ¬ s.index u < 0 := by
      intro u hu hne hi
      have hmem : u ∈ tags s L := ⟨r, hr, hu⟩
      exact hv u ⟨⟨hmem, hi⟩, hne⟩ ((h.mem_chain_iff hmem hr).mp hu)
    have hlinked := (h.regions.chain r hr).linked
    constructor
    · by_contra h0
      obtain ⟨hmem, hback⟩ := (hlinked.back_or htr).resolve_left h0
      refine hnone _ hmem (fun heq => ?_) (hl h0)
      rw [heq] at hback
      have hgt := h.regions.right_gt ht.1 (by rw [hback]; exact h.separate.ne_zero t ht.1)
      omega
    · by_contra h0
      obtain ⟨hmem, _⟩ := (hlinked.fwd_or htr).resolve_left h0
      refine hnone _ hmem (fun heq => ?_) (hright h0)
      have hgt := h.regions.right_gt ht.1 h0
      omega

/-- `free` before its end: the block has grown inside its range, up to neighbours in use. -/
structure Grown (t t' : Nat) (r : PageRange) (s s' : Heap) (L L' : Layout) : Prop where
  melted : Melted t t' s s' L L'
  mem : t' ∈ used s' L'
  left : LeftUsed s' t'
  right : RightUsed s' t'
  chain : t' ∈ L'.chain r.base
  free : Alloc.free (t + 48) s = some (release t' s')

theorem Inv.grown (h : Inv s L) (ht : t ∈ used s L) (hr : r ∈ held s.calls) (htr : t ∈ L.chain r.base) :
    ∃ t' s' L', Grown t t' r s s' L L' := by
  have hD : Away ∅ r := fun _ _ _ hb => hb
  obtain ⟨hlt, hend, h0⟩ := h.regions.block_lt ht.1
  have hroom := h.regions.room ht.1
  have htag : sub64 (t + 48) tagSize = t := sub64_tagSize (by omega)
  have hmagic : s.get t .magic = LIBALLOC_MAGIC := (h.regions.chain r hr).magic t htr
  obtain ⟨t', s₁, _, L₁, hloop, _, _, _, hm₁, hu₁, hset₁, hchain, _⟩ :=
    h.meltLeftLoop_beside ht hr htr hD Beside.refl
  have hr₁ : r ∈ held s₁.calls := by rwa [hm₁.calls]
  have htr₁ : t' ∈ L₁.chain r.base :=
    (hm₁.inv.mem_chain_iff hu₁.1 hr₁).mpr ((h.mem_chain_iff ⟨r, hr, hchain⟩ hr).mp hchain)
  obtain ⟨s₂, L₂, hloop', hm₂, hu₂, hl₂, hright₂, _⟩ := hm₁.inv.meltRightLoop hu₁ hset₁
  have hr₂ : r ∈ held s₂.calls := by rwa [hm₂.calls]
  have htr₂ : t' ∈ L₂.chain r.base :=
    (hm₂.inv.mem_chain_iff hu₂.1 hr₂).mpr ((hm₁.inv.mem_chain_iff hu₁.1 hr₁).mp htr₁)
  refine ⟨t', s₂, L₂, hm₁.trans hm₂, hu₂, hl₂, hright₂, htr₂, ?_⟩
  simp only [Alloc.free, htag, hmagic, hloop, hloop', ne_eq, not_true_eq_false, if_false,
    Option.bind_eq_bind, Option.bind_some]
  rw [if_neg (by omega)]

/-- Growing does not change which ranges have blocks in use. -/
theorem Inv.vacant_grown {t' : Nat} (h : Inv s L) (hg : Grown t t' r s s' L L') (ht : t ∈ used s L)
    (hr : r ∈ held s.calls) (htr : t ∈ L.chain r.base) (hr' : r' ∈ held s.calls) :
    Vacant (used s' L') r' ↔ Vacant (used s L) r' := by
  have hheld : r ∈ held s'.calls := by rwa [hg.melted.calls]
  have hpos := (h.mem_chain_iff ht.1 hr).mp htr
  have hpos' := (hg.melted.inv.mem_chain_iff hg.mem.1 hheld).mp hg.chain
  rw [hg.melted.inUse]
  rcases h.regions.apart_or hr hr' with rfl | hd
  · exact iff_of_false (fun hv => hv t' (Set.mem_insert ..) hpos') fun hv => hv t ht hpos
  · have hout : ∀ u, r.base ≤ u ∧ u < r.stop → ¬ (r'.base ≤ u ∧ u < r'.stop) := by
      intro u hu hu'
      rcases hd with hd | hd <;> omega
    constructor
    · intro hv u hu
      by_cases heq : u = t
      · rw [heq]
        exact hout t hpos
      · exact hv u (Set.mem_insert_of_mem _ ⟨hu, heq⟩)
    · intro hv u hu
      rcases Set.mem_insert_iff.mp hu with rfl | hu
      · exact hout u hpos'
      · exact hv u hu.1

/-- The block's range goes back if it has no other block in use and its class is full; nothing else
goes. -/
theorem Inv.free_goes (h : Inv s L) (ht : t ∈ used s L) (hr : r ∈ held s.calls) (htr : t ∈ L.chain r.base) :
    ∃ s', Alloc.free (t + 48) s = some s' ∧
      (Due (used s L \ {t}) r s ∧ s'.calls = .free r.base r.pages :: s.calls ∨
        ¬ Due (used s L \ {t}) r s ∧ s'.calls = s.calls) := by
  classical
  obtain ⟨t', s', L', hg⟩ := h.grown ht hr htr
  have hcalls := hg.melted.calls
  have hinv := hg.melted.inv
  have hheld : r ∈ held s'.calls := by rwa [hcalls]
  have hcount : ∀ i : Nat, s'.completePages i = s.completePages i := by
    intro i
    rw [h.count_vacant (fun r' => decide (Vacant (used s L) r' ∧ binIndex r'.bytes = i))
      fun _ _ => decide_eq_true_iff, ← hcalls]
    refine hinv.count_vacant _ fun r' hr' => ?_
    rw [hcalls] at hr'
    rw [decide_eq_true_iff, h.vacant_grown hg ht hr htr hr']
  have hothers : used s' L' \ {t'} = used s L \ {t} := by
    rw [hg.melted.inUse, Set.insert_sdiff_self_of_notMem hg.melted.fresh]
  have hwhole := hinv.whole_iff hg.mem hheld hg.chain hg.left hg.right
  rw [hothers] at hwhole
  refine ⟨_, hg.free, ?_⟩
  rw [release_eq]
  by_cases hw : whole s' t' = true
  · obtain ⟨r', hr', hbase, hchain, hsize⟩ := hinv.whole_range hg.mem.1 hw
    have hmem : t' ∈ L'.chain r'.base := by
      rw [hchain, hbase]
      exact List.mem_singleton_self _
    obtain rfl := hinv.regions.range_unique hr' hheld hmem hg.chain
    rw [if_pos hw, hsize, hcount, ← hbase, pagesFor_bytes (hinv.regions.pages r' hr')]
    by_cases hmax : s.completePages (binIndex r'.bytes).toNat = MAXCOMPLETE
    · rw [if_pos hmax]
      exact .inl ⟨⟨hwhole.mp hw, hmax⟩, congrArg _ hcalls⟩
    · rw [if_neg hmax, insertTag_calls]
      exact .inr ⟨fun hdue => hmax hdue.2, hcalls⟩
  · rw [if_neg hw, insertTag_calls]
    exact .inr ⟨fun hdue => hw (hwhole.mpr hdue.1), hcalls⟩

/-- In every state the counters are those of the ranges without live blocks, at most five for each of
seventeen size classes. `free` gives a range back exactly when it frees the last block of it and five
such ranges of its class are kept already, and gives back nothing else. -/
theorem idle_ranges_kept (h : Past σ) :
    (∀ i : Nat, σ.heap.completePages i = (idle σ i).length ∧ (idle σ i).length ≤ 5) ∧
    (∀ r ∈ held σ.heap.calls, 15 ≤ binIndex r.bytes ∧ binIndex r.bytes ≤ 31) ∧
    ((held σ.heap.calls).filter fun r => decide (Idle σ.live r)).length ≤ 85 ∧
    ∀ b ∈ σ.live, ∃ r ∈ held σ.heap.calls, r.Covers b.ptr ∧ ∃ s', free b.ptr σ.heap = some s' ∧
      (Idle (forget b.ptr σ.live) r ∧ (idle σ (binIndex r.bytes)).length = 5 ∧
          s'.calls = .free r.base r.pages :: σ.heap.calls ∨
        ¬ (Idle (forget b.ptr σ.live) r ∧ (idle σ (binIndex r.bytes)).length = 5) ∧
          s'.calls = σ.heap.calls) := by
  obtain ⟨L, hL⟩ := h.sound
  refine ⟨fun i => ⟨hL.count_idle i, hL.idle_le i⟩, fun r hr => hL.inv.class_bounds hr, hL.idle_total,
    fun b hb => ?_⟩
  obtain ⟨t, ht, hptr, _⟩ := hL.header b hb
  obtain ⟨r, hr, htr⟩ := ht.1
  obtain ⟨s', hfree, hdue⟩ := hL.inv.free_goes ht hr htr
  have hcovers : r.Covers b.ptr := by
    rw [hptr]
    exact (hL.inv.covers_iff ht.1 hr).mpr ((hL.inv.mem_chain_iff ht.1 hr).mp htr)
  have hiff : Due (used σ.heap L \ {t}) r σ.heap ↔
      Idle (forget b.ptr σ.live) r ∧ (idle σ (binIndex r.bytes)).length = 5 := by
    have hbounds := hL.inv.class_bounds hr
    have hclass : ((binIndex r.bytes).toNat : Int) = binIndex r.bytes := Int.toNat_of_nonneg (by omega)
    have hcount := hL.count_idle (binIndex r.bytes).toNat
    rw [hclass] at hcount
    rw [Due, hL.vacant_forget hr, ← hptr, hcount, MAXCOMPLETE]
    exact and_congr_right fun _ => by omega
  rw [← hptr] at hfree
  rw [hiff, and_assoc] at hdue
  exact ⟨r, hr, hcovers, s', hfree, hdue⟩

/-- The only block of a range is freed: no such range is kept yet, so this one is. -/
theorem idle_ranges_kept_once : Past once ∧ held once.heap.calls = [⟨0x1000000, 16⟩] ∧
    once.heap.completePages 15 = 0 ∧
    ∃ s', free 0x1000030 once.heap = some s' ∧ s'.calls = once.heap.calls := by
  have hheld : held once.heap.calls = [⟨0x1000000, 16⟩] := by
    rw [once_calls]
    decide
  have hidle : idle once 15 = [] := by
    rw [idle, hheld, once]
    decide
  obtain ⟨hcounts, _, _, hfrees⟩ := idle_ranges_kept past_once
  obtain ⟨r, hr, _, s', hfree, hor⟩ := hfrees ⟨0x1000030, 100⟩ (by rw [once]; exact List.mem_singleton_self _)
  rw [hheld, List.mem_singleton] at hr
  refine ⟨past_once, hheld, ?_, s', hfree, hor.elim (fun hdue => ?_) fun hkept => hkept.2⟩
  · rw [(hcounts 15).1]
    simp [hidle]
  · -- five ranges of the class would be kept
    have hfive := hdue.2.1
    rw [hr, show binIndex (PageRange.bytes ⟨0x1000000, 16⟩) = 15 by decide, hidle] at hfive
    cases hfive

end Kvi.Alloc
