import Kvi.Alloc.System
import Mathlib.Data.List.Chain

/-! What holds of the heap in every state of every history.

Four results, each read off `Sound`: every range held is tiled by one chain of
tags (`heap_tiled`), the bins are the lists they should be (`bins_listed`), free
neighbours are merged at once (`heap_coalesced`), and the allocator is the
abstract store of byte arrays (`store_refined`). The statements name only the
fields of the tags and the heads of the bins, not the layout the proofs carry. -/
namespace Kvi.Alloc

variable {s : Heap} {L : Layout} {σ : System} {r : PageRange} {t u i p : Nat} {ts : List Nat}
  {src : PageSource} {trace : List (Op × Nat)}

/-- `ts` are the tags of the range `r`, from its start to its end. -/
structure Tiled (s : Heap) (r : PageRange) (ts : List Nat) : Prop where
  first : ts.head? = some r.base
  left : s.get r.base .splitLeft = 0
  adjacent : ts.IsChain fun t u =>
    s.get t .splitRight = u ∧ u = t + s.get t .realSize ∧ s.get u .splitLeft = t
  last : ∀ t ∈ ts.getLast?, s.get t .splitRight = 0
  sum : (ts.map (s.get · .realSize)).sum = r.bytes
  magic : ∀ t ∈ ts, s.get t .magic = LIBALLOC_MAGIC

theorem Chain.tiled (h : Chain s r ts) (hpos : 0 < r.bytes) : Tiled s r ts := by
  have hsum := h.tiles.sum
  have hfirst : ts.head? = some r.base := by
    cases ts with
    | nil =>
      simp only [List.map_nil, List.sum_nil, PageRange.stop] at hsum
      omega
    | cons t ts => rw [List.head?_cons, h.tiles.head]
  refine ⟨hfirst, ?_, ?_, fun t ht => ?_, ?_, h.magic⟩
  · cases ts with
    | nil => cases hfirst
    | cons t ts =>
      have hback := h.linked.1
      rwa [Option.some.inj hfirst] at hback
  · rw [List.isChain_iff_forall_rel_of_append_cons_cons]
    intro t u xs ys hts
    have hlink := h.linked
    have htile := h.tiles
    rw [hts] at hlink htile
    exact ⟨hlink.pair.1, htile.adjacent, hlink.pair.2⟩
  · obtain ⟨xs, rfl⟩ := List.getLast?_eq_some_iff.mp ht
    exact h.linked.middle.2
  · simp only [PageRange.stop] at hsum
    omega

theorem Inv.tiled (h : Inv s L) (hr : r ∈ held s.calls) : Tiled s r (L.chain r.base) := by
  have hpages := h.regions.pages r hr
  refine (h.regions.chain r hr).tiled ?_
  simp only [PageRange.bytes, pageSize, pageCount] at hpages ⊢
  omega

/-- The tags in use are those of the live blocks. -/
theorem Sound.live_iff (h : Sound σ L) (ht : t ∈ tags σ.heap L) :
    Live σ (t + tagSize) ↔ σ.heap.index t < 0 := by
  constructor
  · intro hlive
    obtain ⟨u, hu, heq⟩ := h.tag_of_live hlive
    simp only [tagSize] at heq
    obtain rfl : u = t := by omega
    exact hu.2
  · intro hi
    exact h.owned t ⟨ht, hi⟩

/-! ### The chain of every range -/

/-- Every range held is tiled by one chain of tags, a block in use holds what was asked for, and
the bytes of the live blocks overlap neither each other nor any header. -/
theorem heap_tiled (h : History src trace σ) : ∃ chain : Nat → List Nat,
    (∀ r ∈ held σ.heap.calls, Tiled σ.heap r (chain r.base)) ∧
    (∀ t ∈ tagsOf (held σ.heap.calls) chain, σ.heap.index t < 0 →
      Live σ (t + tagSize) ∧ σ.heap.get t .size + tagSize ≤ σ.heap.get t .realSize) ∧
    ∀ b ∈ σ.live,
      (∃ t ∈ tagsOf (held σ.heap.calls) chain,
        b.ptr = t + tagSize ∧ σ.heap.index t < 0 ∧ σ.heap.get t .size = b.size) ∧
      (∀ c ∈ σ.live, c ≠ b → b.ptr + b.size ≤ c.ptr ∨ c.ptr + c.size ≤ b.ptr) ∧
      ∀ t ∈ tagsOf (held σ.heap.calls) chain, b.ptr + b.size ≤ t ∨ t + tagSize ≤ b.ptr := by
  obtain ⟨L, hL⟩ := h.sound
  have hregions := hL.inv.regions
  refine ⟨L.chain, fun r hr => hL.inv.tiled hr, fun t ht hi => ?_, fun b hb => ?_⟩
  · obtain ⟨b, hb, hptr⟩ := hL.owned t ⟨ht, hi⟩
    obtain ⟨u, hu, hptr', hsize, hroom⟩ := hL.header b hb
    obtain rfl : u = t := by omega
    exact ⟨⟨b, hb, hptr⟩, by rw [hsize]; exact hroom⟩
  · obtain ⟨t, ht, hptr, hsize, hroom⟩ := hL.header b hb
    refine ⟨⟨t, ht.1, hptr, ht.2, hsize⟩, fun c hc hne => ?_, fun u hu => ?_⟩
    · obtain ⟨u, hu, hptr', _, hroom'⟩ := hL.header c hc
      rcases hregions.apart ht.1 hu.1 with heq | hd | hd
      · refine absurd (hL.ptr_inj hc hb ?_) hne
        rw [hptr, hptr', heq]
      · left
        omega
      · right
        omega
    · have := hregions.room hu
      simp only [tagSize]
      rcases hregions.apart ht.1 hu with heq | hd | hd
      · right
        omega
      · left
        omega
      · right
        omega

theorem heap_tiled_after_reuse : ∃ σ, History apart16 reuse σ ∧ σ.live = [⟨0x1000030, 100⟩] ∧
    ∃ chain : Nat → List Nat, (∀ r ∈ held σ.heap.calls, Tiled σ.heap r (chain r.base)) ∧
      (∀ t ∈ tagsOf (held σ.heap.calls) chain, σ.heap.index t < 0 →
        Live σ (t + tagSize) ∧ σ.heap.get t .size + tagSize ≤ σ.heap.get t .realSize) ∧
      (∃ t ∈ tagsOf (held σ.heap.calls) chain,
        0x1000030 = t + tagSize ∧ σ.heap.index t < 0 ∧ σ.heap.get t .size = 100) ∧
      ∀ t ∈ tagsOf (held σ.heap.calls) chain, 0x1000030 + 100 ≤ t ∨ t + tagSize ≤ 0x1000030 := by
  obtain ⟨σ, h, hlive⟩ := history_reuse
  obtain ⟨chain, htiled, hused, hblocks⟩ := heap_tiled h
  obtain ⟨hheader, _, hclear⟩ := hblocks ⟨0x1000030, 100⟩ (by rw [hlive]; exact List.mem_singleton_self _)
  exact ⟨σ, h, hlive, chain, htiled, hused, hheader, hclear⟩

/-! ### The bins -/

/-- `ts` are the tags of bin `i`, from its head on. -/
structure Listed (s : Heap) (i : Nat) (ts : List Nat) : Prop where
  head : s.freePages i = ts.headD 0
  nodup : ts.Nodup
  first : ∀ t ∈ ts.head?, s.get t .prev = 0
  adjacent : ts.IsChain fun t u => s.get t .next = u ∧ s.get u .prev = t
  last : ∀ t ∈ ts.getLast?, s.get t .next = 0

theorem Bins.listed {T : Set Nat} {bins : Nat → List Nat} (h : Bins s T bins) (i : Nat) :
    Listed s i (bins i) := by
  have hlink := h.linked i
  refine ⟨h.head i, h.nodup i, fun t ht => ?_, ?_, fun t ht => ?_⟩
  · obtain ⟨ys, hys⟩ := List.head?_eq_some_iff.mp ht
    rw [hys] at hlink
    exact hlink.1
  · rw [List.isChain_iff_forall_rel_of_append_cons_cons]
    intro t u xs ys hts
    rw [hts] at hlink
    exact hlink.pair
  · obtain ⟨xs, hxs⟩ := List.getLast?_eq_some_iff.mp ht
    rw [hxs] at hlink
    exact hlink.middle.2

/-- The sizes the bin `i` is for. -/
def InClass (i n : Nat) : Prop :=
  MINEXP ≤ i ∧ i < MAXEXP ∧ n < 2 ^ (i + 1) ∧ (MINEXP < i → 2 ^ i ≤ n)

theorem Inv.in_class (h : Inv s L) (ht : t ∈ L.bins i) :
    tagSize ≤ s.get t .realSize ∧ InClass i (s.get t .realSize - tagSize) := by
  obtain ⟨htT, hti⟩ := h.mem_bin ht
  have hroom := h.regions.room htT
  have hlt := (h.regions.block_lt htT).1
  have hbounds := binIndex_bounds hroom hlt
  have hi : (i : Int) = (max 8 (s.get t .realSize - 48).log2 : Nat) := by
    rw [← hti, h.sorted t htT (by omega), binIndex_eq hroom hlt]
  have hi : i = max 8 (s.get t .realSize - 48).log2 := by exact_mod_cast hi
  rw [← h.sorted t htT (by omega), hti] at hbounds
  simp only [InClass, MINEXP, MAXEXP, tagSize]
  generalize s.get t .realSize - 48 = n at hi
  refine ⟨hroom, by omega, by omega, ?_, fun hlo => ?_⟩
  · by_cases h0 : n = 0
    · rw [h0]
      exact Nat.two_pow_pos _
    · exact (Nat.log2_lt h0).mp (by omega)
  · have h0 : n ≠ 0 := by
      intro heq
      subst heq
      simp at hi
      omega
    exact (Nat.le_log2 h0).mp (by omega)

/-- A tag is in no bin while its block is live, otherwise once in the bin of its size; every bin
is a doubly linked list without repetitions; the counters count the whole ranges among the
queued tags; so every search of a bin ends. -/
theorem bins_listed (h : History src trace σ) : ∃ (chain : Nat → List Nat) (bins : Nat → List Nat),
    (∀ r ∈ held σ.heap.calls, Tiled σ.heap r (chain r.base)) ∧
    (∀ t ∈ tagsOf (held σ.heap.calls) chain,
      (¬ Live σ (t + tagSize) ↔ 0 ≤ σ.heap.index t) ∧
      (0 ≤ σ.heap.index t ↔
        ∃ i : Nat, σ.heap.index t = i ∧ (bins i).count t = 1 ∧ ∀ j, j ≠ i → t ∉ bins j) ∧
      (Live σ (t + tagSize) →
        σ.heap.index t = -1 ∧ σ.heap.get t .next = 0 ∧ σ.heap.get t .prev = 0)) ∧
    (∀ i, Listed σ.heap i (bins i) ∧ ∀ t ∈ bins i, t ∈ tagsOf (held σ.heap.calls) chain ∧
      tagSize ≤ σ.heap.get t .realSize ∧ InClass i (σ.heap.get t .realSize - tagSize)) ∧
    (∀ i, 0 ≤ σ.heap.completePages i ∧ σ.heap.completePages i ≤ MAXCOMPLETE ∧
      σ.heap.completePages i = ((bins i).filter fun t =>
        σ.heap.get t .splitLeft = 0 ∧ σ.heap.get t .splitRight = 0).length) ∧
    ∀ size i, (search σ.heap size (σ.heap.freePages i)).isSome := by
  obtain ⟨L, hL⟩ := h.sound
  have hinv := hL.inv
  refine ⟨L.chain, L.bins, fun r hr => hinv.tiled hr, fun t ht => ⟨?_, ?_, fun hlive => ?_⟩,
    fun i => ⟨hinv.bins.listed i, fun t ht => ⟨(hinv.mem_bin ht).1, hinv.in_class ht⟩⟩,
    fun i => ⟨?_, hinv.bounded i, ?_⟩, fun size i => ?_⟩
  · rw [hL.live_iff ht]
    omega
  · constructor
    · intro hi
      have hmem := hinv.mem_bin_of_index ht hi
      refine ⟨_, (Int.toNat_of_nonneg hi).symm, List.count_eq_one_of_mem (hinv.bins.nodup _) hmem,
        fun j hj hm => ?_⟩
      have := (hinv.mem_bin hm).2
      omega
    · intro ⟨i, hi, _⟩
      omega
  · have hi := (hL.live_iff ht).mp hlive
    exact hinv.bins.loose t ht hi
  · rw [hinv.counts i]
    exact Int.natCast_nonneg _
  · rw [hinv.counts i, List.countP_eq_length_filter]
    rfl
  · obtain ⟨t, ht, _⟩ := hinv.search size i
    rw [ht]
    rfl

theorem bins_listed_after_reuse : ∃ σ, History apart16 reuse σ ∧ σ.live = [⟨0x1000030, 100⟩] ∧
    ∃ (chain : Nat → List Nat) (bins : Nat → List Nat),
      (∀ t ∈ tagsOf (held σ.heap.calls) chain,
        (¬ Live σ (t + tagSize) ↔ 0 ≤ σ.heap.index t) ∧
        (0 ≤ σ.heap.index t ↔
          ∃ i : Nat, σ.heap.index t = i ∧ (bins i).count t = 1 ∧ ∀ j, j ≠ i → t ∉ bins j)) ∧
      (∀ i, Listed σ.heap i (bins i) ∧ ∀ t ∈ bins i, t ∈ tagsOf (held σ.heap.calls) chain ∧
        tagSize ≤ σ.heap.get t .realSize ∧ InClass i (σ.heap.get t .realSize - tagSize)) ∧
      (∀ i, σ.heap.completePages i = ((bins i).filter fun t =>
        σ.heap.get t .splitLeft = 0 ∧ σ.heap.get t .splitRight = 0).length) ∧
      ∀ size i, (search σ.heap size (σ.heap.freePages i)).isSome := by
  obtain ⟨σ, h, hlive⟩ := history_reuse
  obtain ⟨chain, bins, _, htags, hlisted, hcounts, hsearch⟩ := bins_listed h
  exact ⟨σ, h, hlive, chain, bins, fun t ht => ⟨(htags t ht).1, (htags t ht).2.1⟩, hlisted,
    fun i => (hcounts i).2.2, hsearch⟩

/-! ### Coalescing -/

/-- The calls that free the pointers `ps`, in this order. -/
def frees (ps : List Nat) : List (Op × Nat) := ps.map fun p => (.free p, 0)

/-- A range is one free block. -/
def Empty (s : Heap) (r : PageRange) : Prop :=
  Tiled s r [r.base] ∧ s.get r.base .realSize = r.bytes ∧ 0 ≤ s.index r.base

/-- Without live blocks every range is one free block. -/
theorem Sound.empty (h : Sound σ L) (hlive : σ.live = []) (hr : r ∈ held σ.heap.calls) :
    Empty σ.heap r := by
  have hfree : ∀ t ∈ L.chain r.base, 0 ≤ σ.heap.index t := by
    intro t ht
    by_contra hi
    obtain ⟨b, hb, _⟩ := h.owned t ⟨⟨r, hr, ht⟩, by omega⟩
    rw [hlive] at hb
    cases hb
  have htiled := h.inv.tiled hr
  have hone : L.chain r.base = [r.base] := by
    have hadj := htiled.adjacent
    have hfirst := htiled.first
    rcases hc : L.chain r.base with _ | ⟨t, _ | ⟨u, ts⟩⟩
    · rw [hc] at hfirst
      cases hfirst
    · rw [hc] at hfirst
      rw [Option.some.inj hfirst]
    · rw [hc] at hadj
      have htu := (List.isChain_cons_cons.mp hadj).1
      have htT : t ∈ tags σ.heap L := ⟨r, hr, by simp [hc]⟩
      have huT : u ∈ tags σ.heap L := ⟨r, hr, by simp [hc]⟩
      have := h.inv.coalesced t htT (by rw [htu.1]; exact h.inv.separate.ne_zero u huT)
        (hfree t (by simp [hc]))
      rw [htu.1] at this
      have := hfree u (by simp [hc])
      omega
  rw [hone] at htiled hfree
  have hsum := htiled.sum
  simp only [List.map_cons, List.map_nil, List.sum_cons, List.sum_nil, Nat.add_zero] at hsum
  exact ⟨htiled, hsum, hfree r.base (List.mem_singleton_self _)⟩

/-- All live blocks may be freed, in any order. -/
theorem History.free_all (h : History src trace σ) {ps : List Nat}
    (hps : ps.Perm (σ.live.map Block.ptr)) :
    ∃ σ', History src (trace ++ frees ps) σ' ∧ σ'.live = [] := by
  induction ps generalizing trace σ with
  | nil =>
    refine ⟨σ, by rwa [frees, List.map_nil, List.append_nil], ?_⟩
    exact List.map_eq_nil_iff.mp hps.symm.eq_nil
  | cons p ps ih =>
    obtain ⟨L, hL⟩ := h.sound
    have hp : Live σ p := List.mem_map.mp (hps.subset (List.mem_cons_self ..))
    obtain ⟨s', L', heq, _⟩ := hL.call_free (.inr hp)
    have hstep : Alloc.step src (.free p) σ = some (0, ⟨s', forget p σ.live⟩) := by
      simp only [Alloc.step, heq, Option.bind_eq_bind, Option.bind_some]
    have hlegal : Legal (.free p) σ := .inr hp
    have hserved : Served src (.free p) σ := by
      intro n hask
      cases hask
    have hnext := h.step hlegal hserved hstep
    have hrest : ps.Perm ((forget p σ.live).map Block.ptr) := by
      have hnd : p ∉ ps ∧ ps.Nodup := List.nodup_cons.mp (hps.nodup_iff.mpr hL.nodup)
      have hmap : (forget p σ.live).map Block.ptr =
          (σ.live.map Block.ptr).filter fun q => q ≠ p := by
        rw [forget, List.filter_map]
        rfl
      have hfilter := hps.filter fun q => q ≠ p
      rw [List.filter_cons_of_neg (by simp), List.filter_eq_self.mpr, ← hmap] at hfilter
      · exact hfilter
      · intro q hq
        have hne : q ≠ p := fun heq => hnd.1 (heq ▸ hq)
        simpa using hne
    obtain ⟨σ', hσ, hlive⟩ := ih hnext hrest
    refine ⟨σ', ?_, hlive⟩
    rwa [List.append_assoc] at hσ

/-- No two neighbours are both free. So once no block is live, in particular after the live
blocks were freed in any order, every range held is one free block; and what goes back to the
page layer is a range held, under its own base and page count. -/
theorem heap_coalesced (h : History src trace σ) :
    (∃ chain : Nat → List Nat, (∀ r ∈ held σ.heap.calls, Tiled σ.heap r (chain r.base)) ∧
      ∀ t ∈ tagsOf (held σ.heap.calls) chain, σ.heap.get t .splitRight ≠ 0 →
        ¬ (0 ≤ σ.heap.index t ∧ 0 ≤ σ.heap.index (σ.heap.get t .splitRight))) ∧
    (σ.live = [] → ∀ r ∈ held σ.heap.calls, Empty σ.heap r) ∧
    (∀ ps : List Nat, ps.Perm (σ.live.map Block.ptr) →
      ∃ σ', History src (trace ++ frees ps) σ' ∧ ∀ r ∈ held σ'.heap.calls, Empty σ'.heap r) ∧
    Returned σ.heap.calls := by
  obtain ⟨L, hL⟩ := h.sound
  refine ⟨⟨L.chain, fun r hr => hL.inv.tiled hr, fun t ht h0 ⟨hi, hi'⟩ => ?_⟩,
    fun hlive r hr => hL.empty hlive hr, fun ps hps => ?_, hL.returned⟩
  · have := hL.inv.coalesced t ht h0 hi
    omega
  · obtain ⟨σ', hσ, hlive⟩ := h.free_all hps
    obtain ⟨L', hL'⟩ := hσ.sound
    exact ⟨σ', hσ, fun r hr => hL'.empty hlive hr⟩

theorem heap_coalesced_after_reuse : ∃ σ, History apart16 reuse σ ∧ σ.live = [⟨0x1000030, 100⟩] ∧
    (∃ chain : Nat → List Nat, (∀ r ∈ held σ.heap.calls, Tiled σ.heap r (chain r.base)) ∧
      ∀ t ∈ tagsOf (held σ.heap.calls) chain, σ.heap.get t .splitRight ≠ 0 →
        ¬ (0 ≤ σ.heap.index t ∧ 0 ≤ σ.heap.index (σ.heap.get t .splitRight))) ∧
    ∃ σ', History apart16 (reuse ++ frees [0x1000030]) σ' ∧ ∀ r ∈ held σ'.heap.calls, Empty σ'.heap r := by
  obtain ⟨σ, h, hlive⟩ := history_reuse
  obtain ⟨hmerged, _, hfrees, _⟩ := heap_coalesced h
  exact ⟨σ, h, hlive, hmerged, hfrees [0x1000030] (by rw [hlive]; rfl)⟩

/-! ### The store of byte arrays -/

/-- A call leaves every live block it is not given where it is and as it is. -/
theorem untouched (hnd : (σ.live.map Block.ptr).Nodup) {σ' : System} {op : Op}
    (hstep : Store.Step op p σ.store σ'.store) (hop : ∀ a v, op ≠ .write a v) {b : Block}
    (hb : b ∈ σ.live) (hgiven : ¬ Given b.ptr op) :
    b ∈ σ'.live ∧ ∀ x, b.ptr ≤ x → x < b.ptr + b.size → σ'.heap.mem x = σ.heap.mem x := by
  have hbefore : σ.store b.ptr = some (bytes σ.heap.mem b.ptr b.size) := contents_of_mem hnd hb
  obtain ⟨c, hc, hptr, hbytes⟩ := block_of_contents (hstep.frame hbefore hgiven hop)
  have hsize : b.size = c.size := by simpa using congrArg List.length hbytes
  obtain rfl : c = b := by
    cases b
    cases c
    simp_all
  exact ⟨hc, fun x hlo hhi => (eq_of_bytes_eq hbytes hlo hhi).symm⟩

/-- The allocator is the store of independent byte arrays: every history is a run of the store,
the array of a live pointer is the memory of its block, and the next call ends and is a step of
the store that leaves the blocks it is not given alone. -/
theorem store_refined (h : History src trace σ) :
    Store.Run trace σ.store ∧
    (∀ b ∈ σ.live, σ.store b.ptr = some (bytes σ.heap.mem b.ptr b.size)) ∧
    (∀ p, ¬ Live σ p → σ.store p = none) ∧
    ∀ op, Legal op σ → Served src op σ → ∃ p σ', step src op σ = some (p, σ') ∧
      Store.Step op p σ.store σ'.store ∧
      ((∀ a v, op ≠ .write a v) → ∀ b ∈ σ.live, ¬ Given b.ptr op →
        b ∈ σ'.live ∧ ∀ x, b.ptr ≤ x → x < b.ptr + b.size → σ'.heap.mem x = σ.heap.mem x) := by
  obtain ⟨L, hL⟩ := h.sound
  refine ⟨h.run, fun b hb => contents_of_mem hL.nodup hb, fun p hp => ?_, fun op hl hs => ?_⟩
  · exact contents_of_dead fun b hb heq => hp ⟨b, hb, heq⟩
  · obtain ⟨p, σ', L', hnow, _, hstep⟩ := hL.step hl.allowed hs
    exact ⟨p, σ', hnow, hstep, fun hop b hb hg => untouched hL.nodup hstep hop hb hg⟩

theorem store_refined_after_reuse : ∃ σ, History apart16 reuse σ ∧ Store.Run reuse σ.store ∧
    σ.store 0x1000030 = some (bytes σ.heap.mem 0x1000030 100) ∧ σ.store 0x10000c4 = none ∧
    ∃ p σ', step apart16 (.free 0x1000030) σ = some (p, σ') ∧
      Store.Step (.free 0x1000030) p σ.store σ'.store := by
  obtain ⟨σ, h, hlive⟩ := history_reuse
  obtain ⟨hrun, hlookup, hdead, hnext⟩ := store_refined h
  have hmem : ⟨0x1000030, 100⟩ ∈ σ.live := by
    rw [hlive]
    exact List.mem_singleton_self _
  obtain ⟨p, σ', hnow, hstep, _⟩ :=
    hnext (.free 0x1000030) (.inr ⟨⟨0x1000030, 100⟩, hmem, rfl⟩) (by intro n hn; cases hn)
  refine ⟨σ, h, hrun, hlookup _ hmem, hdead _ fun ⟨b, hb, heq⟩ => ?_, p, σ', hnow, hstep⟩
  rw [hlive, List.mem_singleton] at hb
  rw [hb] at heq
  cases heq

end Kvi.Alloc
