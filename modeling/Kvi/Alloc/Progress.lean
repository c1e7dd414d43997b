import Kvi.Alloc.Poke
import Kvi.Alloc.Store

/-! A call of the allocator, piece by piece.

`malloc` and `free` hold the lock of `alloc.c` from their first access to the heap
to their last. `Progress` says how far such a call is, one helper function after
the other, and `next` what it does then; `realloc` takes the lock for a look at
`tag->size` besides. Between two pieces the owner of a block may write into it.

What is left of a call at any time gives what the whole call gives on the heap it
began with (`remaining_next`), and a byte written meanwhile might as well have been
written before (`Stage.remaining_poke`). -/
namespace Kvi.Alloc

/-- How far a call is that has the lock, the helper function it comes to next. -/
inductive Progress where
  | malloc (size : Nat)
  | search (size tag : Nat)
  | carve (size tag : Nat)
  | free (ptr : Nat)
  | meltLeft (ptr tag : Nat)
  | meltRight (ptr tag : Nat)
  | release (ptr tag : Nat)
  | size (ptr : Nat)
  | done (r : Nat)
  deriving DecidableEq, Repr

/-- The pointer the call was given. -/
def Progress.given : Progress → Option Nat
  | .free p | .meltLeft p _ | .meltRight p _ | .release p _ | .size p => some p
  | .malloc _ | .search _ _ | .carve _ _ | .done _ => none

/-- What the call is to the clients. -/
def Progress.op : Progress → Option Op
  | .malloc n | .search n _ | .carve n _ => some (.malloc n)
  | .free p | .meltLeft p _ | .meltRight p _ | .release p _ => some (.free p)
  | .size _ | .done _ => none

/-- The next piece of a call. -/
def next (src : PageSource) : Progress → Heap → Option (Progress × Heap)
  | .malloc n, s =>
    let s := setup s
    some (.search n (s.freePages (searchBin n)), s)
  | .search n tag, s =>
    if tag = 0 then
      let (tag, s) := allocateNewTag src (u32 n) s
      if tag = 0 then some (.done 0, s) else some (.carve n tag, s)
    else if fits s n tag then some (.carve n tag, takeTag tag (searchBin n) s)
    else some (.search n (s.get tag .next), s)
  | .carve n tag, s =>
    let (p, s) := carve n tag s
    some (.done p, s)
  | .free p, s =>
    let tag := sub64 p tagSize
    if s.get tag .magic ≠ LIBALLOC_MAGIC then some (.done 0, s) else some (.meltLeft p tag, s)
  | .meltLeft p tag, s =>
    if s.get tag .splitLeft ≠ 0 ∧ 0 ≤ s.index (s.get tag .splitLeft) then
      let (tag, s) := meltLeft tag s
      some (.meltLeft p tag, removeTag tag s)
    else some (.meltRight p tag, s)
  | .meltRight p tag, s =>
    if s.get tag .splitRight ≠ 0 ∧ 0 ≤ s.index (s.get tag .splitRight) then
      let (tag, s) := absorbRight tag s
      some (.meltRight p tag, s)
    else some (.release p tag, s)
  | .release _ tag, s => some (.done 0, release tag s)
  | .size p, s => some (.done (s.get (sub64 p tagSize) .size), s)
  | .done _, _ => none

/-- What the rest of a call returns, and the heap it leaves. -/
def remaining (src : PageSource) : Progress → Heap → Option (Nat × Heap)
  | .malloc n, s => malloc src n s
  | .search n tag, s => do
    let tag ← search s n tag
    if tag = 0 then
      let (tag, s) := allocateNewTag src (u32 n) s
      if tag = 0 then some (0, s) else some (carve n tag s)
    else some (carve n tag (takeTag tag (searchBin n) s))
  | .carve n tag, s => some (carve n tag s)
  | .free p, s => (free p s).map fun s => (0, s)
  | .meltLeft _ tag, s => do
    let (tag, s) ← meltLeftLoop tag s
    let (tag, s) ← meltRightLoop tag s
    some (0, release tag s)
  | .meltRight _ tag, s => do
    let (tag, s) ← meltRightLoop tag s
    some (0, release tag s)
  | .release _ tag, s => some (0, release tag s)
  | .size p, s => some (s.get (sub64 p tagSize) .size, s)
  | .done r, s => some (r, s)

variable {s s' : Heap} {L L' : Layout} {U : Set Nat} {src : PageSource} {c c' : Progress}
  {t u a p n r i : Nat} {v : UInt8}

/-- A piece of a call leaves the rest of it. -/
theorem remaining_next (hp : ∀ p, c = .free p → p ≠ 0) (h : next src c s = some (c', s')) :
    remaining src c s = remaining src c' s' := by
  cases c with
  | malloc n =>
    simp only [next, Option.some.injEq, Prod.mk.injEq] at h
    obtain ⟨rfl, rfl⟩ := h
    rw [remaining, remaining, malloc, searchBin]
  | search n tag =>
    rw [next] at h
    rw [remaining, search_next]
    by_cases h0 : tag = 0
    · rw [if_pos h0] at h ⊢
      simp only [Option.bind_eq_bind, Option.bind_some, if_true]
      generalize allocateNewTag src (u32 n) s = new at h
      obtain ⟨x, s₁⟩ := new
      dsimp only at h ⊢
      by_cases hx : x = 0
      · simp only [if_pos hx, Option.some.injEq, Prod.mk.injEq] at h ⊢
        obtain ⟨rfl, rfl⟩ := h
        rw [remaining]
      · simp only [if_neg hx, Option.some.injEq, Prod.mk.injEq] at h ⊢
        obtain ⟨rfl, rfl⟩ := h
        rw [remaining]
    · rw [if_neg h0] at h ⊢
      by_cases hfit : fits s n tag = true
      · simp only [if_pos hfit, Option.some.injEq, Prod.mk.injEq] at h ⊢
        obtain ⟨rfl, rfl⟩ := h
        simp only [Option.bind_eq_bind, Option.bind_some, if_neg h0, remaining]
      · simp only [if_neg hfit, Option.some.injEq, Prod.mk.injEq] at h ⊢
        obtain ⟨rfl, rfl⟩ := h
        rw [remaining]
  | carve n tag =>
    simp only [next, Option.some.injEq, Prod.mk.injEq] at h
    obtain ⟨rfl, rfl⟩ := h
    rw [remaining, remaining]
  | free p =>
    simp only [next] at h
    rw [remaining, free, if_neg (hp p rfl)]
    split at h
    · simp only [Option.some.injEq, Prod.mk.injEq] at h
      obtain ⟨rfl, rfl⟩ := h
      simp only [if_pos ‹_›, remaining, Option.map_some]
    · simp only [Option.some.injEq, Prod.mk.injEq] at h
      obtain ⟨rfl, rfl⟩ := h
      simp only [if_neg ‹_›, remaining, Option.bind_eq_bind, Option.map_bind, Function.comp_def,
        Option.map_some]
  | meltLeft p tag =>
    rw [next] at h
    rw [remaining, meltLeftLoop]
    split at h
    · simp only [Option.some.injEq, Prod.mk.injEq] at h
      obtain ⟨rfl, rfl⟩ := h
      rw [if_pos ‹_›, remaining]
    · simp only [Option.some.injEq, Prod.mk.injEq] at h
      obtain ⟨rfl, rfl⟩ := h
      simp only [if_neg ‹_›, remaining, Option.bind_eq_bind, Option.bind_some]
  | meltRight p tag =>
    rw [next] at h
    rw [remaining, meltRightLoop]
    split at h
    · simp only [Option.some.injEq, Prod.mk.injEq] at h
      obtain ⟨rfl, rfl⟩ := h
      rw [if_pos ‹_›, remaining]
    · simp only [Option.some.injEq, Prod.mk.injEq] at h
      obtain ⟨rfl, rfl⟩ := h
      simp only [if_neg ‹_›, remaining, Option.bind_eq_bind, Option.bind_some]
  | release p tag =>
    simp only [next, Option.some.injEq, Prod.mk.injEq] at h
    obtain ⟨rfl, rfl⟩ := h
    rw [remaining, remaining]
  | size p =>
    simp only [next, Option.some.injEq, Prod.mk.injEq] at h
    obtain ⟨rfl, rfl⟩ := h
    rw [remaining, remaining]
  | done r => cases h

/-! ### The page layer -/

/-- The call will ask the page layer, for a block of `n` bytes. -/
def Wants (s : Heap) : Progress → Nat → Prop
  | .malloc m, n => n = m ∧ search (setup s) m ((setup s).freePages (searchBin m)) = some 0
  | .search m t, n => n = m ∧ search s m t = some 0
  | _, _ => False

/-- If it does, the answer is a range of its own. -/
def Ahead (src : PageSource) (s : Heap) (c : Progress) : Prop :=
  ∀ n, Wants s c n → Granted (.alloc (pagesFor (u32 (n + 48)))
    (src s.calls (pagesFor (u32 (n + 48)))) :: s.calls)

theorem allocateNewTag_log : (allocateNewTag src (u32 n) s).2.calls =
    .alloc (pagesFor (u32 (n + 48))) (src s.calls (pagesFor (u32 (n + 48)))) :: s.calls := by
  rw [← u32_tag, allocateNewTag_eq rfl]
  split <;> rfl

theorem Ahead.of_next (h : next src c s = some (c', s')) (hg : Granted s'.calls)
    (ha : Ahead src s' c') : Ahead src s c := by
  intro m hm
  cases c with
  | malloc n =>
    simp only [next, Option.some.injEq, Prod.mk.injEq] at h
    obtain ⟨rfl, rfl⟩ := h
    have hlog := ha m hm
    rwa [setup_calls] at hlog
  | search n tag =>
    obtain ⟨rfl, hnone⟩ := hm
    rw [next] at h
    rw [search_next] at hnone
    by_cases h0 : tag = 0
    · rw [if_pos h0] at h
      rw [← allocateNewTag_log]
      generalize allocateNewTag src (u32 m) s = new at h
      obtain ⟨x, s₁⟩ := new
      dsimp only at h
      split at h
      · simp only [Option.some.injEq, Prod.mk.injEq] at h
        rwa [h.2]
      · simp only [Option.some.injEq, Prod.mk.injEq] at h
        rwa [h.2]
    · rw [if_neg h0] at h hnone
      by_cases hfit : fits s m tag = true
      · rw [if_pos hfit] at hnone
        exact absurd (Option.some.inj hnone) h0
      · simp only [if_neg hfit, Option.some.injEq, Prod.mk.injEq] at h hnone
        obtain ⟨rfl, rfl⟩ := h
        exact ha m ⟨rfl, hnone⟩
  | carve | free | meltLeft | meltRight | release | size | done => exact hm.elim

theorem Ahead.fresh (hn : Small n) (hg : Granted (.alloc (pagesFor (u32 (n + 48)))
    (src s.calls (pagesFor (u32 (n + 48)))) :: s.calls)) :
    ∃ r : PageRange, r = ⟨src s.calls (pagesFor (u32 (u32 n + tagSize))),
      pagesFor (u32 (u32 n + tagSize))⟩ ∧ r.base ≠ 0 ∧ Fresh (held s.calls) r ∧ n + 48 ≤ r.bytes := by
  refine ⟨_, rfl, ?_⟩
  rw [u32_tag]
  have hr : Obtained (held s.calls)
      ⟨src s.calls (pagesFor (u32 (n + 48))), pagesFor (u32 (n + 48))⟩ n :=
    ⟨rfl, hg.1, hg.2.1, hg.2.2.1⟩
  have hlt := hn.lt
  exact ⟨hg.1, hr.fresh (hr.small hn.sized), hr.fits (by omega)⟩

/-! ### Where a call is -/

/-- The call has the block `t` for itself, beside the blocks `U`. -/
structure Holds (s : Heap) (L : Layout) (U : Set Nat) (t : Nat) : Prop where
  inUse : used s L = insert t U
  other : t ∉ U

namespace Holds

theorem mem (h : Holds s L U t) : t ∈ used s L := by
  rw [h.inUse]
  exact Set.mem_insert ..

theorem sub (h : Holds s L U t) (hu : u ∈ U) : u ∈ used s L := by
  rw [h.inUse]
  exact Set.mem_insert_of_mem _ hu

theorem ne (h : Holds s L U t) (hu : u ∈ U) : u ≠ t := fun heq => h.other (heq ▸ hu)

theorem rest (h : Holds s L U t) : used s L \ {t} = U := by
  rw [h.inUse, Set.insert_sdiff_self_of_notMem h.other]

end Holds

/-- What holds of the heap, by how far the call is. -/
def Stage (s : Heap) (L : Layout) (U : Set Nat) : Progress → Prop
  | .malloc n => Small n ∧ used s L = U
  | .search n t =>
    Small n ∧ used s L = U ∧ s.initialized = true ∧ (t = 0 ∨ t ∈ L.bins (searchBin n))
  | .carve n t => Small n ∧ Holds s L U t ∧ n + 48 ≤ s.get t .realSize ∧ RightUsed s t
  | .free p | .size p => ∃ t, p = t + 48 ∧ Holds s L U t
  | .meltLeft _ t => Holds s L U t
  | .meltRight _ t => Holds s L U t ∧ LeftUsed s t
  | .release _ t => Holds s L U t ∧ LeftUsed s t ∧ RightUsed s t
  | .done _ => True

/-- What a piece of a call does to the blocks of the others: nothing. -/
structure Piece (s s' : Heap) (U : Set Nat) (c' : Progress) : Prop where
  stage : ∃ L', Inv s' L' ∧ Stage s' L' U c'
  keeps : Keeps U s s'

theorem Keeps.refl (U : Set Nat) (s : Heap) : Keeps U s s :=
  ⟨fun _ _ => rfl, fun _ _ => rfl, fun _ _ _ _ => rfl⟩

/-- The magic number of the header is there. -/
theorem Inv.magic (h : Inv s L) (ht : t ∈ tags s L) : s.get t .magic = LIBALLOC_MAGIC := by
  obtain ⟨r, hr, htc⟩ := ht
  exact (h.regions.chain r hr).magic t htc

theorem Inv.sub64_ptr (h : Inv s L) (ht : t ∈ tags s L) : sub64 (t + 48) tagSize = t := by
  have hroom := h.regions.room ht
  obtain ⟨_, hend, _⟩ := h.regions.block_lt ht
  exact sub64_tagSize (by omega)

namespace Inv

theorem piece_malloc (h : Inv s L) (hn : Small n) :
    Piece s (Alloc.setup s) (used s L)
      (.search n ((Alloc.setup s).freePages (searchBin n))) := by
  refine ⟨⟨L, h.setup, hn, used_setup, setup_initialized, ?_⟩, keeps_setup⟩
  exact h.setup.bins.head_or _

theorem piece_fresh {r : PageRange} (h : Inv s L) (hn : Small n) (hinit : s.initialized = true)
    (hf : Fresh (held s.calls) r) (hroom : n + 48 ≤ r.bytes) :
    Piece s (obtained r n s) (used s L) (.carve n r.base) := by
  have hlt := hn.lt
  have hz : n < 2 ^ 32 := by omega
  have hnew := fun f : Field => h.obtained_get_new hf hz (f := f)
  have hother : r.base ∉ used s L := fun hm => (h.fresh_separate hf).1 hm.1
  refine ⟨⟨_, h.take_range hf hz hinit, hn, ⟨h.used_take_range hf hz, hother⟩, ?_, fun h0 => ?_⟩,
    (h.keeps_take_range hf hz hinit).mono fun _ hu => hu.1⟩
  · rwa [hnew .realSize]
  · exact absurd (hnew .splitRight) h0

theorem piece_found (h : Inv s L) (hn : Small n) (ht : t ∈ L.bins i) (hfit : fits s n t = true) :
    Piece s (takeTag t i s) (used s L) (.carve n t) := by
  have hlt := hn.lt
  obtain ⟨htT, hti⟩ := h.mem_bin ht
  have hget : ∀ x ∈ tags s L, ∀ f : Field, f.listed = false → (takeTag t i s).get x f = s.get x f :=
    fun x hx f hf => takeTag_get.trans (h.removeTag_get_of ht hx hf)
  have hother : t ∉ used s L := fun hm => by
    have := hm.2
    omega
  have hroom := h.room_of_fits htT (by omega) hfit
  refine ⟨⟨_, h.take ht, hn, ⟨h.used_take ht, hother⟩, ?_, fun h0 => ?_⟩,
    (h.keeps_take ht).mono fun _ hu => hu.1⟩
  · rw [hget t htT .realSize rfl]
    omega
  · rw [hget t htT .splitRight rfl] at h0 ⊢
    have hr := h.regions.right_mem htT h0
    rw [takeTag_index, removeTag_index h.separate (h.bins.linkable h.separate ht) hr]
    split
    · decide
    · exact h.coalesced t htT h0 (by omega)

theorem piece_search (h : Inv s L) (hn : Small n) (hinit : s.initialized = true)
    (ht : t ∈ L.bins (searchBin n)) : Piece s s (used s L) (.search n (s.get t .next)) := by
  refine ⟨⟨L, h, hn, rfl, hinit, ?_⟩, Keeps.refl _ _⟩
  exact ((h.bins.linked _).fwd_or ht).imp id fun hm => hm.1

theorem piece_carve (h : Inv s L) (hn : Small n) (ht : Holds s L U t)
    (hroom : n + 48 ≤ s.get t .realSize) (hright : RightUsed s t) :
    Piece s (Alloc.carve n t s).2 U (.done (Alloc.carve n t s).1) := by
  have hlt := hn.lt
  obtain ⟨s', L', heq, hinv, _, hkeep, _⟩ := h.carve ht.mem (by omega) hroom hright
  rw [heq]
  rw [ht.rest] at hkeep
  exact ⟨⟨L', hinv, trivial⟩, hkeep⟩

theorem piece_meltLeft (h : Inv s L) (ht : Holds s L U t)
    (hcond : s.get t .splitLeft ≠ 0 ∧ 0 ≤ s.index (s.get t .splitLeft)) :
    Piece s (removeTag (s.get t .splitLeft) (takeOver (s.get t .splitLeft) t s)) U
      (.meltLeft p (s.get t .splitLeft)) := by
  obtain ⟨L', hm⟩ := h.melt ht.mem hcond.1 hcond.2
  rw [show (meltLeft t s).2 = takeOver (s.get t .splitLeft) t s by rw [meltLeft_eq]] at hm
  have hother : s.get t .splitLeft ∉ used s L := fun hu => absurd hu.2 (by omega)
  have hne : s.get t .splitLeft ≠ t := by
    intro heq
    rw [heq] at hother
    exact hother ht.mem
  generalize s.get t .splitLeft = l at hm hother hne ⊢
  refine ⟨⟨L', hm.inv, ?_, fun hl => hother (ht.sub hl)⟩, hm.keeps.mono fun u hu => ⟨ht.sub hu, ?_⟩⟩
  · rw [hm.inUse, Set.insert_sdiff_of_notMem _ fun heq => hne (Set.mem_singleton_iff.mp heq), ht.rest]
  · intro heq
    exact hother (Set.mem_singleton_iff.mp heq ▸ ht.sub hu)

theorem piece_meltRight (h : Inv s L) (ht : Holds s L U t) (hleft : LeftUsed s t)
    (hcond : s.get t .splitRight ≠ 0 ∧ 0 ≤ s.index (s.get t .splitRight)) :
    Piece s (takeOver t (s.get t .splitRight) (removeTag (s.get t .splitRight) s)) U
      (.meltRight p t) := by
  obtain ⟨L', hm⟩ := h.absorb ht.mem hcond.1 hcond.2
  have hother : s.get t .splitRight ∉ used s L := fun hu => absurd hu.2 (by omega)
  rw [show (absorbRight t s).2 = takeOver t (s.get t .splitRight)
    (removeTag (s.get t .splitRight) s) by rw [absorbRight_eq]] at hm
  generalize takeOver t (s.get t .splitRight) (removeTag (s.get t .splitRight) s) = s' at hm ⊢
  refine ⟨⟨L', hm.inv, ⟨?_, ht.other⟩, fun h0 => ?_⟩, hm.keeps.mono fun u hu => ⟨ht.sub hu, ht.ne hu⟩⟩
  · rw [hm.inUse, Set.insert_sdiff_self_of_notMem hother, ht.inUse]
  · rw [hm.left] at h0 ⊢
    rw [hm.index _ (h.regions.left_mem ht.mem.1 h0)]
    split
    · decide
    · exact hleft h0

theorem piece_release (h : Inv s L) (ht : Holds s L U t) (hleft : LeftUsed s t)
    (hright : RightUsed s t) : Piece s (Alloc.release t s) U (.done r) := by
  obtain ⟨L', hf, _⟩ := h.release ht.mem hleft hright
  have hkeep := hf.keeps
  rw [ht.rest] at hkeep
  exact ⟨⟨L', hf.inv, trivial⟩, hkeep⟩

end Inv

/-- One piece of a call. -/
theorem Stage.next (hs : Stage s L U c) (h : Inv s L) (hnow : next src c s = some (c', s'))
    (hg : Granted s'.calls) : Piece s s' U c' := by
  cases c with
  | malloc n =>
    obtain ⟨hn, rfl⟩ := hs
    simp only [Alloc.next, Option.some.injEq, Prod.mk.injEq] at hnow
    obtain ⟨rfl, rfl⟩ := hnow
    exact h.piece_malloc hn
  | search n tag =>
    obtain ⟨hn, rfl, hinit, htag⟩ := hs
    rw [Alloc.next] at hnow
    by_cases h0 : tag = 0
    · have hlt := hn.lt
      have hu : u32 n = n := u32_of_lt (by omega)
      have hlog : (allocateNewTag src (u32 n) s).2.calls = _ := allocateNewTag_log
      rw [if_pos h0] at hnow
      have hgrant : Granted (allocateNewTag src (u32 n) s).2.calls := by
        generalize allocateNewTag src (u32 n) s = new at hnow ⊢
        obtain ⟨x, s₁⟩ := new
        dsimp only at hnow ⊢
        split at hnow
        · simp only [Option.some.injEq, Prod.mk.injEq] at hnow
          rwa [hnow.2]
        · simp only [Option.some.injEq, Prod.mk.injEq] at hnow
          rwa [hnow.2]
      rw [hlog] at hgrant
      obtain ⟨r, hr, hb, hf, hroom⟩ := Ahead.fresh hn hgrant
      rw [allocateNewTag_eq hr, if_neg hb] at hnow
      simp only [if_neg hb, Option.some.injEq, Prod.mk.injEq, hu] at hnow
      obtain ⟨rfl, rfl⟩ := hnow
      exact h.piece_fresh hn hinit hf hroom
    · have htag := htag.resolve_left h0
      rw [if_neg h0] at hnow
      by_cases hfit : fits s n tag = true
      · simp only [if_pos hfit, Option.some.injEq, Prod.mk.injEq] at hnow
        obtain ⟨rfl, rfl⟩ := hnow
        exact h.piece_found hn htag hfit
      · simp only [if_neg hfit, Option.some.injEq, Prod.mk.injEq] at hnow
        obtain ⟨rfl, rfl⟩ := hnow
        exact h.piece_search hn hinit htag
  | carve n tag =>
    obtain ⟨hn, ht, hroom, hright⟩ := hs
    simp only [Alloc.next, Option.some.injEq, Prod.mk.injEq] at hnow
    obtain ⟨rfl, rfl⟩ := hnow
    exact h.piece_carve hn ht hroom hright
  | free p =>
    obtain ⟨t, rfl, ht⟩ := hs
    simp only [Alloc.next, h.sub64_ptr ht.mem.1, h.magic ht.mem.1, ne_eq, not_true_eq_false, if_false,
      Option.some.injEq, Prod.mk.injEq] at hnow
    obtain ⟨rfl, rfl⟩ := hnow
    exact ⟨⟨L, h, ht⟩, Keeps.refl _ _⟩
  | meltLeft p tag =>
    rw [Alloc.next] at hnow
    split at hnow
    · rename_i hcond
      simp only [meltLeft_eq, Option.some.injEq, Prod.mk.injEq] at hnow
      obtain ⟨rfl, rfl⟩ := hnow
      exact h.piece_meltLeft hs hcond
    · rename_i hcond
      simp only [Option.some.injEq, Prod.mk.injEq] at hnow
      obtain ⟨rfl, rfl⟩ := hnow
      refine ⟨⟨L, h, hs, fun h0 => ?_⟩, Keeps.refl _ _⟩
      by_contra hi
      exact hcond ⟨h0, by omega⟩
  | meltRight p tag =>
    obtain ⟨ht, hleft⟩ := hs
    rw [Alloc.next] at hnow
    split at hnow
    · rename_i hcond
      simp only [absorbRight_eq, Option.some.injEq, Prod.mk.injEq] at hnow
      obtain ⟨rfl, rfl⟩ := hnow
      exact h.piece_meltRight ht hleft hcond
    · rename_i hcond
      simp only [Option.some.injEq, Prod.mk.injEq] at hnow
      obtain ⟨rfl, rfl⟩ := hnow
      refine ⟨⟨L, h, ht, hleft, fun h0 => ?_⟩, Keeps.refl _ _⟩
      by_contra hi
      exact hcond ⟨h0, by omega⟩
  | release p tag =>
    obtain ⟨ht, hleft, hright⟩ := hs
    simp only [Alloc.next, Option.some.injEq, Prod.mk.injEq] at hnow
    obtain ⟨rfl, rfl⟩ := hnow
    exact h.piece_release ht hleft hright
  | size p =>
    simp only [Alloc.next, Option.some.injEq, Prod.mk.injEq] at hnow
    obtain ⟨rfl, rfl⟩ := hnow
    exact ⟨⟨L, h, trivial⟩, Keeps.refl _ _⟩
  | done r => cases hnow

/-! ### A byte written meanwhile -/

theorem setup_poke : setup (s.poke a v) = (setup s).poke a v := by
  unfold setup
  rw [poke_initialized]
  split <;> rfl

section
variable (h : Inv s L) (hu : u ∈ used s L) (ha : Payload s u a)
include h hu ha

theorem Holds.poke (ht : Holds s L U t) : Holds (s.poke a v) L U t :=
  ⟨(h.used_poke hu.1 ha).trans ht.inUse, ht.other⟩

theorem LeftUsed.poke (ht : t ∈ tags s L) (hleft : LeftUsed s t) : LeftUsed (s.poke a v) t := by
  have hc := h.poke_clear hu.1 ha
  intro h0
  rw [get_poke hc ht] at h0 ⊢
  rw [index_poke hc (h.regions.left_mem ht h0)]
  exact hleft h0

theorem RightUsed.poke (ht : t ∈ tags s L) (hright : RightUsed s t) : RightUsed (s.poke a v) t := by
  have hc := h.poke_clear hu.1 ha
  intro h0
  rw [get_poke hc ht] at h0 ⊢
  rw [index_poke hc (h.regions.right_mem ht h0)]
  exact hright h0

theorem Stage.poke (hs : Stage s L U c) : Stage (s.poke a v) L U c := by
  have hused := h.used_poke (v := v) hu.1 ha
  have hholds : ∀ {t}, Holds s L U t → Holds (s.poke a v) L U t := fun ht => ht.poke h hu ha
  cases c with
  | malloc n => exact ⟨hs.1, hused.trans hs.2⟩
  | search n t => exact ⟨hs.1, hused.trans hs.2.1, hs.2.2⟩
  | carve n t =>
    obtain ⟨hn, ht, hroom, hright⟩ := hs
    refine ⟨hn, hholds ht, ?_, hright.poke h hu ha ht.mem.1⟩
    rwa [get_poke (h.poke_clear hu.1 ha) ht.mem.1]
  | free p | size p =>
    obtain ⟨t, hp, ht⟩ := hs
    exact ⟨t, hp, hholds ht⟩
  | meltLeft p t => exact hholds hs
  | meltRight p t => exact ⟨hholds hs.1, hs.2.poke h hu ha hs.1.mem.1⟩
  | release p t =>
    obtain ⟨ht, hleft, hright⟩ := hs
    exact ⟨hholds ht, hleft.poke h hu ha ht.mem.1, hright.poke h hu ha ht.mem.1⟩
  | done r => trivial

end

namespace Inv

/-- The byte does not change what the page layer is asked. -/
theorem wants_poke (h : Inv s L) (hu : u ∈ tags s L) (ha : Payload s u a) (hs : Stage s L U c) :
    Wants (s.poke a v) c n ↔ Wants s c n := by
  have hsearch : ∀ {s : Heap} {m t : Nat}, Inv s L → Clear (tags s L) a →
      (t = 0 ∨ t ∈ L.bins (searchBin m)) →
      (Alloc.search (s.poke a v) m t = some 0 ↔ Alloc.search s m t = some 0) :=
    fun hinv hc ht => by rw [hinv.search_rest_poke hc ht]
  have hc := h.poke_clear hu ha
  cases c with
  | malloc m =>
    have htags : tags (Alloc.setup s) L = tags s L := by simp only [tags, setup_calls]
    simp only [Wants, setup_poke, poke_freePages]
    rw [hsearch h.setup (by rwa [htags]) (h.setup.bins.head_or _)]
  | search m t =>
    simp only [Wants]
    rw [hsearch h hc hs.2.2.2]
  | carve | free | meltLeft | meltRight | release | size | done => exact Iff.rfl

theorem ahead_poke (h : Inv s L) (hu : u ∈ tags s L) (ha : Payload s u a) (hs : Stage s L U c) :
    Ahead src (s.poke a v) c ↔ Ahead src s c :=
  forall_congr' fun n => by rw [h.wants_poke hu ha hs, poke_calls]

theorem remaining_search_poke (h : Inv s L) (hn : Small n) (hinit : s.initialized = true)
    (ht : t = 0 ∨ t ∈ L.bins (searchBin n)) (hu : u ∈ used s L) (ha : Payload s u a)
    (hahead : Ahead src s (.search n t)) :
    remaining src (.search n t) (s.poke a v) = (remaining src (.search n t) s).map (poked a v) := by
  have hlt := hn.lt
  obtain ⟨x, hx, hor⟩ := h.search_rest ht n
  rw [remaining, remaining, h.search_rest_poke (h.poke_clear hu.1 ha) ht, hx]
  simp only [Option.bind_eq_bind, Option.bind_some]
  rcases hor with rfl | ⟨hm, hfit⟩
  · obtain ⟨r, hr, hb, hf, hroom⟩ := Ahead.fresh hn (hahead n ⟨rfl, hx⟩)
    have hz : u32 n = n := u32_of_lt (by omega)
    rw [allocateNewTag_eq (s := s) hr, allocateNewTag_eq (s := s.poke a v) hr, hz, if_neg hb]
    simp only [if_neg hb, if_true, Option.map_some]
    rw [h.fresh_poke hinit hf (by omega) hroom hu.1 ha]
  · have hx0 : x ≠ 0 := h.separate.ne_zero x (h.mem_bin hm).1
    simp only [if_neg hx0, Option.map_some]
    rw [h.found_poke hm hfit (by omega) hu ha]

theorem remaining_right_poke (h : Inv s L) (ht : Holds s L U t) (hleft : LeftUsed s t) (hu : u ∈ U)
    (ha : Payload s u a) :
    remaining src (.meltRight p t) (s.poke a v) = (remaining src (.meltRight p t) s).map (poked a v) := by
  obtain ⟨s₁, L₁, hloop, hm, ht₁, _⟩ := h.meltRightLoop ht.mem hleft
  have hother : u ∈ used s L \ {t} := ⟨ht.sub hu, ht.ne hu⟩
  have hu₁ : u ∈ tags s₁ L₁ := by
    have hin : u ∈ used s₁ L₁ := by
      rw [hm.inUse]
      exact Set.mem_insert_of_mem _ hother
    exact hin.1
  have hc₁ := hm.inv.poke_clear hu₁ (payload_keeps hm.keeps hother ha)
  rw [remaining, remaining, h.meltRightLoop_poke ht.mem (ht.sub hu).1 ha, hloop]
  simp only [Option.map_some, Option.bind_eq_bind, Option.bind_some, poked]
  rw [hm.inv.release_poke ht₁.1 hc₁]

theorem remaining_left_poke (h : Inv s L) (ht : Holds s L U t) (hu : u ∈ U) (ha : Payload s u a) :
    remaining src (.meltLeft p t) (s.poke a v) = (remaining src (.meltLeft p t) s).map (poked a v) := by
  obtain ⟨t₁, s₁, L₁, hloop, hm, ht₁, hset, _⟩ := h.meltLeftLoop ht.mem
  have hholds : Holds s₁ L₁ U t₁ := by
    refine ⟨?_, ?_⟩
    · rw [hm.inUse, ht.rest]
    · rw [← ht.rest]
      exact hm.fresh
  have hright : remaining src (.meltRight p t₁) (s₁.poke a v) = _ :=
    hm.inv.remaining_right_poke hholds hset hu (payload_keeps hm.keeps ⟨ht.sub hu, ht.ne hu⟩ ha)
  rw [remaining, remaining, h.meltLeftLoop_poke ht.mem (ht.sub hu).1 ha, hloop]
  simp only [Option.map_some, Option.bind_eq_bind, Option.bind_some, poked]
  simpa only [remaining, Option.bind_eq_bind] using hright

end Inv

/-- Written before the rest of the call or after it, the byte makes the same heap. -/
theorem Stage.remaining_poke (hs : Stage s L U c) (h : Inv s L) (hu : u ∈ U) (hU : u ∈ used s L)
    (ha : Payload s u a) (hahead : Ahead src s c) :
    remaining src c (s.poke a v) = (remaining src c s).map (poked a v) := by
  have hc := h.poke_clear hU.1 ha
  cases c with
  | malloc n =>
    have hset : ∀ s, remaining src (.malloc n) s =
        remaining src (.search n ((setup s).freePages (searchBin n))) (setup s) := fun s =>
      remaining_next nofun (by rw [Alloc.next])
    have hused : u ∈ used (setup s) L := by rwa [used_setup]
    rw [hset, hset, setup_poke, poke_freePages]
    refine h.setup.remaining_search_poke hs.1 setup_initialized (h.setup.bins.head_or _) hused
      (Inv.payload_keeps keeps_setup (Set.mem_univ u) ha) fun m hm => ?_
    have hgrant := hahead m hm
    rwa [setup_calls]
  | search n t => exact h.remaining_search_poke hs.1 hs.2.2.1 hs.2.2.2 hU ha hahead
  | carve n t =>
    obtain ⟨hn, ht, hroom, _⟩ := hs
    have hlt := hn.lt
    rw [remaining, remaining, h.carve_poke ht.mem.1 (by omega) hroom hU.1 (ht.ne hu) ha, Option.map_some]
  | free p =>
    obtain ⟨t, rfl, ht⟩ := hs
    have hset : ∀ s : Heap, sub64 (t + 48) tagSize = t → s.get t .magic = LIBALLOC_MAGIC →
        remaining src (.free (t + 48)) s = remaining src (.meltLeft (t + 48) t) s := by
      intro s htag hmagic
      refine remaining_next (fun p hp => ?_) ?_
      · simp only [Progress.free.injEq] at hp
        omega
      · simp only [Alloc.next, htag, hmagic, ne_eq, not_true_eq_false, if_false]
    have hmagic := h.magic ht.mem.1
    have hmagic' : (s.poke a v).get t .magic = LIBALLOC_MAGIC := by rwa [get_poke hc ht.mem.1]
    rw [hset _ (h.sub64_ptr ht.mem.1) hmagic, hset _ (h.sub64_ptr ht.mem.1) hmagic']
    exact h.remaining_left_poke ht hu ha
  | meltLeft p t => exact h.remaining_left_poke hs hu ha
  | meltRight p t => exact h.remaining_right_poke hs.1 hs.2 hu ha
  | release p t =>
    rw [remaining, remaining, h.release_poke hs.1.mem.1 hc, Option.map_some, poked]
  | size p =>
    obtain ⟨t, rfl, ht⟩ := hs
    rw [remaining, remaining, h.sub64_ptr ht.mem.1, get_poke hc ht.mem.1, Option.map_some, poked]
  | done r => rw [remaining, remaining, Option.map_some, poked]

end Kvi.Alloc
