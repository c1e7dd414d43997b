import Kvi.Alloc.Sizes
import Kvi.Alloc.Reuse

/-! Where tags and payloads lie.

A tag starts at a page or behind a payload. Nothing rounds a request up, so that the
second kind is at a multiple of 8 only if the tag in front is, and the size asked for
is one. `Course` is a history whose calls all meet a condition, and `aligned_iff` is
about two of them: every call writes its tags, and returns its pointer, at multiples
of 8 (`Aligned`); every call that splits a block asks for a multiple of 8 (`Padded`). -/
namespace Kvi.Alloc

/-- The tags that `malloc` writes: the one of a fresh range, and the one it splits off. -/
def built (src : PageSource) (size : Nat) (s : Heap) : Option (List Nat) := do
  let s := setup s
  let tag ← search s size (s.freePages (searchBin size))
  if tag = 0 then
    let (tag, s) := allocateNewTag src (u32 size) s
    if tag = 0 then some [] else some (tag :: carved size tag s)
  else some (carved size tag (takeTag tag (searchBin size) s))

/-- The tag `malloc` is about to use, and the size of its block: the first of the bin that fits, or
else that of a fresh range. -/
def offer (src : PageSource) (size : Nat) (s : Heap) : Option (Nat × Nat) := do
  let s := setup s
  let tag ← search s size (s.freePages (searchBin size))
  if tag = 0 then
    some (src s.calls (pagesFor (size + tagSize)), pagesFor (size + tagSize) * pageSize)
  else some (tag, s.get tag .realSize)

/-- A call writes its tags, and returns its pointer, at multiples of 8. -/
structure Aligned (src : PageSource) (op : Op) (σ : System) : Prop where
  tags : ∀ n ts, passes op = some n → built src n σ.heap = some ts → ∀ t ∈ ts, t % 8 = 0
  ptr : ∀ p σ', step src op σ = some (p, σ') → p % 8 = 0

/-- A call asks for a multiple of 8 where the block has room for the quantum and two headers more. -/
def Padded (src : PageSource) (op : Op) (σ : System) : Prop :=
  ∀ n t real, passes op = some n → offer src n σ.heap = some (t, real) →
    n + tagSize * 2 + 2 ^ MINEXP ≤ real → n % 8 = 0

/-- Every range in the log starts at a page. -/
def PageAligned (calls : List PageCall) : Prop :=
  ∀ pages base, PageCall.alloc pages base ∈ calls → base % pageSize = 0

/-- A history whose calls all meet `ok`, with page-aligned ranges. -/
inductive Course (src : PageSource) (ok : Op → System → Prop) (m : Memory) :
    List (Op × Nat) → System → Prop where
  | boot : Course src ok m [] (boot m)
  | step {trace : List (Op × Nat)} {σ σ' : System} {op : Op} {p : Nat}
      (past : Course src ok m trace σ) (legal : Legal op σ) (served : Served src op σ)
      (meets : ok op σ) (now : step src op σ = some (p, σ')) (paged : PageAligned σ'.heap.calls) :
      Course src ok m (trace ++ [(op, p)]) σ'

variable {s s' : Heap} {L L' : Layout} {t u p q n k real size : Nat} {ts : List Nat} {src : PageSource}
  {op : Op} {σ σ' : System} {m : Memory} {trace : List (Op × Nat)}

/-! ### What `malloc` writes -/

theorem PageAligned.of_suffix {calls calls' : List PageCall} (h : PageAligned calls')
    (hs : calls <:+ calls') : PageAligned calls :=
  fun pages base hm => h pages base (hs.mem hm)

/-- The remainder has the quantum, and is an `int`. -/
def Leaves (size real : Nat) : Prop :=
  size + tagSize * 2 + 2 ^ MINEXP ≤ real ∧ real - size - tagSize * 2 < 2 ^ 31

instance : Decidable (Leaves size real) := inferInstanceAs (Decidable (_ ∧ _))

theorem leaves_iff (hreal : real < 2 ^ 31) :
    Leaves size real ↔ size + tagSize * 2 + 2 ^ MINEXP ≤ real :=
  and_iff_left (by omega)

/-- The remainder is split off when it has the quantum. -/
theorem excess_iff (hreal : real < 2 ^ 32) (hle : size ≤ real) :
    0 < s32 (u32 (sub64 (sub64 real size) (tagSize * 2))) ∧
        0 ≤ getexp (u32 (sub64 (sub64 real size) (tagSize * 2))) ↔ Leaves size real := by
  rw [Leaves, sub64_of_le (by omega) hle, tagSize, MINEXP]
  by_cases hroom : size + 96 ≤ real
  · have hrest : u32 (sub64 (real - size) (48 * 2)) = real - size - 96 := by
      rw [sub64_of_le (by omega) (by omega)]
      exact u32_of_lt (by omega)
    rw [hrest]
    by_cases hint : real - size - 96 < 2 ^ 31
    swap
    · -- negative as an `int`
      refine iff_of_false (fun h => ?_) fun h => hint h.2
      have hneg : s32 (real - size - 96) < 0 := by
        rw [s32, u32_of_lt (by omega), if_neg hint]
        omega
      exact absurd h.1 (by omega)
    rw [s32_of_lt hint]
    by_cases hq : real - size - 96 < 2 ^ 8
    · have hexp : getexp (real - size - 96) = -1 := by
        rw [getexp, if_pos (by simpa only [MINEXP] using hq)]
      rw [hexp]
      omega
    · rw [getexp_eq (by omega) (by omega)]
      omega
  · refine iff_of_false (fun h => hroom ?_) (by omega)
    have hlt := room_of_remainder hreal hle (by rw [sub64_of_le (by omega) hle]; exact h.1)
    omega

/-- Where the end of `malloc` puts the new tag. -/
theorem Inv.mem_carved (h : Inv s L) (ht : t ∈ tags s L) (hroom : size + 48 ≤ s.get t .realSize) :
    u ∈ carved size t s ↔ u = t + 48 + size ∧ Leaves size (s.get t .realSize) := by
  have hlt := h.regions.block_lt ht
  have hu : u32 size = size := u32_of_lt (by omega)
  have hget : ∀ f, (s.set t .size size).get t f = _ := fun f =>
    setSize_get h ht ht (show size < 2 ^ 32 by omega) (f := f)
  have hreal : (s.set t .size size).get t .realSize = s.get t .realSize := by
    rw [hget, if_neg (by simp)]
  have hnoted : (s.set t .size size).get t .size = size := by
    rw [hget, if_pos ⟨rfl, rfl⟩]
  have haddr : splitAddr t (s.set t .size size) = t + 48 + size := by
    rw [splitAddr, hnoted, tagSize]
    exact u64_of_lt (by omega)
  simp only [carved, hu, hreal, haddr, excess_iff hlt.1 (show size ≤ s.get t .realSize by omega)]
  split
  · rw [List.mem_singleton, and_iff_left ‹_›]
  · exact iff_of_false List.not_mem_nil fun hc => absurd hc.2 ‹_›

/-- The block `malloc` takes, and the tags it writes: that of a fresh range, and the one behind. -/
structure Uses (n p : Nat) (s s' : Heap) (L L' : Layout) (t real : Nat) (ts : List Nat) : Prop where
  ptr : p = t + 48
  inv : Inv s' L'
  base : t ∈ tags s L ∨ ∃ pages, PageCall.alloc pages t ∈ s'.calls
  within : ∃ r ∈ held s'.calls, real ≤ r.bytes
  written : ∀ x ∈ ts, x = t ∨ x = t + 48 + n ∧ Leaves n real
  cut : Leaves n real → t + 48 + n ∈ ts
  old : ∀ x ∈ tags s' L', x ∈ tags s L ∨ x ∈ ts

theorem tags_setup : tags (setup s) L = tags s L := by
  rw [tags, tags, setup_calls]

theorem Uses.after_setup {real : Nat} (h : Uses n p (setup s) s' L L' t real ts) :
    Uses n p s s' L L' t real ts := by
  obtain ⟨hptr, hinv, hbase, hwithin, hwritten, hcut, hold⟩ := h
  rw [tags_setup] at hbase hold
  exact ⟨hptr, hinv, hbase, hwithin, hwritten, hcut, hold⟩

theorem Inv.uses_found (h : Inv s L) (hsize : n + 48 < 2 ^ 32) (ht : t ∈ L.bins k)
    (hfit : fits s n t = true) : ∃ p s' L', Alloc.carve n t (takeTag t k s) = (p, s') ∧
      Uses n p s s' L L' t (s.get t .realSize) (carved n t (takeTag t k s)) := by
  have htT := (h.mem_bin ht).1
  have hroom := h.room_of_fits htT hsize hfit
  have hreal : (takeTag t k s).get t .realSize = s.get t .realSize :=
    takeTag_get.trans (h.removeTag_get_of ht htT rfl)
  have htT' : t ∈ tags (takeTag t k s) ⟨L.chain, Function.update L.bins k ((L.bins k).erase t)⟩ := by
    rwa [tags, (h.frame_takeTag ht).calls]
  have hmem : ∀ {u}, u ∈ carved n t (takeTag t k s) ↔ _ :=
    (h.take ht).mem_carved htT' (by rw [hreal]; omega)
  rw [hreal] at hmem
  obtain ⟨s', L', heq, hh, hcalls, htags⟩ := h.handed_found hsize ht hfit
  have hwithin : ∃ r ∈ held s'.calls, s.get t .realSize ≤ r.bytes := by
    obtain ⟨r, hr, htr⟩ := htT
    obtain ⟨hlo, _, hhi⟩ := h.regions.within hr htr
    rw [PageRange.stop] at hhi
    exact ⟨r, by rwa [hcalls], by omega⟩
  exact ⟨_, s', L', heq, rfl, hh.inv, .inl htT, hwithin, fun x hx => .inr (hmem.mp hx),
    fun hcut => hmem.mpr ⟨rfl, hcut⟩, fun x hx => htags hx⟩

theorem Inv.uses_fresh {r : PageRange} (h : Inv s L) (hinit : s.initialized = true)
    (hsize : n + 48 < 2 ^ 32) (hf : Fresh (held s.calls) r) (hroom : n + 48 ≤ r.bytes) :
    ∃ p s' L', Alloc.carve n r.base (obtained r n s) = (p, s') ∧
      Uses n p s s' L L' r.base r.bytes (r.base :: carved n r.base (obtained r n s)) := by
  have hlt : n < 2 ^ 32 := by omega
  have hreal : (obtained r n s).get r.base .realSize = r.bytes := h.obtained_get_new hf hlt
  have hbase : r.base ∈ tags (obtained r n s) ⟨Function.update L.chain r.base [r.base], L.bins⟩ := by
    rw [(h.obtained_regions hf hlt).2]
    exact Set.mem_insert ..
  have hmem : ∀ {u}, u ∈ carved n r.base (obtained r n s) ↔ _ :=
    (h.take_range hf hlt hinit).mem_carved hbase (by rw [hreal]; exact hroom)
  rw [hreal] at hmem
  obtain ⟨s', L', heq, hh, hcalls, htags⟩ := h.handed_fresh hinit hsize hf hroom
  refine ⟨_, s', L', heq, rfl, hh.inv, .inr ⟨r.pages, ?_⟩, ⟨r, ?_, le_rfl⟩, fun x hx => ?_,
    fun hcut => List.mem_cons_of_mem _ (hmem.mpr ⟨rfl, hcut⟩), fun x hx => ?_⟩
  · rw [hcalls]
    exact List.mem_cons_self ..
  · rw [hcalls]
    exact List.mem_cons_self ..
  · exact (List.mem_cons.mp hx).imp id hmem.mp
  · rcases htags hx with hx | hx
    · rcases Set.mem_insert_iff.mp hx with rfl | hx
      · exact .inr (List.mem_cons_self ..)
      · exact .inl hx
    · exact .inr (List.mem_cons_of_mem _ hx)

/-- What `malloc` is offered it uses. -/
theorem Inv.malloc_uses (h : Inv s L) (hsized : Sized n)
    (hnow : Alloc.malloc src n s = some (p, s')) (hg : Granted s'.calls) :
    ∃ t real ts L', offer src n s = some (t, real) ∧ built src n s = some ts ∧
      Uses n p s s' L L' t real ts := by
  have hlt := hsized.lt
  rcases h.malloc_eq src n with ⟨t, ht, ht0, hfit, hsearch, heq⟩ | ⟨hsearch, r, hpages, hbase, heq⟩
  · simp only [offer, built, hsearch, Option.bind_eq_bind, Option.bind_some]
    obtain ⟨p', s'', L', hcarve, huse⟩ := h.setup.uses_found hlt ht hfit
    rw [heq, hcarve] at hnow
    obtain ⟨rfl, rfl⟩ := Prod.mk.inj (Option.some.inj hnow)
    rw [if_neg ht0, if_neg ht0]
    exact ⟨t, _, _, L', rfl, rfl, huse.after_setup⟩
  · have hu : u32 n = n := u32_of_lt (by omega)
    have hpages' : r.pages = pagesFor (n + tagSize) := by
      rw [hpages, u32_of_lt (show n + 48 < 2 ^ 32 by omega), tagSize]
    have hr : r = ⟨src (Alloc.setup s).calls (pagesFor (u32 (u32 n + tagSize))),
        pagesFor (u32 (u32 n + tagSize))⟩ := by
      rw [u32_tag, ← hpages, setup_calls, ← hbase]
    rw [heq] at hnow
    have hnow := Option.some.inj hnow
    by_cases hb : r.base = 0
    · rw [if_pos hb] at hnow
      obtain ⟨_, rfl⟩ := Prod.mk.inj hnow
      exact absurd hb hg.1
    · rw [if_neg hb, hu] at hnow
      have hcalls : (Alloc.carve n r.base (obtained r n (Alloc.setup s))).2.calls = _ :=
        carve_obtained_calls
      rw [hnow] at hcalls
      rw [hcalls] at hg
      have hobtained : Obtained (held s.calls) r n := ⟨hpages, hb, hg.2.1, hg.2.2.1⟩
      have hf : Fresh (held (Alloc.setup s).calls) r := by
        rw [setup_calls]
        exact hobtained.fresh (hobtained.small hsized)
      obtain ⟨p', s'', L', hcarve, huse⟩ :=
        h.setup.uses_fresh setup_initialized hlt hf (hobtained.fits (by omega))
      obtain ⟨rfl, rfl⟩ := Prod.mk.inj (hcarve.symm.trans hnow)
      simp only [offer, built, hsearch, Option.bind_eq_bind, Option.bind_some, if_true]
      rw [setup_calls, ← hpages', ← hbase, allocateNewTag_eq hr,
        if_neg hb, hu]
      exact ⟨r.base, r.bytes, _, L', rfl, if_neg hb, huse.after_setup⟩

/-! ### What the other calls leave -/

/-- From `s` to `s'` no tag is made. -/
structure Inherits (s s' : Heap) : Prop where
  calls : s.calls <:+ s'.calls
  held : held s'.calls ⊆ held s.calls
  tags : ∀ L L', Inv s L → Inv s' L' → tags s' L' ⊆ tags s L

theorem Inherits.refl (s : Heap) : Inherits s s :=
  ⟨List.suffix_rfl, List.Subset.refl _, fun _ _ h h' => (h.tags_eq h' rfl rfl).subset⟩

theorem Inherits.trans {s'' : Heap} (h : Inherits s s') (h' : Inherits s' s'') (hinv : Inv s' L') :
    Inherits s s'' :=
  ⟨h.calls.trans h'.calls, List.Subset.trans h'.held h.held, fun L₁ L₃ h₁ h₃ => (h'.tags L' L₃ hinv h₃).trans (h.tags L₁ L' h₁ hinv)⟩

theorem Inv.inherits_free (h : Inv s L) (ht : t ∈ used s L) (hfree : Alloc.free (t + 48) s = some s') :
    Inherits s s' := by
  obtain ⟨s'', L'', heq, hf, hsub⟩ := h.free ht
  obtain rfl := Option.some.inj (heq.symm.trans hfree)
  refine ⟨?_, held_free hfree, fun L₁ L' h₁ h' => ?_⟩
  · rcases hf.calls with hc | ⟨r, _, hc⟩
    · rw [hc]
    · rw [hc]
      exact List.suffix_cons ..
  · rw [hf.inv.tags_eq h' rfl rfl, h.tags_eq h₁ rfl rfl]
    exact hsub

theorem Inv.inherits_write (h : Inv s L) (ht : t ∈ used s L) (hm : ∀ c, ¬ Payload s t c → m c = s.mem c) :
    Inherits s {s with mem := m} := by
  refine ⟨List.suffix_rfl, List.Subset.refl _, fun L₁ L' h₁ h' => ?_⟩
  rw [(h.write_payload ht.1 hm).tags_eq h' rfl rfl, h.tags_eq h₁ rfl rfl]
  exact subset_rfl

theorem Sound.inherits_free (h : Sound σ L) (hp : p = 0 ∨ Live σ p) (hfree : free p σ.heap = some s') :
    Inherits σ.heap s' := by
  rcases hp with rfl | hp
  · rw [free, if_pos rfl] at hfree
    rw [← Option.some.inj hfree]
    exact .refl _
  · obtain ⟨t, ht, rfl⟩ := h.tag_of_live hp
    exact h.inv.inherits_free ht hfree

/-- The call of `malloc` in a call, and what is done in the rest of it. -/
structure Asks (src : PageSource) (n p : Nat) (s s₁ s' : Heap) : Prop where
  small : Small n
  now : malloc src n s = some (p, s₁)
  granted : Granted s₁.calls
  rest : Inherits s₁ s'

theorem Asks.malloc (hn : Small n) (hs : ∀ p s', Alloc.malloc src n s = some (p, s') → Granted s'.calls)
    (hnow : Alloc.malloc src n s = some (p, s')) : Asks src n p s s' s' :=
  ⟨hn, hnow, hs p s' hnow, .refl _⟩

theorem Sound.asks_calloc (h : Sound σ L) (hn : Small (k * n))
    (hs : ∀ p s, malloc src (k * n) σ.heap = some (p, s) → Granted s.calls)
    (hnow : calloc src k n σ.heap = some (p, s')) : ∃ s₁, Asks src (k * n) p σ.heap s₁ s' := by
  have hlt := hn.lt
  obtain ⟨t, s₁, L₁, heq, hh, _⟩ := h.call_malloc hn.sized hs
  have hthrough : through (.calloc k n) σ.heap = k * n := by
    rw [through, u64_of_lt (by omega), s32_of_lt (by omega), ofInt64_of_nonneg (by omega) (by omega),
      Int.toNat_natCast]
  rw [calloc_eq, hthrough, heq, Option.bind_some, liballocMemset, if_pos (by omega),
    Option.bind_some] at hnow
  obtain ⟨rfl, rfl⟩ := Prod.mk.inj (Option.some.inj hnow)
  have ht : t ∈ used s₁ L₁ := by
    rw [hh.inUse]
    exact Set.mem_insert ..
  refine ⟨s₁, hn, heq, hs _ _ heq, hh.inv.inherits_write ht fun c hc => ?_⟩
  rw [Memory.fill_apply, if_neg]
  intro hwithin
  have := hh.room
  exact hc ⟨hwithin.1, by omega⟩

theorem Sound.asks_realloc (h : Sound σ L) (hn : Small n) (hn0 : n ≠ 0) (hlive : Live σ q)
    (hs : ∀ p s, malloc src n σ.heap = some (p, s) → Granted s.calls)
    (hnow : realloc src q n σ.heap = some (p, s')) : ∃ s₁, Asks src n p σ.heap s₁ s' := by
  obtain ⟨b, hb, rfl⟩ := hlive
  have hlt := hn.lt
  obtain ⟨t, s₁, L₁, heq, hh, h₁⟩ := h.call_malloc hn.sized hs
  obtain ⟨u, hu, hptr, hsize, hroom⟩ := h.header b hb
  rw [realloc_eq hn0 (by omega), heq, h.through_realloc hb hn0 (.inr (by omega)),
    Option.bind_some] at hnow
  obtain ⟨s₃, hfree, hret⟩ := Option.bind_eq_some_iff.mp hnow
  obtain ⟨rfl, rfl⟩ := Prod.mk.inj (Option.some.inj hret)
  have ht : t ∈ used s₁ L₁ := by
    rw [hh.inUse]
    exact Set.mem_insert ..
  have hm := (h.copy_payload hh hb).2
  have h₂ := h₁.written ht hm
  have hcopied := hh.inv.inherits_write ht hm
  exact ⟨s₁, hn, heq, hs _ _ heq, hcopied.trans
    (h₂.inherits_free (.inr ⟨b, List.mem_cons_of_mem _ hb, rfl⟩) hfree) h₂.inv⟩

theorem passes_calloc (hn : Small (k * n)) : passes (.calloc k n) = some (k * n) := by
  have hlt := hn.lt
  rw [passes, u64_of_lt (by omega), s32_of_lt (by omega), ofInt64_of_nonneg (by omega) (by omega),
    Int.toNat_natCast]

/-- Every call that passes a size on returns what `malloc` does, and makes no other tags. -/
theorem Sound.step_asks (h : Sound σ L) (hl : Legal op σ) (hs : Served src op σ)
    (hpass : passes op = some n) (hnow : Alloc.step src op σ = some (p, σ')) :
    ∃ s₁, Asks src n p σ.heap s₁ σ'.heap := by
  cases op with
  | malloc n' =>
    obtain rfl := Option.some.inj hpass
    obtain ⟨r, hmalloc, hret⟩ := Option.bind_eq_some_iff.mp hnow
    obtain ⟨rfl, rfl⟩ := Prod.mk.inj (Option.some.inj hret)
    exact ⟨_, .malloc hl (hs n' rfl) hmalloc⟩
  | calloc k n' =>
    rw [passes_calloc hl] at hpass
    obtain rfl := Option.some.inj hpass
    obtain ⟨r, hcalloc, hret⟩ := Option.bind_eq_some_iff.mp hnow
    obtain ⟨rfl, rfl⟩ := Prod.mk.inj (Option.some.inj hret)
    exact h.asks_calloc hl (hs _ rfl) hcalloc
  | realloc q n' =>
    obtain ⟨hn, hq⟩ := hl
    have hn0 : n' ≠ 0 := by
      intro h0
      rw [passes, if_pos h0] at hpass
      cases hpass
    rw [passes, if_neg hn0] at hpass
    obtain rfl := Option.some.inj hpass
    obtain ⟨r, hrealloc, hret⟩ := Option.bind_eq_some_iff.mp hnow
    obtain ⟨rfl, rfl⟩ := Prod.mk.inj (Option.some.inj hret)
    have hserved := hs n' (if_neg hn0)
    rcases hq with rfl | hlive
    · rw [realloc, if_neg hn0, if_pos rfl] at hrealloc
      exact ⟨_, .malloc hn hserved hrealloc⟩
    · exact h.asks_realloc hn hn0 hlive hserved hrealloc
  | free q => cases hpass
  | write a v => cases hpass

/-- Every other call returns no pointer, and makes no tag at all. -/
theorem Sound.step_quiet (h : Sound σ L) (hl : Legal op σ) (hpass : passes op = none)
    (hnow : Alloc.step src op σ = some (p, σ')) : p = 0 ∧ Inherits σ.heap σ'.heap := by
  cases op with
  | malloc n' => cases hpass
  | calloc k n' => cases hpass
  | realloc q n' =>
    have hn0 : n' = 0 := by
      by_contra h0
      rw [passes, if_neg h0] at hpass
      cases hpass
    obtain ⟨r, hrealloc, hret⟩ := Option.bind_eq_some_iff.mp hnow
    obtain ⟨rfl, rfl⟩ := Prod.mk.inj (Option.some.inj hret)
    rw [realloc, if_pos hn0] at hrealloc
    obtain ⟨s', hfree, hret⟩ := Option.bind_eq_some_iff.mp hrealloc
    rw [← Option.some.inj hret]
    exact ⟨rfl, h.inherits_free hl.2 hfree⟩
  | free q =>
    obtain ⟨s', hfree, hret⟩ := Option.bind_eq_some_iff.mp hnow
    obtain ⟨rfl, rfl⟩ := Prod.mk.inj (Option.some.inj hret)
    exact ⟨rfl, h.inherits_free hl hfree⟩
  | write a v =>
    obtain ⟨rfl, rfl⟩ := Prod.mk.inj (Option.some.inj hnow)
    obtain ⟨b, hb, hlo, hhi⟩ := hl
    obtain ⟨t, ht, _, hp⟩ := h.payload hb hlo hhi
    refine ⟨rfl, h.inv.inherits_write ht fun c hc => ?_⟩
    have hne : c ≠ a := by
      intro heq
      rw [heq] at hc
      exact hc hp
    exact Function.update_of_ne hne ..

/-- `malloc` gives the block it is offered. -/
theorem Sound.step_malloc (h : Sound σ L) (hn : Sized n)
    (hnow : Alloc.step src (.malloc n) σ = some (p, σ')) (hg : Granted σ'.heap.calls) :
    ∃ t real L', offer src n σ.heap = some (t, real) ∧ p = t + 48 ∧ Sound σ' L' ∧
      σ'.live = ⟨p, n⟩ :: σ.live := by
  obtain ⟨⟨p', s⟩, hmalloc, hret⟩ := Option.bind_eq_some_iff.mp hnow
  obtain ⟨rfl, rfl⟩ := Prod.mk.inj (Option.some.inj hret)
  obtain ⟨t, s', L', heq, hh, hs⟩ := h.call_malloc hn fun p s heq => by
    obtain ⟨_, rfl⟩ := Prod.mk.inj (Option.some.inj (heq.symm.trans hmalloc))
    exact hg
  obtain ⟨rfl, rfl⟩ := Prod.mk.inj (Option.some.inj (heq.symm.trans hmalloc))
  obtain ⟨u, real, _, _, hoffer, _, huses⟩ := h.inv.malloc_uses hn hmalloc hg
  obtain rfl : t = u := by
    have := huses.ptr
    omega
  have hlive : note (t + 48) n σ.live = ⟨t + 48, n⟩ :: σ.live := Sound.note_ptr
  refine ⟨t, real, L', hoffer, rfl, ?_, hlive⟩
  rw [hlive]
  exact hs

theorem granted_of_step (hnow : Alloc.step src (.malloc n) σ = some (p, σ')) (hg : Granted σ'.heap.calls) :
    Granted σ.heap.calls := by
  obtain ⟨⟨p', s⟩, hmalloc, hret⟩ := Option.bind_eq_some_iff.mp hnow
  obtain ⟨rfl, rfl⟩ := Prod.mk.inj (Option.some.inj hret)
  exact granted_of_malloc hmalloc hg

/-! ### Whole histories -/

theorem Course.history {ok : Op → System → Prop} (h : Course src ok m trace σ) :
    History src trace σ := by
  induction h with
  | boot => exact .boot m
  | step _ legal served _ now _ ih => exact ih.step legal served now

/-- Every range is one that a request of `Legal` size may obtain. -/
def Modest (s : Heap) : Prop := ∀ r ∈ held s.calls, r.bytes < 2 ^ 31

/-- `malloc` obtains a range of the size rounded up, if it obtains one. -/
theorem Inv.held_malloc (h : Inv s L) (hsmall : Small n) (hm : Modest s)
    (hnow : Alloc.malloc src n s = some (p, s')) : Modest s' := by
  intro r hr
  obtain ⟨_, s'', heq, hcalls, _⟩ := h.malloc src hsmall.sized
  obtain ⟨_, rfl⟩ := Prod.mk.inj (Option.some.inj (heq.symm.trans hnow))
  rcases hcalls with hc | ⟨r', hpages, _, hc⟩
  · rw [hc] at hr
    exact hm r hr
  · rw [hc] at hr
    rcases List.mem_cons.mp hr with rfl | hr
    · rw [PageRange.bytes, hpages]
      exact hsmall.pages
    · exact hm r hr

theorem Sound.modest_step (h : Sound σ L) (hl : Legal op σ) (hs : Served src op σ)
    (hnow : Alloc.step src op σ = some (p, σ')) (hm : Modest σ.heap) : Modest σ'.heap := by
  cases hpass : passes op with
  | none =>
    obtain ⟨_, hinherits⟩ := h.step_quiet hl hpass hnow
    exact fun r hr => hm r (hinherits.held hr)
  | some n =>
    obtain ⟨s₁, hasks⟩ := h.step_asks hl hs hpass hnow
    exact fun r hr => h.inv.held_malloc hasks.small hm hasks.now r (hasks.rest.held hr)

/-- The block offered is no larger than one of them. -/
theorem Uses.leaves_iff (h : Uses n p s s' L L' t real ts) (hm : Modest s') :
    Leaves n real ↔ n + tagSize * 2 + 2 ^ MINEXP ≤ real := by
  obtain ⟨r, hr, hle⟩ := h.within
  exact Alloc.leaves_iff (Nat.lt_of_le_of_lt hle (hm r hr))

theorem History.modest (h : History src trace σ) : Modest σ.heap := by
  induction h with
  | boot m => exact nofun
  | step past legal served now ih =>
    obtain ⟨L, hL⟩ := past.sound
    exact hL.modest_step legal served now ih

/-- All tags are at multiples of 8. -/
def AllAligned (s : Heap) : Prop := ∀ L, Inv s L → ∀ t ∈ tags s L, t % 8 = 0

/-- Where the tag `malloc` uses is aligned, so are the tags it writes if the call is padded, and only
then. -/
theorem Uses.written_iff (h : Uses n p s s' L L' t real ts) (ht : t % 8 = 0) (hm : Modest s') :
    (∀ x ∈ ts, x % 8 = 0) ↔ (n + tagSize * 2 + 2 ^ MINEXP ≤ real → n % 8 = 0) := by
  rw [← h.leaves_iff hm]
  constructor
  · intro hall hcut
    have := hall _ (h.cut hcut)
    omega
  · intro hpad x hx
    rcases h.written x hx with rfl | ⟨rfl, hcut⟩
    · exact ht
    · have := hpad hcut
      omega

/-- The tag `malloc` uses is one of the heap's, or starts a page. -/
theorem Uses.base_aligned (h : Uses n p s s' L L' t real ts) (ht : ∀ x ∈ tags s L, x % 8 = 0)
    (hpaged : PageAligned s'.calls) : t % 8 = 0 := by
  rcases h.base with hm | ⟨pages, hm⟩
  · exact ht t hm
  · have hpage : t % 4096 = 0 := hpaged pages t hm
    omega

/-- From a heap with aligned tags a call is aligned if it is padded, and only then. -/
theorem Sound.aligned_step (h : Sound σ L) (hm : Modest σ.heap) (ht : AllAligned σ.heap) (hl : Legal op σ)
    (hs : Served src op σ) (hnow : Alloc.step src op σ = some (p, σ'))
    (hpaged : PageAligned σ'.heap.calls) :
    (Aligned src op σ ↔ Padded src op σ) ∧ (Padded src op σ → AllAligned σ'.heap) := by
  cases hpass : passes op with
  | none =>
    obtain ⟨rfl, hinherits⟩ := h.step_quiet hl hpass hnow
    refine ⟨iff_of_true ⟨fun n ts hn => ?_, fun p' σ'' hnow' => ?_⟩ fun n t real hn => ?_,
      fun _ L' h' t hm => ht L h.inv t (hinherits.tags L L' h.inv h' hm)⟩
    · rw [hpass] at hn
      cases hn
    · obtain ⟨rfl, _⟩ := Prod.mk.inj (Option.some.inj (hnow.symm.trans hnow'))
      rfl
    · rw [hpass] at hn
      cases hn
  | some n =>
    obtain ⟨s₁, hasks⟩ := h.step_asks hl hs hpass hnow
    obtain ⟨t, real, ts, L₁, hoffer, hbuilt, huses⟩ :=
      h.inv.malloc_uses hasks.small.sized hasks.now hasks.granted
    have hbase := huses.base_aligned (ht L h.inv) (hpaged.of_suffix hasks.rest.calls)
    have hiff := huses.written_iff hbase (h.inv.held_malloc hasks.small hm hasks.now)
    have hpadded : Padded src op σ ↔ (n + tagSize * 2 + 2 ^ MINEXP ≤ real → n % 8 = 0) := by
      constructor
      · exact fun hpad => hpad n t real hpass hoffer
      · intro hpad n' t' real' hn hoffer'
        obtain rfl := Option.some.inj (hpass.symm.trans hn)
        obtain ⟨_, rfl⟩ := Prod.mk.inj (Option.some.inj (hoffer.symm.trans hoffer'))
        exact hpad
    refine ⟨?_, fun hpad L' h' x hx => ?_⟩
    · rw [hpadded, ← hiff]
      constructor
      · exact fun haligned => haligned.tags n ts hpass hbuilt
      · refine fun hall => ⟨fun n' ts' hn hbuilt' => ?_, fun p' σ'' hnow' => ?_⟩
        · obtain rfl := Option.some.inj (hpass.symm.trans hn)
          obtain rfl := Option.some.inj (hbuilt.symm.trans hbuilt')
          exact hall
        · obtain ⟨rfl, _⟩ := Prod.mk.inj (Option.some.inj (hnow.symm.trans hnow'))
          have := huses.ptr
          omega
    · rcases huses.old x (hasks.rest.tags L₁ L' huses.inv h' hx) with hm | hm
      · exact ht L h.inv x hm
      · exact hiff.mpr (hpadded.mp hpad) x hm

theorem AllAligned.boot (m : Memory) : AllAligned (Alloc.boot m).heap := by
  intro L _ t ht
  obtain ⟨r, hr, _⟩ := ht
  cases hr

/-- As long as the calls are padded, all tags are aligned. -/
theorem Course.allAligned (h : Course src (Padded src) m trace σ) : AllAligned σ.heap := by
  induction h with
  | boot => exact AllAligned.boot m
  | step past legal served meets now paged ih =>
    obtain ⟨L, hL⟩ := past.history.sound
    exact (hL.aligned_step past.history.modest ih legal served now paged).2 meets

/-- In a history every tag is written, and every pointer returned, at a multiple of 8, exactly if every
call that leaves a remainder asks for a multiple of 8. -/
theorem aligned_iff :
    Course src (Aligned src) m trace σ ↔ Course src (Padded src) m trace σ := by
  constructor
  · intro h
    induction h with
    | boot => exact .boot
    | step past legal served meets now paged ih =>
      obtain ⟨L, hL⟩ := past.history.sound
      have hstep := hL.aligned_step past.history.modest ih.allAligned legal served now paged
      exact ih.step legal served (hstep.1.mp meets) now paged
  · intro h
    induction h with
    | boot => exact .boot
    | step past legal served meets now paged ih =>
      obtain ⟨L, hL⟩ := past.history.sound
      have hstep := hL.aligned_step past.history.modest past.allAligned legal served now paged
      exact ih.step legal served (hstep.1.mpr meets) now paged

theorem course_once :
    Course apart16 (fun _ _ => True) (fun _ => 0) [(.malloc 100, 0x1000030)] once := by
  refine Course.boot.step (show Small 100 by decide) (served_once (by decide)) trivial
    (step_once (by decide)) fun pages base hm => ?_
  rw [once_calls] at hm
  cases List.mem_singleton.mp hm
  decide

/-- After 100 bytes the second tag of the first range is not at a multiple of 8, and neither is what a
larger request gets from it. -/
theorem tag_misplaced :
    Course apart16 (fun _ _ => True) (fun _ => 0) [(.malloc 100, 0x1000030)] once ∧
      built apart16 100 (boot fun _ => 0).heap = some [0x1000000, 0x1000094] ∧
      ¬ Aligned apart16 (.malloc 100) (boot fun _ => 0) ∧
      ∃ s, malloc apart16 40000 once.heap = some (0x10000c4, s) := by
  have hbuilt : built apart16 100 (boot fun _ => 0).heap = some [0x1000000, 0x1000094] := by
    rw [built, search_boot]
    decide +kernel
  refine ⟨course_once, hbuilt, fun haligned => ?_, ?_⟩
  · have := haligned.tags 100 _ rfl hbuilt 0x1000094 (by decide)
    omega
  · obtain ⟨s, hnow, _⟩ : ∃ s, malloc apart16 40000 once.heap = some (0x10000c4, s) ∧ _ := malloc_reused
    exact ⟨s, hnow⟩

end Kvi.Alloc
