import Kvi.Alloc.Aligned
import Kvi.Page.Setup

/-! The memory of the kernel.

`loader.S` asks the BIOS what memory there is, `page_init` makes a pool of it, and
`alloc.c` cuts the pages of the pool into blocks. Here the three are put together:
the answers of `liballoc_alloc` are those of `page_alloc`, on the pool that
`page_init` leaves on the map that `start16` has left.

`page_alloc` is right as long as the pages asked for fit (`Fits`), and `page_free`
does nothing, so a run of the kernel's heap is one whose calls of `page_alloc` have
all found room (`Roomy`). In such a run the heap gets what it relies on, and every
block it hands out is memory that the BIOS has called usable (`kernel_memory`). -/
namespace Kvi.Alloc

variable {src : PageSource} {op : Op} {σ σ' : System} {s s' : Heap} {p n t : Nat}

/-! ### What a call asks the page layer for -/

/-- Nothing is asked for; a range may go back. -/
def GivesBack (calls calls' : List PageCall) : Prop :=
  calls' = calls ∨ ∃ base pages, calls' = .free base pages :: calls

theorem release_log : GivesBack s.calls (release t s).calls := by
  rw [release_eq]
  by_cases hw : whole s t = true
  · rw [if_pos hw]
    by_cases hmax : s.completePages (binIndex (s.get t .realSize)).toNat = MAXCOMPLETE
    · rw [if_pos hmax]
      exact .inr ⟨_, _, rfl⟩
    · rw [if_neg hmax, insertTag_calls]
      exact .inl rfl
  · rw [if_neg hw, insertTag_calls]
    exact .inl rfl

theorem free_log (h : free p s = some s') : GivesBack s.calls s'.calls := by
  rw [free] at h
  by_cases hp : p = 0
  · rw [if_pos hp] at h
    exact .inl (by rw [Option.some.inj h])
  rw [if_neg hp] at h
  by_cases hmagic : s.get (sub64 p tagSize) .magic ≠ LIBALLOC_MAGIC
  · rw [if_pos hmagic] at h
    exact .inl (by rw [Option.some.inj h])
  · rw [if_neg hmagic] at h
    obtain ⟨⟨t₁, s₁⟩, h₁, h⟩ := Option.bind_eq_some_iff.mp h
    obtain ⟨⟨t₂, s₂⟩, h₂, h⟩ := Option.bind_eq_some_iff.mp h
    have hlog : GivesBack s₂.calls (release t₂ s₂).calls := release_log
    rw [meltRightLoop_calls h₂, meltLeftLoop_calls h₁] at hlog
    rwa [← Option.some.inj h]

/-- A call that passes a size on asks for what `malloc` asks for. -/
theorem step_log (hpass : passes op = some n) (hnow : step src op σ = some (p, σ')) :
    ∃ q s, malloc src n σ.heap = some (q, s) ∧ GivesBack s.calls σ'.heap.calls := by
  cases op with
  | malloc n' =>
    obtain rfl := Option.some.inj hpass
    obtain ⟨⟨q, s⟩, hmalloc, hret⟩ := Option.bind_eq_some_iff.mp hnow
    obtain ⟨_, rfl⟩ := Prod.mk.inj (Option.some.inj hret)
    exact ⟨q, s, hmalloc, .inl rfl⟩
  | calloc k n' =>
    obtain ⟨r, hcalloc, hret⟩ := Option.bind_eq_some_iff.mp hnow
    obtain ⟨_, rfl⟩ := Prod.mk.inj (Option.some.inj hret)
    rw [calloc_eq] at hcalloc
    obtain ⟨⟨q, s⟩, hmalloc, hcalloc⟩ := Option.bind_eq_some_iff.mp hcalloc
    obtain ⟨m, _, hret⟩ := Option.bind_eq_some_iff.mp hcalloc
    obtain rfl : through (.calloc k n') σ.heap = n := Option.some.inj hpass
    exact ⟨q, s, hmalloc, .inl (by rw [← Option.some.inj hret])⟩
  | realloc q n' =>
    have hn0 : n' ≠ 0 := by
      intro h0
      rw [passes, if_pos h0] at hpass
      cases hpass
    rw [passes, if_neg hn0] at hpass
    obtain rfl := Option.some.inj hpass
    obtain ⟨r, hrealloc, hret⟩ := Option.bind_eq_some_iff.mp hnow
    obtain ⟨_, rfl⟩ := Prod.mk.inj (Option.some.inj hret)
    by_cases hq : q = 0
    · rw [realloc, if_neg hn0, if_pos hq] at hrealloc
      exact ⟨r.1, r.2, hrealloc, .inl rfl⟩
    · rw [realloc_eq hn0 hq] at hrealloc
      obtain ⟨⟨q', s⟩, hmalloc, hrealloc⟩ := Option.bind_eq_some_iff.mp hrealloc
      obtain ⟨s', hfree, hret⟩ := Option.bind_eq_some_iff.mp hrealloc
      refine ⟨q', s, hmalloc, ?_⟩
      have hlog := free_log hfree
      rwa [← Option.some.inj hret]
  | free q => cases hpass
  | write a v => cases hpass

/-- Every other call asks for nothing. -/
theorem step_log_quiet (hpass : passes op = none) (hnow : step src op σ = some (p, σ')) :
    GivesBack σ.heap.calls σ'.heap.calls := by
  cases op with
  | malloc n => cases hpass
  | calloc k n => cases hpass
  | realloc q n =>
    have hn0 : n = 0 := by
      by_contra h0
      rw [passes, if_neg h0] at hpass
      cases hpass
    obtain ⟨r, hrealloc, hret⟩ := Option.bind_eq_some_iff.mp hnow
    obtain ⟨_, rfl⟩ := Prod.mk.inj (Option.some.inj hret)
    rw [realloc, if_pos hn0] at hrealloc
    obtain ⟨s', hfree, hret⟩ := Option.bind_eq_some_iff.mp hrealloc
    rw [← Option.some.inj hret]
    exact free_log hfree
  | free q =>
    obtain ⟨s', hfree, hret⟩ := Option.bind_eq_some_iff.mp hnow
    obtain ⟨_, rfl⟩ := Prod.mk.inj (Option.some.inj hret)
    exact free_log hfree
  | write a v =>
    obtain ⟨_, rfl⟩ := Prod.mk.inj (Option.some.inj hnow)
    exact .inl rfl

theorem asks_eq (hl : Legal op σ) : asks op = passes op := by
  cases op with
  | calloc k n => exact (passes_calloc hl).symm
  | malloc n | realloc q n | free q | write a v => rfl

theorem Legal.small (hl : Legal op σ) (hpass : passes op = some n) : Small n := by
  rw [← asks_eq hl] at hpass
  cases op with
  | malloc n' | calloc k n' =>
    obtain rfl := Option.some.inj hpass
    exact hl
  | realloc q n' =>
    rw [asks] at hpass
    split at hpass
    · cases hpass
    · obtain rfl := Option.some.inj hpass
      exact hl.1
  | free q | write a v => cases hpass

end Kvi.Alloc

namespace Kvi.Page
open Boot Alloc

/-- `page_free (p, pages)` -/
def pageFree (_p _pages : Nat) (s : Pool) : Int × Pool := (0, s)

/-- The pool after calls of `page_alloc` and `page_free`, the latest first. -/
def Pool.after (s : Pool) : List PageCall → Option Pool
  | [] => some s
  | .alloc pages _ :: calls => do
    let s ← s.after calls
    let (_, s) ← pageAlloc pages s
    some s
  | .free base pages :: calls => do
    let s ← s.after calls
    some (pageFree base pages s).2

/-- `liballoc_alloc` on the pool. `page_alloc` does not return `NULL`; here that stands for a
kernel that has panicked. -/
def pageSource (s : Pool) : PageSource := fun calls pages =>
  match (s.after calls).bind (pageAlloc pages) with
  | some (p, _) => p
  | none => 0

/-- Every request has found room. -/
def Roomy (s : Pool) : List PageCall → Prop
  | [] => True
  | .alloc pages _ :: calls => (∀ s' ∈ s.after calls, Fits s' pages) ∧ Roomy s calls
  | .free _ _ :: calls => Roomy s calls

/-- Whatever the callers of `malloc` and its kin do on the pool, as long as the pages last. -/
inductive Runs (s : Pool) : List (Op × Nat) → System → Prop where
  | boot (m : Memory) : Runs s [] (Alloc.boot m)
  | step {trace : List (Op × Nat)} {σ σ' : System} {op : Op} {p : Nat} (past : Runs s trace σ)
      (legal : Legal op σ) (now : Alloc.step (pageSource s) op σ = some (p, σ'))
      (room : Roomy s σ'.heap.calls) : Runs s (trace ++ [(op, p)]) σ'

/-- The ranges handedOut, also those given back. -/
def handedOut : List PageCall → List PageRange
  | [] => []
  | .alloc pages base :: calls => ⟨base, pages⟩ :: handedOut calls
  | .free _ _ :: calls => handedOut calls

/-- The BIOS has called the bytes from `lo` to `hi` usable. -/
def Reported (b : Session) (lo hi : Nat) : Prop :=
  ∃ r ∈ b.replies, (replied r).type = E820_USABLE ∧ (replied r).addr ≤ lo ∧
    hi ≤ (replied r).addr + (replied r).size

variable {s s₀ : Pool} {calls calls' : List PageCall} {n p : Nat} {q : PageRange} {m m' : Memory}
  {b : Session} {freelist : List Region} {trace : List (Op × Nat)} {σ : System}

/-! ### The pool behind the heap -/

theorem held_subset : held calls ⊆ handedOut calls := by
  induction calls with
  | nil => exact List.Subset.refl _
  | cons c calls ih =>
    cases c with
    | alloc pages base => exact List.cons_subset_cons _ ih
    | free base pages => exact List.Subset.trans (List.filter_subset_self ..) ih

/-- The pool after the calls, and what it has handed out: all of it from `heapBase` on. -/
structure Backed (s₀ : Pool) (calls : List PageCall) (s : Pool) : Prop where
  after : s₀.after calls = some s
  sane : Sane s₀.freelist (handedOut calls) s
  above : heapBase ≤ s.top ∧ ∀ q ∈ handedOut calls, heapBase ≤ q.base
  granted : Granted calls

/-- Pages that fit are handed out, and are what the heap relies on. -/
theorem Backed.alloc (hw : WellFormed s₀.freelist) (h : Backed s₀ calls s) (hpos : 0 < n)
    (hfit : Fits s n) : ∃ s', Backed s₀ (.alloc n (pageSource s₀ calls n) :: calls) s' := by
  obtain ⟨s', r, hnow, _, hr, hlo, htop, hhi, _⟩ := pageAlloc_of_fits hw h.sane hpos hfit
  have hsource : pageSource s₀ calls n = s.top := by
    rw [pageSource, h.after, Option.bind_some, hnow]
  have hsane := h.sane.step hw hpos hfit hnow
  have hstop := hw.stop_lt r (List.mem_of_getElem? hr)
  have hbase : 0 < heapBase := by
    rw [heapBase]
    decide
  have habove := h.above.1
  have hend : (PageRange.mk s.top n).stop = s'.top := htop.symm
  rw [hsource]
  refine ⟨s', ?_, hsane, ⟨by omega, fun q hq => ?_⟩, by omega, by omega, fun q hq => ?_, h.granted⟩
  · rw [Pool.after, h.after, Option.bind_eq_bind, Option.bind_some, hnow]
    rfl
  · rcases List.mem_cons.mp hq with rfl | hq
    · exact habove
    · exact h.above.2 q hq
  · exact (List.pairwise_cons.mp hsane.apart).1 q (held_subset hq)

/-- What goes back is not handed out again. -/
theorem Backed.givesBack (h : Backed s₀ calls s) (hlog : GivesBack calls calls') :
    Backed s₀ calls' s := by
  rcases hlog with rfl | ⟨base, pages, rfl⟩
  · exact h
  · refine ⟨?_, h.sane, h.above, h.granted⟩
    rw [Pool.after, h.after]
    rfl

theorem Roomy.of_givesBack (h : Roomy s₀ calls') (hlog : GivesBack calls calls') : Roomy s₀ calls := by
  rcases hlog with rfl | ⟨base, pages, rfl⟩
  · exact h
  · exact h

theorem Roomy.givesBack (h : Roomy s₀ calls) (hlog : GivesBack calls calls') : Roomy s₀ calls' := by
  rcases hlog with rfl | ⟨base, pages, rfl⟩
  · exact h
  · exact h

theorem Runs.roomy (h : Runs s trace σ) : Roomy s σ.heap.calls := by
  cases h with
  | boot m => trivial
  | step past legal now room => exact room

/-- The pool goes along with a call of `malloc` that finds room. -/
theorem Backed.malloc {t t' : Heap} {L : Alloc.Layout} (hw : WellFormed s₀.freelist)
    (h : Backed s₀ t.calls s) (hinv : Inv t L) (hn : Small n)
    (hnow : Alloc.malloc (pageSource s₀) n t = some (p, t')) (hroom : Roomy s₀ t'.calls) :
    ∃ s', Backed s₀ t'.calls s' := by
  obtain ⟨p', t₁, heq, hcalls, _⟩ := hinv.malloc (pageSource s₀) hn.sized
  obtain ⟨_, rfl⟩ := Prod.mk.inj (Option.some.inj (heq.symm.trans hnow))
  rcases hcalls with hcalls | ⟨r, hpages, hbase, hcalls⟩
  · rw [hcalls]
    exact ⟨s, h⟩
  · have hpos : 0 < r.pages := by
      rw [hpages, pagesFor_eq, pageCount]
      omega
    rw [hcalls, hbase] at hroom ⊢
    exact h.alloc hw hpos (hroom.1 s h.after)

/-- Every step of the run is one of a history, with the pool behind it. -/
theorem Runs.history (hw : WellFormed s₀.freelist) (hs₀ : Backed s₀ [] s₀) (h : Runs s₀ trace σ) :
    History (pageSource s₀) trace σ ∧ ∃ s, Backed s₀ σ.heap.calls s := by
  induction h with
  | boot m => exact ⟨.boot m, s₀, hs₀⟩
  | @step trace σ σ' op p past legal now room ih =>
    obtain ⟨hpast, s, hs⟩ := ih
    obtain ⟨L, hL⟩ := hpast.sound
    cases hpass : passes op with
    | none =>
      have hserved : Served (pageSource s₀) op σ := by
        intro n hn
        rw [asks_eq legal, hpass] at hn
        cases hn
      exact ⟨hpast.step legal hserved now, s, hs.givesBack (step_log_quiet hpass now)⟩
    | some n =>
      obtain ⟨q, t, hmalloc, hlog⟩ := step_log hpass now
      obtain ⟨s', hs'⟩ := hs.malloc hw hL.inv (legal.small hpass) hmalloc (room.of_givesBack hlog)
      have hserved : Served (pageSource s₀) op σ := by
        intro n' hn' q' t' heq
        rw [asks_eq legal, hpass] at hn'
        obtain rfl := Option.some.inj hn'
        obtain ⟨_, rfl⟩ := Prod.mk.inj (Option.some.inj (hmalloc.symm.trans heq))
        exact hs'.granted
      exact ⟨hpast.step legal hserved now, s', hs'.givesBack hlog⟩

/-- A call whose pages fit is served, and leaves the pool with room. -/
theorem Backed.serves {op : Op} {L : Alloc.Layout} (hw : WellFormed s₀.freelist)
    (h : Backed s₀ σ.heap.calls s) (hroom : Roomy s₀ σ.heap.calls) (hL : Sound σ L)
    (legal : Legal op σ) (hfit : ∀ n, asks op = some n → Fits s (pagesFor (n + tagSize))) :
    ∃ p σ', Alloc.step (pageSource s₀) op σ = some (p, σ') ∧ Roomy s₀ σ'.heap.calls := by
  have hmalloc : ∀ n, asks op = some n → ∀ p t, Alloc.malloc (pageSource s₀) n σ.heap = some (p, t) →
      Roomy s₀ t.calls := by
    intro n hn p t hnow
    have hpass := (asks_eq legal).symm.trans hn
    obtain ⟨p', t₁, heq, hcalls, _⟩ := hL.inv.malloc (pageSource s₀) (legal.small hpass).sized
    obtain ⟨_, rfl⟩ := Prod.mk.inj (Option.some.inj (heq.symm.trans hnow))
    rcases hcalls with hcalls | ⟨r, hpages, _, hcalls⟩
    · rwa [hcalls]
    · rw [hcalls, hpages]
      refine ⟨fun s' hs' => ?_, hroom⟩
      obtain rfl := Option.some.inj (h.after.symm.trans hs')
      exact hfit n hn
  have hserved : Served (pageSource s₀) op σ := by
    intro n hn p t hnow
    have hpass := (asks_eq legal).symm.trans hn
    obtain ⟨s', hs'⟩ := h.malloc hw hL.inv (legal.small hpass) hnow (hmalloc n hn p t hnow)
    exact hs'.granted
  obtain ⟨p, σ', _, hnow, _, _⟩ := hL.step legal.allowed hserved
  refine ⟨p, σ', hnow, ?_⟩
  cases hpass : passes op with
  | none => exact hroom.givesBack (step_log_quiet hpass hnow)
  | some n =>
    obtain ⟨q, t, heq, hlog⟩ := step_log hpass hnow
    exact (hmalloc n ((asks_eq legal).trans hpass) q t heq).givesBack hlog

/-! ### From the BIOS on -/

/-- The records that `start16` leaves are entries for `page_layout`. -/
theorem entries_encoded {rs : List Reply} (h : Encoded m p rs) (hlt : p + span rs < 2 ^ 31) :
    Entries m (p + span rs) p (rs.map replied) := by
  induction rs generalizing p with
  | nil => exact .done le_rfl
  | cons r rs ih =>
    obtain ⟨hlen, hbytes, hrest⟩ := h
    rw [span_cons] at hlt
    have hentry := entryAt_record hlen hbytes
    have hnext : nextEntry m p = p + (4 + r.bytes.length) := by
      rw [nextEntry, hentry]
      show u64 (p + u32 (r.bytes.length + 4)) = _
      rw [u32_of_lt (by omega), u64_of_lt (by omega), Nat.add_comm 4]
    have hend : p + span (r :: rs) = p + (4 + r.bytes.length) + span rs := by
      rw [span_cons]
      omega
    rw [List.map_cons, ← hentry]
    refine .entry ?_ ?_ ?_
    · rw [hend]
      omega
    · rw [MAPPED_END]
      omega
    · rw [hnext, hend]
      exact ih hrest (by omega)

/-- The pool that is set up on the answers of the BIOS. -/
theorem pageInit_session (hlast : b.last.isSome)
    (hfit : span b.replies ≤ BOOT_PAGE_TBL_BASE - BOOT_E820_BASE)
    (hfew : (usable (b.replies.map replied)).length ≤ 32)
    (hcovers : Covers (usable (b.replies.map replied)) heapBase)
    (hstart : start16 b.answers m = some m') :
    ∃ s, pageInit m' = some s ∧ s.freelist = usable (b.replies.map replied) ∧ s.offset = 0 ∧
      s.SetUp := by
  obtain ⟨m₁, heq, henc, hsize⟩ := start16_session m hfit
  obtain rfl := Option.some.inj (heq.symm.trans hstart)
  rw [BOOT_PAGE_TBL_BASE, BOOT_E820_BASE] at hfit
  have hend : mapEnd m₁ = BOOT_E820_BASE + span b.replies := by
    rw [mapEnd, hsize, Session.excess, if_pos hlast, Nat.add_zero, s32_of_lt (by omega),
      ofInt64_of_nonneg (by omega) (by omega), Int.toNat_natCast, BOOT_E820_BASE, u64_of_lt (by omega)]
  have hentries : Entries m₁ (mapEnd m₁) BOOT_E820_BASE (b.replies.map replied) := by
    rw [hend]
    refine entries_encoded henc ?_
    rw [BOOT_E820_BASE]
    omega
  obtain ⟨j, hseek, hj, hle⟩ := (covers_iff hfew).mp hcovers
  obtain ⟨_, _, _, hlt⟩ := seekRegion_spec hseek
  have hread : readMap m₁ (mapEnd m₁) BOOT_E820_BASE ⟨[], []⟩ =
      some ⟨b.replies.map replied, usable (b.replies.map replied)⟩ :=
    (readMap_eq_some (Nat.zero_le _)).mpr ⟨_, hentries, by simpa using hfew, rfl⟩
  refine ⟨⟨usable (b.replies.map replied), j, 0⟩, ?_, rfl, rfl, hj, ?_⟩
  · rw [pageInit, hread, Option.bind_eq_bind, Option.bind_some]
    show (seekRegion heapBase (usable (b.replies.map replied)) 0).bind _ = _
    rw [hseek, Option.bind_some]
  · rw [top_start]
    exact ⟨hle, Nat.lt_of_lt_of_le hlt (Nat.mod_le _ _)⟩

theorem top_of_offset (h : s.offset = 0) : s.top = heapBase := by
  cases s
  subst h
  exact top_start

/-- The pool as it is set up is behind a heap that has asked for nothing. -/
theorem Pool.SetUp.backed (h : s.SetUp) (h0 : s.offset = 0) : Backed s [] s := by
  have htop := top_of_offset h0
  obtain ⟨hlo, hhi⟩ := h.inside
  have hget : s.freelist[s.index]? = some s.entry := by
    rw [List.getElem?_eq_getElem h.index_lt, Pool.entry, List.getD_eq_getElem _ _ h.index_lt]
  have halign : s.top % 4096 = 0 := by
    rw [htop, heapBase]
  have hnone : ∀ q, q ∉ handedOut [] := fun q => List.not_mem_nil
  exact ⟨rfl, ⟨rfl, halign, ⟨s.entry, hget, hlo, hhi.le⟩, fun q hq => absurd hq (hnone q), List.Pairwise.nil⟩,
    ⟨htop.ge, fun q hq => absurd hq (hnone q)⟩, trivial⟩

/-- A live block is inside a range that its heap has got. -/
theorem live_inside {L : Alloc.Layout} {blk : Block} (hL : Sound σ L) (hblk : blk ∈ σ.live) :
    ∃ q ∈ held σ.heap.calls, q.base ≤ blk.ptr ∧ blk.ptr + blk.size ≤ q.stop := by
  obtain ⟨t, ht, hptr, _, hroom⟩ := hL.header blk hblk
  obtain ⟨q, hq, hmem⟩ := ht.1
  obtain ⟨hlo, _, hhi⟩ := hL.inv.regions.within hq hmem
  exact ⟨q, hq, by omega, by omega⟩

/-- On a machine whose BIOS ends its answers with a last record, reports at most 32 usable regions,
apart from each other, and memory where the heap is to begin: `page_init` ends, and from then on, for
as long as the pages asked for fit, `malloc` and its kin do what they do on any page layer that keeps
its promises, every legal call returns, and each block is memory the BIOS has reported as usable,
above everything the boot code has put into memory. -/
theorem kernel_memory (hlast : b.last.isSome)
    (hfit : span b.replies ≤ BOOT_PAGE_TBL_BASE - BOOT_E820_BASE)
    (hfew : (usable (b.replies.map replied)).length ≤ 32)
    (hw : WellFormed (usable (b.replies.map replied)))
    (hcovers : Covers (usable (b.replies.map replied)) heapBase)
    (hstart : start16 b.answers m = some m') :
    ∃ s, pageInit m' = some s ∧ ∀ trace σ, Runs s trace σ →
      History (pageSource s) trace σ ∧
      (∀ blk ∈ σ.live, heapBase ≤ blk.ptr ∧ Reported b blk.ptr (blk.ptr + blk.size)) ∧
      ∃ s', s.after σ.heap.calls = some s' ∧ ∀ op, Legal op σ →
        (∀ n, asks op = some n → Fits s' (pagesFor (n + tagSize))) →
        ∃ p σ', Alloc.step (pageSource s) op σ = some (p, σ') ∧ Runs s (trace ++ [(op, p)]) σ' := by
  obtain ⟨s, hinit, hlist, h0, hset⟩ := pageInit_session hlast hfit hfew hcovers hstart
  rw [← hlist] at hw
  refine ⟨s, hinit, fun trace σ hrun => ?_⟩
  obtain ⟨hpast, s', hs'⟩ := hrun.history hw (hset.backed h0)
  obtain ⟨L, hL⟩ := hpast.sound
  refine ⟨hpast, fun blk hblk => ?_, s', hs'.after, fun op legal hfits => ?_⟩
  · obtain ⟨q, hq, hlo, hhi⟩ := live_inside hL hblk
    have hout := held_subset hq
    obtain ⟨_, r, hr, hlo', hhi'⟩ := hs'.sane.good.1 q hout
    have habove := hs'.above.2 q hout
    rw [hlist] at hr
    obtain ⟨e, he, rfl⟩ := List.mem_map.mp hr
    obtain ⟨he, htype⟩ := List.mem_filter.mp he
    obtain ⟨reply, hreply, rfl⟩ := List.mem_map.mp he
    refine ⟨by omega, reply, hreply, by simpa using htype, ?_, ?_⟩
    · exact Nat.le_trans hlo' hlo
    · exact Nat.le_trans hhi hhi'
  · obtain ⟨p, σ', hnow, hroom⟩ := hs'.serves hw hrun.roomy hL legal hfits
    exact ⟨p, σ', hnow, hrun.step legal hnow hroom⟩

/-- The first 100 bytes of a machine with 640 KiB of low memory and 256 MiB from 1 MiB on. -/
theorem kernel_memory_first : ∃ m' s p σ, start16 endsWithReply.answers (fun _ => 0) = some m' ∧
    pageInit m' = some s ∧ s.freelist = [⟨0, 0xa0000⟩, ⟨0x100000, 0x10000000⟩] ∧
      Runs s [(.malloc 100, p)] σ ∧ History (pageSource s) [(.malloc 100, p)] σ ∧
      ∀ blk ∈ σ.live, heapBase ≤ blk.ptr ∧ Reported endsWithReply blk.ptr (blk.ptr + blk.size) := by
  have hcovers : Covers (usable (endsWithReply.replies.map replied)) heapBase := by
    rw [endsWithReply_usable, heapBase]
    exact ⟨[⟨0, 0xa0000⟩], _, [], rfl, by decide, by decide, by decide⟩
  have hw : WellFormed (usable (endsWithReply.replies.map replied)) := by
    rw [endsWithReply_usable]
    exact ⟨by decide, by decide⟩
  have hfew : (usable (endsWithReply.replies.map replied)).length ≤ 32 := by
    rw [endsWithReply_usable]
    decide
  obtain ⟨m', hstart, _⟩ := start16_session (b := endsWithReply) (fun _ => 0) (by decide)
  obtain ⟨s, hinit, hruns⟩ := kernel_memory rfl (by decide) hfew hw hcovers hstart
  obtain ⟨s₁, hinit₁, hlist, h0, hset⟩ := pageInit_session rfl (by decide) hfew hcovers hstart
  obtain rfl := Option.some.inj (hinit.symm.trans hinit₁)
  rw [endsWithReply_usable] at hlist
  have hfits : Fits s (pagesFor (100 + tagSize)) := by
    have htop := top_of_offset h0
    have hindex := hset.index_lt
    have hinside := hset.inside
    rw [hlist] at hindex
    -- the heap begins behind the low memory
    have hentry : s.entry = ⟨0x100000, 0x10000000⟩ := by
      rw [htop, heapBase, Pool.entry, hlist] at hinside
      rw [Pool.entry, hlist]
      rcases Nat.lt_succ_iff_lt_or_eq.mp hindex with hfirst | hsecond
      · rw [Nat.lt_one_iff.mp hfirst] at hinside
        exact absurd hinside.2 (by decide)
      · rw [hsecond]
        rfl
    refine ⟨.inl ?_, by decide⟩
    rw [htop, hentry, heapBase]
    decide
  obtain ⟨_, _, s', hafter, hserves⟩ := hruns [] _ (.boot fun _ => 0)
  obtain rfl := Option.some.inj hafter
  obtain ⟨p, σ, _, hrun⟩ := hserves (.malloc 100) (show Small 100 by decide) fun n hn => by
    obtain rfl := Option.some.inj hn
    exact hfits
  obtain ⟨hpast, hblocks, _⟩ := hruns _ σ hrun
  exact ⟨m', s, p, σ, hstart, hinit, hlist, hrun, hpast, hblocks⟩

end Kvi.Page
