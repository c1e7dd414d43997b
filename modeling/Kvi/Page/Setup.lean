import Kvi.Page.Layout
import Mathlib.Data.List.GetD

/-! `page_init` on any memory map.

The map is what memory holds from `BOOT_E820_BASE` on, for as many bytes as it says
there are. Nothing of it is checked: a length of 0xfffffffc keeps the walk where it
is, a long one leads it out of what is mapped, a 33rd usable entry is written behind
`page_freelist`, and the search for the region with the heap top goes on behind the
last one. Where that region begins above the heap top, the source prints that the
allocation is wrong, and goes on. `set_up_iff` is when all goes well. -/
namespace Kvi.Page
open Boot

/-- Virtual memory ends here; an access behind it faults. -/
def MAPPED_END : Nat := 2 ^ 40

/-- Where the map ends, by its size. -/
def mapEnd (m : Memory) : Nat := u64 (BOOT_E820_BASE + ofInt64 (s32 (m.load BOOT_E820_SIZE 4)))

/-- `p += e->entry_size + 4` -/
def nextEntry (m : Memory) (p : Nat) : Nat := u64 (p + u32 ((entryAt m p).entrySize + 4))

/-- The loop of `page_layout`. No result is that it does not end, or that an access goes wrong. The memory
stays as it is during the walk: what `page_layout` itself writes is the array `page_freelist`, which is
kept apart from it, in `l`. -/
def Layout.readMap (m : Memory) (q p : Nat) (l : Layout) : Option Layout :=
  if p < q then
    if MAPPED_END < p + 24 then none
    else do
      let l ← l.visit (entryAt m p)
      l |>.readMap m q (nextEntry m p)
  else some l
partial_fixpoint

export Layout (readMap)

/-- The search for the region of the heap top, slot by slot; there are 32 of them, and those never
filled are zero. -/
def seekRegion (top : Nat) (freelist : List Region) (index : Nat) : Option Nat :=
  if h : index < 32 then
    let r := freelist.getD index ⟨0, 0⟩
    if u64 (r.addr + r.size) ≤ top then seekRegion top freelist (index + 1) else some index
  else none
termination_by 32 - index

/-- `page_init` -/
def pageInit (m : Memory) : Option Pool := do
  let l ← readMap m (mapEnd m) BOOT_E820_BASE ⟨[], []⟩
  let index ← seekRegion heapBase l.freelist 0
  some ⟨l.freelist, index, 0⟩

/-- The pool is in one of its regions, and so is the heap top. -/
structure Pool.SetUp (s : Pool) : Prop where
  index_lt : s.index < s.freelist.length
  inside : s.entry.addr ≤ s.top ∧ s.top < s.entry.stop

/-- The records from `p` to the end of the map, each as far from the one before as its length says. -/
inductive Entries (m : Memory) (q : Nat) : Nat → List E820Entry → Prop where
  | done {p : Nat} (reached : q ≤ p) : Entries m q p []
  | entry {p : Nat} {es : List E820Entry} (below : p < q) (mapped : p + 24 ≤ MAPPED_END)
      (rest : Entries m q (nextEntry m p) es) : Entries m q p (entryAt m p :: es)

/-- The regions have one that ends above `top`, and the first of these begins at or below it. -/
def Covers (freelist : List Region) (top : Nat) : Prop :=
  ∃ before r behind, freelist = before ++ r :: behind ∧ (∀ r' ∈ before, u64 r'.stop ≤ top) ∧
    r.addr ≤ top ∧ top < u64 r.stop

variable {m : Memory} {p q i j top : Nat} {l l' : Layout} {es : List E820Entry} {rs : List Region}

/-! ### The walk -/

/-- As long as nothing faults this is the loop that `layout_agrees_iff` is about. -/
theorem layoutLoop_of_readMap (h : readMap m q p l = some l') : layoutLoop m q p l = some l' := by
  refine Layout.readMap.partial_correctness m q (fun p l l' => layoutLoop m q p l = some l')
    (fun loop ih p l l' hnow => ?_) p l l' h
  rw [layoutLoop]
  split at hnow
  · split at hnow
    · cases hnow
    · obtain ⟨l₁, hvisit, hloop⟩ := Option.bind_eq_some_iff.mp hnow
      rw [if_pos ‹_›, hvisit]
      exact ih _ _ _ hloop
  · rw [if_neg ‹_›, hnow]

/-- An entry is visited where the table has room. -/
theorem visit_eq_some {e : E820Entry} (hl : l.freelist.length ≤ 32) : l.visit e = some l' ↔
    l.freelist.length + (usable [e]).length ≤ 32 ∧ l' = ⟨l.visited ++ [e], l.freelist ++ usable [e]⟩ := by
  by_cases hroom : l.freelist.length + (usable [e]).length ≤ 32
  · rw [visit_of_room hroom, Option.some.injEq]
    exact ⟨fun h => ⟨hroom, h.symm⟩, fun h => h.2.symm⟩
  · have hfull : l.visit e = none := by
      have ht : e.type = E820_USABLE := by
        by_contra ht
        have hnone : usable [e] = [] := by simp [usable, ht]
        rw [hnone] at hroom
        exact hroom hl
      have hone : (usable [e]).length = 1 := by simp [usable, ht]
      rw [Layout.visit, if_pos ht, if_neg (by omega)]
    rw [hfull]
    exact iff_of_false (Option.some_ne_none l').symm fun h => hroom h.1

/-- The walk ends when the records do, if there is room for the usable ones. -/
theorem readMap_eq_some (hl : l.freelist.length ≤ 32) : readMap m q p l = some l' ↔
    ∃ es, Entries m q p es ∧ l.freelist.length + (usable es).length ≤ 32 ∧
      l' = ⟨l.visited ++ es, l.freelist ++ usable es⟩ := by
  have hstop : ∀ l : Layout, l = ⟨l.visited ++ [], l.freelist ++ usable []⟩ := by
    intro l
    show l = ⟨l.visited ++ [], l.freelist ++ []⟩
    rw [List.append_nil, List.append_nil]
  constructor
  · intro h
    revert hl
    refine Layout.readMap.partial_correctness m q (fun p l l' => l.freelist.length ≤ 32 →
      ∃ es, Entries m q p es ∧ l.freelist.length + (usable es).length ≤ 32 ∧
        l' = ⟨l.visited ++ es, l.freelist ++ usable es⟩) (fun loop ih p l l' hnow hl => ?_) p l l' h
    split at hnow
    · split at hnow
      · cases hnow
      · obtain ⟨l₁, hvisit, hloop⟩ := Option.bind_eq_some_iff.mp hnow
        obtain ⟨hroom, rfl⟩ := (visit_eq_some hl).mp hvisit
        obtain ⟨es, hes, hall, rfl⟩ := ih _ _ _ hloop (by rwa [List.length_append])
        rw [List.length_append] at hall
        refine ⟨_, .entry ‹_› (Nat.le_of_not_lt ‹_›) hes, ?_, ?_⟩
        · rw [usable_cons (entryAt m p) es, List.length_append]
          omega
        · rw [usable_cons (entryAt m p) es, List.append_assoc, List.append_assoc, List.singleton_append]
    · refine ⟨[], .done (Nat.le_of_not_lt ‹_›), hl, ?_⟩
      rw [← hstop, Option.some.inj hnow]
  · intro h
    obtain ⟨es, hes, hroom, rfl⟩ := h
    induction hes generalizing l with
    | done reached =>
      rw [readMap, if_neg (Nat.not_lt.mpr reached)]
      exact congrArg some (hstop l)
    | @entry p es below mapped rest ih =>
      rw [usable_cons (entryAt m p) es, List.length_append] at hroom
      rw [readMap, if_pos below, if_neg (Nat.not_lt.mpr mapped),
        visit_of_room (by omega), Option.bind_eq_bind, Option.bind_some,
        ih (by rw [List.length_append]; omega) (by rw [List.length_append]; omega),
        usable_cons (entryAt m p) es, List.append_assoc, List.append_assoc, List.singleton_append]

/-! ### The search -/

/-- The search stops at the first slot whose region ends above the heap top. -/
theorem seekRegion_eq_some (hj : j < 32) (hi : i ≤ j)
    (hbefore : ∀ k, i ≤ k → k < j → u64 (rs.getD k ⟨0, 0⟩).stop ≤ top)
    (hlt : top < u64 (rs.getD j ⟨0, 0⟩).stop) : seekRegion top rs i = some j := by
  induction hn : j - i generalizing i with
  | zero =>
    obtain rfl : i = j := by omega
    rw [seekRegion, dif_pos hj]
    exact if_neg (Nat.not_le.mpr hlt)
  | succ n ih =>
    rw [seekRegion, dif_pos (by omega)]
    exact (if_pos (hbefore i le_rfl (by omega))).trans
      (ih (by omega) (fun k hk => hbefore k (by omega)) (by omega))

theorem seekRegion_spec (h : seekRegion top rs i = some j) : i ≤ j ∧ j < 32 ∧
    (∀ k, i ≤ k → k < j → u64 (rs.getD k ⟨0, 0⟩).stop ≤ top) ∧ top < u64 (rs.getD j ⟨0, 0⟩).stop := by
  induction hn : 32 - i generalizing i with
  | zero =>
    rw [seekRegion, dif_neg (by omega)] at h
    cases h
  | succ n ih =>
    rw [seekRegion, dif_pos (by omega)] at h
    dsimp only at h
    by_cases hle : u64 ((rs.getD i ⟨0, 0⟩).addr + (rs.getD i ⟨0, 0⟩).size) ≤ top
    · rw [if_pos hle] at h
      obtain ⟨hij, hj, hbefore, hlt⟩ := ih h (by omega)
      refine ⟨by omega, hj, fun k hk hkj => ?_, hlt⟩
      by_cases heq : k = i
      · rw [heq]
        exact hle
      · exact hbefore k (by omega) hkj
    · rw [if_neg hle] at h
      obtain rfl := Option.some.inj h
      exact ⟨le_rfl, by omega, by omega, Nat.lt_of_not_le hle⟩

theorem getD_of_split {before behind : List Region} {r : Region} :
    (before ++ r :: behind).getD before.length ⟨0, 0⟩ = r := by
  rw [List.getD_append_right _ _ _ _ le_rfl, Nat.sub_self, List.getD_cons_zero]

/-- The search and the room for it, in terms of the regions. -/
theorem covers_iff (hroom : rs.length ≤ 32) : Covers rs top ↔
    ∃ j, seekRegion top rs 0 = some j ∧ j < rs.length ∧ (rs.getD j ⟨0, 0⟩).addr ≤ top := by
  constructor
  · intro ⟨before, r, behind, hsplit, hbefore, hle, hlt⟩
    have hlen : before.length < rs.length := by
      rw [hsplit, List.length_append, List.length_cons]
      omega
    have hget : rs.getD before.length ⟨0, 0⟩ = r := by
      rw [hsplit]
      exact getD_of_split
    refine ⟨before.length, seekRegion_eq_some (by omega) (Nat.zero_le _) (fun k _ hk => ?_) ?_, hlen, ?_⟩
    · rw [hsplit, List.getD_append _ _ _ _ hk, List.getD_eq_getElem _ _ hk]
      exact hbefore _ (List.getElem_mem hk)
    · rwa [hget]
    · rwa [hget]
  · intro ⟨j, hseek, hj, hle⟩
    obtain ⟨_, _, hbefore, hlt⟩ := seekRegion_spec hseek
    rw [List.getD_eq_getElem _ _ hj] at hle hlt
    refine ⟨rs.take j, rs[j], rs.drop (j + 1), ?_, fun r' hr' => ?_, hle, hlt⟩
    · rw [List.getElem_cons_drop, List.take_append_drop]
    · obtain ⟨k, hk, rfl⟩ := List.mem_take_iff_getElem.mp hr'
      have := hbefore k (Nat.zero_le _) (by omega)
      rwa [List.getD_eq_getElem _ _ (by omega)] at this

/-! ### The whole set-up -/

/-- `page_init` ends with the pool in a region around the heap top exactly on the maps whose records
lead to the end, with 32 usable regions at most, of which the first that ends above the heap top
begins at or below it. -/
theorem set_up_iff (m : Memory) : (∃ s, pageInit m = some s ∧ s.SetUp) ↔
    ∃ es, Entries m (mapEnd m) BOOT_E820_BASE es ∧ (usable es).length ≤ 32 ∧
      Covers (usable es) heapBase := by
  constructor
  · intro ⟨s, hinit, hset⟩
    obtain ⟨l, hread, hseek⟩ := Option.bind_eq_some_iff.mp hinit
    obtain ⟨j, hj, hs⟩ := Option.bind_eq_some_iff.mp hseek
    obtain ⟨es, hes, hroom, rfl⟩ := (readMap_eq_some (Nat.zero_le _)).mp hread
    obtain rfl := Option.some.inj hs
    refine ⟨es, hes, by simpa using hroom, (covers_iff (by simpa using hroom)).mpr
      ⟨j, hj, hset.index_lt, ?_⟩⟩
    rw [← top_start]
    exact hset.inside.1
  · intro ⟨es, hes, hroom, hcovers⟩
    obtain ⟨j, hseek, hj, hle⟩ := (covers_iff hroom).mp hcovers
    obtain ⟨_, _, _, hlt⟩ := seekRegion_spec hseek
    have hread : readMap m (mapEnd m) BOOT_E820_BASE ⟨[], []⟩ = some ⟨es, usable es⟩ :=
      (readMap_eq_some (Nat.zero_le _)).mpr ⟨es, hes, by simpa using hroom, rfl⟩
    refine ⟨⟨usable es, j, 0⟩, ?_, hj, ?_⟩
    · rw [pageInit, hread, Option.bind_eq_bind, Option.bind_some]
      show (seekRegion heapBase (usable es) 0).bind _ = _
      rw [hseek, Option.bind_some]
    · rw [top_start]
      exact ⟨hle, Nat.lt_of_lt_of_le hlt (Nat.mod_le _ _)⟩

/-- A map of one usable region, from 0x5000000 on. -/
def gapped : Memory :=
  ((Memory.write (fun _ => 0) 0xe004 [0, 0, 0, 5, 0, 0, 0, 0, 0, 0, 0, 1, 0, 0, 0, 0, 1, 0, 0, 0]).store
    0xe000 4 20).store BOOT_E820_SIZE 4 24

/-- The first page is at 0x4100000, where there is no memory. -/
theorem gapped_starts_outside :
    pageInit gapped = some ⟨[⟨0x5000000, 0x1000000⟩], 0, 0⟩ ∧
      (pageAlloc 1 ⟨[⟨0x5000000, 0x1000000⟩], 0, 0⟩).map Prod.fst = some 0x4100000 ∧
      ¬ ∃ s, pageInit gapped = some s ∧ s.SetUp := by
  have hinit : pageInit gapped = some ⟨[⟨0x5000000, 0x1000000⟩], 0, 0⟩ := by
    have hend : mapEnd gapped = 0xe018 := by decide +kernel
    have hentry : entryAt gapped 0xe000 = ⟨20, 0x5000000, 0x1000000, 1⟩ := by decide +kernel
    have hread : readMap gapped 0xe018 0xe000 ⟨[], []⟩ =
        some ⟨[⟨20, 0x5000000, 0x1000000, 1⟩], [⟨0x5000000, 0x1000000⟩]⟩ := by
      rw [readMap, if_pos (by decide), if_neg (by decide), nextEntry, hentry]
      show readMap gapped 0xe018 0xe018 _ = _
      rw [readMap, if_neg (by decide)]
      rfl
    have hseek : seekRegion heapBase [⟨0x5000000, 0x1000000⟩] 0 = some 0 :=
      seekRegion_eq_some (by decide) le_rfl (fun k _ hk => absurd hk (Nat.not_lt_zero k))
        (by decide +kernel)
    rw [pageInit, hend, BOOT_E820_BASE, hread, Option.bind_eq_bind, Option.bind_some]
    show (seekRegion heapBase [⟨0x5000000, 0x1000000⟩] 0).bind _ = _
    rw [hseek]
    rfl
  refine ⟨hinit, by decide +kernel, fun hex => ?_⟩
  obtain ⟨s, hs, hset⟩ := hex
  rw [hinit] at hs
  rw [← Option.some.inj hs] at hset
  have hinside : 0x5000000 ≤ Pool.top ⟨[⟨0x5000000, 0x1000000⟩], 0, 0⟩ := hset.inside.1
  rw [top_start, heapBase] at hinside
  exact absurd hinside (by decide)

end Kvi.Page
