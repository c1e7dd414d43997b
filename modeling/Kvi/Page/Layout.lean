import Kvi.Boot.E820
import Kvi.Page.Pool

/-! How `page_layout` reads the memory map.

The reader takes the size at its word: it goes on as long as it is below the
end that the size gives, and each record says how far the next one is. On the
buffer of a session that ended with `EBX = 0` it visits the records and stops.
When the carry flag ended the session there are four bytes more, and it visits
one record that the BIOS never gave, whatever memory holds there. -/
namespace Kvi.Page
open Boot

def E820_USABLE : Nat := 1

/-- `struct e820entry` -/
structure E820Entry where
  entrySize : Nat
  addr : Nat
  size : Nat
  type : Nat
  deriving DecidableEq, Repr

def entryAt (m : Memory) (p : Nat) : E820Entry :=
  ⟨m.load p 4, m.load (p + 4) 8, m.load (p + 12) 8, m.load (p + 20) 4⟩

structure Layout where
  /-- The entries the loop has looked at. -/
  visited : List E820Entry
  /-- `page_freelist[0..page_freelist_size)` -/
  freelist : List Region
  deriving DecidableEq, Repr

/-- A usable entry goes to `page_freelist`, which has room for 32. -/
def Layout.visit (l : Layout) (e : E820Entry) : Option Layout :=
  if e.type = E820_USABLE then
    if l.freelist.length < 32 then some ⟨l.visited ++ [e], l.freelist ++ [⟨e.addr, e.size⟩]⟩
    else none
  else some ⟨l.visited ++ [e], l.freelist⟩

/-- The loop of `page_layout`. -/
def Layout.layoutLoop (m : Memory) (q p : Nat) (l : Layout) : Option Layout :=
  if p < q then do
    let l ← l.visit (entryAt m p)
    l |>.layoutLoop m q (u64 (p + u32 ((entryAt m p).entrySize + 4)))
  else some l
partial_fixpoint

export Layout (layoutLoop)

/-- `page_layout` up to its choice of a region. -/
def pageLayout (m : Memory) : Option Layout :=
  layoutLoop m (u64 (BOOT_E820_BASE + ofInt64 (s32 (m.load BOOT_E820_SIZE 4)))) BOOT_E820_BASE
    ⟨[], []⟩

/-- The entry that a reply is. -/
def replied (r : Reply) : E820Entry :=
  let m : Memory := fun i => r.bytes.getD i 0
  ⟨r.bytes.length, m.load 0 8, m.load 8 8, m.load 16 4⟩

/-- The usable regions among the entries. -/
def usable (es : List E820Entry) : List Region :=
  (es.filter fun e => e.type = E820_USABLE).map fun e => ⟨e.addr, e.size⟩

variable {m : Memory} {rs : List Reply} {r : Reply} {p q : Nat} {l l' : Layout} {b : Session}
  {e : E820Entry}

/-! ### One entry -/

/-- The reader finds the reply in its record. -/
theorem entryAt_record (hlen : m.load p 4 = r.bytes.length)
    (hbytes : ∀ i < r.bytes.length, m (p + 4 + i) = r.bytes.getD i 0) :
    entryAt m p = replied r := by
  have hlong := r.long
  have hload : ∀ k n, k + n ≤ 20 →
      m.load (p + 4 + k) n = Memory.load (fun i => r.bytes.getD i 0) k n := by
    intro k n hk
    apply Memory.load_eq_of_bytes
    intro i hi
    have := hbytes (k + i) (by omega)
    rwa [← Nat.add_assoc] at this
  have h0 := hload 0 8 (by decide)
  have h8 := hload 8 8 (by decide)
  have h16 := hload 16 4 (by decide)
  simp only [Nat.add_assoc, Nat.reduceAdd] at h0 h8 h16
  simp only [entryAt, replied, hlen, h0, h8, h16]

theorem visit_visited (h : l.visit e = some l') : l'.visited = l.visited ++ [e] := by
  rw [Layout.visit] at h
  split at h
  · split at h
    · rw [← Option.some.inj h]
    · cases h
  · rw [← Option.some.inj h]

theorem visit_of_room (h : l.freelist.length + (usable [e]).length ≤ 32) :
    l.visit e = some ⟨l.visited ++ [e], l.freelist ++ usable [e]⟩ := by
  rw [Layout.visit]
  by_cases ht : e.type = E820_USABLE
  · have hone : usable [e] = [⟨e.addr, e.size⟩] := by simp [usable, ht]
    rw [hone] at h ⊢
    rw [if_pos ht, if_pos (by simpa using h)]
  · have hnone : usable [e] = [] := by simp [usable, ht]
    rw [hnone, if_neg ht, List.append_nil]

theorem usable_cons (e : E820Entry) (es : List E820Entry) : usable (e :: es) = usable [e] ++ usable es := by
  rw [usable, usable, usable, ← List.map_append, ← List.filter_append, List.singleton_append]

/-! ### The loop -/

/-- Records are passed one after the other. -/
theorem layoutLoop_encoded (h : Encoded m p rs) (hq : p + span rs ≤ q) (hlt : q < 2 ^ 31)
    (hroom : l.freelist.length + (usable (rs.map replied)).length ≤ 32) :
    layoutLoop m q p l = layoutLoop m q (p + span rs)
      ⟨l.visited ++ rs.map replied, l.freelist ++ usable (rs.map replied)⟩ := by
  induction rs generalizing p l with
  | nil =>
    show layoutLoop m q p l = layoutLoop m q p ⟨l.visited ++ [], l.freelist ++ []⟩
    rw [List.append_nil, List.append_nil]
  | cons r rs ih =>
    obtain ⟨hlen, hbytes, hrest⟩ := h
    rw [List.map_cons, usable_cons, List.length_append] at hroom
    rw [span_cons] at hq
    have hentry := entryAt_record hlen hbytes
    have hvisit : l.visit (replied r) = some ⟨l.visited ++ [replied r],
        l.freelist ++ usable [replied r]⟩ := visit_of_room (by omega)
    have hnext : u64 (p + u32 ((replied r).entrySize + 4)) = p + (4 + r.bytes.length) := by
      show u64 (p + u32 (r.bytes.length + 4)) = _
      rw [u32_of_lt (by omega), u64_of_lt (by omega), Nat.add_comm 4]
    rw [layoutLoop, if_pos (by omega), hentry, hvisit, Option.bind_eq_bind, Option.bind_some,
      hnext, ih hrest (by omega) (by rw [List.length_append]; omega)]
    rw [List.map_cons, usable_cons (replied r) (rs.map replied), span_cons, List.append_assoc, List.append_assoc,
      List.singleton_append, Nat.add_assoc p]

/-- Nothing visited is forgotten. -/
theorem layoutLoop_visited (h : layoutLoop m q p l = some l') :
    l.visited.length ≤ l'.visited.length := by
  refine Layout.layoutLoop.partial_correctness m q (fun _ l l' => l.visited.length ≤ l'.visited.length)
    (fun loop ih p l l' hnow => ?_) p l l' h
  split at hnow
  · obtain ⟨l₁, hvisit, hloop⟩ := Option.bind_eq_some_iff.mp hnow
    have hle := ih _ _ _ hloop
    rw [visit_visited hvisit, List.length_append] at hle
    omega
  · rw [← Option.some.inj hnow]

/-- Below the end at least one more entry is visited. -/
theorem layoutLoop_below (hlt : p < q) (h : layoutLoop m q p l = some l') :
    l.visited.length < l'.visited.length := by
  rw [layoutLoop, if_pos hlt] at h
  obtain ⟨l₁, hvisit, hloop⟩ := Option.bind_eq_some_iff.mp h
  have hle := layoutLoop_visited hloop
  rw [visit_visited hvisit, List.length_append] at hle
  exact hle

/-! ### The writer and the reader -/

/-- What `page_layout` makes of the map that `start16` has left. -/
def layoutOf (b : Session) (m : Memory) : Option Layout :=
  (start16 b.answers m).bind pageLayout

/-- The reader visited what the BIOS replied, and took the usable regions. -/
structure Agrees (b : Session) (l : Layout) : Prop where
  visited : l.visited = b.replies.map replied
  freelist : l.freelist = usable (b.replies.map replied)

/-- The reader passes the records and is then at their end, or four bytes before it. -/
theorem layoutOf_eq (m : Memory) (hfit : span b.replies ≤ BOOT_PAGE_TBL_BASE - BOOT_E820_BASE)
    (husable : (usable (b.replies.map replied)).length ≤ 32) :
    ∃ m', layoutOf b m = layoutLoop m' (BOOT_E820_BASE + span b.replies + b.excess)
      (BOOT_E820_BASE + span b.replies)
      ⟨b.replies.map replied, usable (b.replies.map replied)⟩ := by
  obtain ⟨m', hstart, henc, hsize⟩ := start16_session m hfit
  have hexcess : b.excess ≤ 4 := by
    rw [Session.excess]
    split <;> omega
  have hlt : BOOT_E820_BASE + span b.replies + b.excess < 2 ^ 31 := by
    rw [BOOT_PAGE_TBL_BASE, BOOT_E820_BASE] at hfit
    rw [BOOT_E820_BASE]
    omega
  have hend : u64 (BOOT_E820_BASE + ofInt64 (s32 (span b.replies + b.excess : Nat))) =
      BOOT_E820_BASE + span b.replies + b.excess := by
    rw [s32_of_lt (by omega), ofInt64_of_nonneg (by omega) (by omega), Int.toNat_natCast,
      u64_of_lt (by omega), Nat.add_assoc]
  refine ⟨m', ?_⟩
  rw [layoutOf, hstart, Option.bind_some, pageLayout, hsize, hend,
    layoutLoop_encoded henc (Nat.le_add_right ..) hlt (by simpa using husable)]
  rfl

/-- The reader agrees with the BIOS exactly on the sessions that no carry flag ended. -/
theorem layout_agrees_iff (m : Memory) (hfit : span b.replies ≤ BOOT_PAGE_TBL_BASE - BOOT_E820_BASE)
    (husable : (usable (b.replies.map replied)).length ≤ 32) :
    (∃ l, layoutOf b m = some l ∧ Agrees b l) ↔ b.last.isSome := by
  obtain ⟨m', heq⟩ := layoutOf_eq m hfit husable
  rw [heq, Session.excess]
  constructor
  · intro hex
    obtain ⟨l, hl, hagrees⟩ := hex
    by_contra hcarry
    rw [if_neg hcarry] at hl
    have hlt := layoutLoop_below (by omega) hl
    rw [hagrees.visited] at hlt
    exact absurd hlt (Nat.lt_irrefl _)
  · intro hlast
    refine ⟨⟨b.replies.map replied, usable (b.replies.map replied)⟩, ?_, ⟨rfl, rfl⟩⟩
    rw [if_pos hlast, layoutLoop, if_neg (by omega)]

/-- The usable region from 0 to 640 KiB. -/
def lowMemory (ebx : UInt32) : Reply :=
  ⟨[0, 0, 0, 0, 0, 0, 0, 0, 0, 0, 0x0a, 0, 0, 0, 0, 0, 1, 0, 0, 0], ebx, by decide⟩

/-- The usable region of 256 MiB from 1 MiB on. -/
def highMemory (ebx : UInt32) : Reply :=
  ⟨[0, 0, 0x10, 0, 0, 0, 0, 0, 0, 0, 0, 0x10, 0, 0, 0, 0, 1, 0, 0, 0], ebx, by decide⟩

/-- A BIOS that says with its second reply that there are no more. -/
def endsWithReply : Session := ⟨[lowMemory 1], by decide, some (highMemory 0), by decide⟩

theorem endsWithReply_usable : usable (endsWithReply.replies.map replied) =
    [⟨0, 0xa0000⟩, ⟨0x100000, 0x10000000⟩] := by
  decide +kernel

theorem endsWithReply_agrees : endsWithReply.replies.length = 2 ∧
    ∃ l, layoutOf endsWithReply (fun _ => 0) = some l ∧ Agrees endsWithReply l ∧
      l.freelist = [⟨0, 0xa0000⟩, ⟨0x100000, 0x10000000⟩] := by
  have hfew : (usable (endsWithReply.replies.map replied)).length ≤ 32 := by
    rw [endsWithReply_usable]
    decide
  obtain ⟨l, hl, hagrees⟩ := (layout_agrees_iff (fun _ => 0) (by decide) hfew).mpr rfl
  exact ⟨rfl, l, hl, hagrees, hagrees.freelist.trans endsWithReply_usable⟩

/-- A BIOS that says so on the next call. -/
def endsWithCarry : Session := ⟨[lowMemory 1], by decide, none, nofun⟩

/-- Memory with a 1 where a second entry would have its type, and one in its size. -/
def stale : Memory := fun a => if a = 0xe02c ∨ a = 0xe027 then 1 else 0

/-- The four bytes set aside for the failed call are read as an entry: 16 MiB at address 0 become
part of the pool. -/
theorem phantom_visited :
    layoutOf endsWithCarry stale =
        some ⟨[⟨20, 0, 0xa0000, 1⟩, ⟨0, 0, 0x1000000, 1⟩], [⟨0, 0xa0000⟩, ⟨0, 0x1000000⟩]⟩ ∧
      ¬ ∃ l, layoutOf endsWithCarry stale = some l ∧ Agrees endsWithCarry l := by
  have heq : layoutOf endsWithCarry stale =
      some ⟨[⟨20, 0, 0xa0000, 1⟩, ⟨0, 0, 0x1000000, 1⟩], [⟨0, 0xa0000⟩, ⟨0, 0x1000000⟩]⟩ := by
    obtain ⟨m, hm⟩ : ∃ m, m = ((stale.write 0xe004 (lowMemory 1).bytes).store 0xe000 4 20).store
      BOOT_E820_SIZE 4 28 := ⟨_, rfl⟩
    have hstart : start16 endsWithCarry.answers stale = some m := by
      rw [hm]
      rfl
    have hend : u64 (BOOT_E820_BASE + ofInt64 (s32 (m.load BOOT_E820_SIZE 4))) = 0xe01c := by
      rw [hm]
      decide +kernel
    have hentry : entryAt m 0xe000 = ⟨20, 0, 0xa0000, 1⟩ := by
      rw [hm]
      decide +kernel
    have hphantom : entryAt m 0xe018 = ⟨0, 0, 0x1000000, 1⟩ := by
      rw [hm]
      decide +kernel
    rw [layoutOf, hstart, Option.bind_some, pageLayout, hend, BOOT_E820_BASE, layoutLoop,
      if_pos (by decide), hentry]
    show layoutLoop m 0xe01c 0xe018 ⟨[⟨20, 0, 0xa0000, 1⟩], [⟨0, 0xa0000⟩]⟩ = _
    rw [layoutLoop, if_pos (by decide), hphantom]
    show layoutLoop m 0xe01c 0xe01c _ = _
    rw [layoutLoop, if_neg (by decide)]
    rfl
  refine ⟨heq, fun hex => ?_⟩
  obtain ⟨l, hl, hagrees⟩ := hex
  rw [heq] at hl
  rw [← Option.some.inj hl] at hagrees
  exact absurd hagrees.visited (by decide +kernel)

end Kvi.Page
