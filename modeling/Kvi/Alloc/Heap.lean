import Kvi.Library.Memory
import Kvi.Library.Word

/-! The heap of `alloc.c`.

Every block starts with a `struct boundary_tag` in the same memory the block is
handed out of; the allocator's own globals are the 32 bin heads
`l_freePages[]`, the counters `l_completePages[]` and the flag
`l_initialized`. Pages come from `liballoc_alloc` and go back through
`liballoc_free`; what answers those calls is a parameter (`PageSource`), and the
calls made so far are kept in `calls`.

The functions below are the source's, statement by statement. Pointers are
addresses with `0` for `NULL`. Calls of the allocator are serialized by its
spin lock, so each is one transition and the lock itself is left out. A loop
whose end depends on what memory holds (the list search of `malloc`, the two
melt loops of `free`) is a least fixed point: no result means it does not end. -/
namespace Kvi.Alloc

def LIBALLOC_MAGIC : Nat := 0xc001c0de
def MAXCOMPLETE : Int := 5
def MAXEXP : Nat := 32
def MINEXP : Nat := 8
def MODE_BEST : Int := 0
def MODE : Int := MODE_BEST

/-- `l_pageSize` -/
def pageSize : Nat := 4096
/-- `l_pageCount`: the minimum number of pages to allocate. -/
def pageCount : Nat := 16

/-! ### Boundary tags in memory -/

/-- The fields of `struct boundary_tag`. -/
inductive Field where
  | magic | size | realSize | index | splitLeft | splitRight | next | prev
  deriving DecidableEq, Repr

def Field.offset : Field → Nat
  | .magic => 0
  | .size => 4
  | .realSize => 8
  | .index => 12
  | .splitLeft => 16
  | .splitRight => 24
  | .next => 32
  | .prev => 40

/-- Bytes of a field: four for the integers, eight for the pointers. -/
def Field.width : Field → Nat
  | .magic | .size | .realSize | .index => 4
  | .splitLeft | .splitRight | .next | .prev => 8

/-- `sizeof (struct boundary_tag)` -/
def tagSize : Nat := 48

/-- A call of the page layer: `liballoc_alloc (pages)` answered `base`, or
`liballoc_free (base, pages)`. -/
inductive PageCall where
  | alloc (pages base : Nat)
  | free (base pages : Nat)
  deriving DecidableEq, Repr

/-- What `liballoc_alloc` answers, given the calls made before and the page count. -/
abbrev PageSource := List PageCall → Nat → Nat

structure Heap where
  mem : Memory
  freePages : Nat → Nat
  completePages : Nat → Int
  initialized : Bool
  /-- Calls of the page layer, latest first. -/
  calls : List PageCall

namespace Heap

/-- `tag->f` -/
def get (s : Heap) (tag : Nat) (f : Field) : Nat := s.mem.load (tag + f.offset) f.width

/-- `tag->f = v` -/
def set (s : Heap) (tag : Nat) (f : Field) (v : Nat) : Heap :=
  {s with mem := s.mem.store (tag + f.offset) f.width v}

/-- `if (tag != NULL) tag->f = v` -/
def setThrough (s : Heap) (tag : Nat) (f : Field) (v : Nat) : Heap :=
  if tag ≠ 0 then s.set tag f v else s

/-- `tag->index`, an `int`. -/
def index (s : Heap) (tag : Nat) : Int := s32 (s.get tag .index)

def setFreePages (s : Heap) (i tag : Nat) : Heap :=
  {s with freePages := Function.update s.freePages i tag}

def addCompletePages (s : Heap) (i : Nat) (d : Int) : Heap :=
  {s with completePages := Function.update s.completePages i (s.completePages i + d)}

end Heap

/-! ### Helper functions -/

/-- The loop of `getexp`: at most `n` more steps from `shift` on. -/
def getexpLoop (size : Nat) : Nat → Nat → Nat
  | 0, shift => shift
  | n + 1, shift => if 2 ^ shift > size then shift else getexpLoop size n (shift + 1)

/-- The exponent `n` of an `unsigned int`, with `2^n <= size < 2^(n+1)`; but `-1` below the quantum, of which
the comment of the source says nothing. -/
def getexp (size : Nat) : Int :=
  if size < 2 ^ MINEXP then -1 else getexpLoop size (MAXEXP - MINEXP) MINEXP - 1

/-- `index < MINEXP ? MINEXP : index` -/
def atLeastMin (index : Int) : Int := if index < MINEXP then MINEXP else index

/-- The bin for a block of `real_size` bytes, header included. -/
def binIndex (realSize : Nat) : Int := atLeastMin (getexp (u32 (sub64 realSize tagSize)))

/-- `s[0..n)` set to the low byte of `c`. The counter is an `int`: from `2^31` on it
overflows, which has no defined result. -/
def liballocMemset (m : Memory) (s : Nat) (c : Int) (n : Nat) : Option Memory :=
  if n < 2 ^ 31 then some (m.fill s (UInt8.ofNat (ofInt32 c)) n) else none

/-- Whole words first, then the bytes left over. -/
def liballocMemcpy (m : Memory) (dst src : Nat) : Nat → Memory
  | n + 4 => liballocMemcpy (m.store dst 4 (m.load src 4)) (dst + 4) (src + 4) n
  | n => m.copyBytes dst src n

/-- The bin `insert_tag` puts a tag in: the one asked for, or with a negative index the one of
its size. -/
def realIndex (s : Heap) (tag : Nat) (index : Int) : Int :=
  if index < 0 then binIndex (s.get tag .realSize) else index

/-- The old head of the bin, if any, behind `tag`. -/
def linkHead (tag i : Nat) (s : Heap) : Heap :=
  if s.freePages i ≠ 0 then
    (s.set (s.freePages i) .prev tag).set tag .next (s.freePages i)
  else s

def insertTag (tag : Nat) (index : Int) (s : Heap) : Heap :=
  let i := realIndex s tag index
  let s := s.set tag .index (ofInt32 i)
  (linkHead tag i.toNat s).setFreePages i.toNat tag

/-- `if (l_freePages[tag->index] == tag) l_freePages[tag->index] = tag->next` -/
def dropHead (tag : Nat) (s : Heap) : Heap :=
  let i := (s.index tag).toNat
  if s.freePages i = tag then s.setFreePages i (s.get tag .next) else s

def removeTag (tag : Nat) (s : Heap) : Heap :=
  let s := dropHead tag s
  let s := s.setThrough (s.get tag .prev) .next (s.get tag .next)
  let s := s.setThrough (s.get tag .next) .prev (s.get tag .prev)
  ((s.set tag .next 0).set tag .prev 0).set tag .index (ofInt32 (-1))

/-- `left` takes over the space of its right neighbour `right`. -/
def takeOver (left right : Nat) (s : Heap) : Heap :=
  let s := s.set left .realSize (u32 (s.get left .realSize + s.get right .realSize))
  let s := s.set left .splitRight (s.get right .splitRight)
  s.setThrough (s.get right .splitRight) .splitLeft left

def meltLeft (tag : Nat) (s : Heap) : Nat × Heap :=
  let left := s.get tag .splitLeft
  (left, takeOver left tag s)

def absorbRight (tag : Nat) (s : Heap) : Nat × Heap :=
  let right := s.get tag .splitRight
  (tag, takeOver tag right (removeTag right s))

/-- Where `split_tag` puts the new tag: behind the payload. -/
def splitAddr (tag : Nat) (s : Heap) : Nat := u64 (tag + tagSize + s.get tag .size)

/-- What `split_tag` writes before it queues the new tag. -/
def cutTag (tag : Nat) (s : Heap) : Heap :=
  let remainder := u32 (sub64 (sub64 (s.get tag .realSize) tagSize) (s.get tag .size))
  let newTag := splitAddr tag s
  let s := s.set newTag .magic LIBALLOC_MAGIC
  let s := s.set newTag .realSize remainder
  let s := s.set newTag .next 0
  let s := s.set newTag .prev 0
  let s := s.set newTag .splitLeft tag
  let s := s.set newTag .splitRight (s.get tag .splitRight)
  let s := s.setThrough (s.get newTag .splitRight) .splitLeft newTag
  let s := s.set tag .splitRight newTag
  s.set tag .realSize (u32 (s.get tag .realSize + 2 ^ 32 - s.get newTag .realSize))

def splitTag (tag : Nat) (s : Heap) : Nat × Heap :=
  (splitAddr tag s, insertTag (splitAddr tag s) (-1) (cutTag tag s))

/-! ### Pages -/

def liballocAlloc (src : PageSource) (pages : Nat) (s : Heap) : Nat × Heap :=
  let p := src s.calls pages
  (p, {s with calls := .alloc pages p :: s.calls})

def liballocFree (p pages : Nat) (s : Heap) : Heap := {s with calls := .free p pages :: s.calls}

/-- Bytes to pages, rounded up, and never fewer than `l_pageCount`. -/
def pagesFor (bytes : Nat) : Nat :=
  let pages := bytes / pageSize
  let pages := if bytes % pageSize ≠ 0 then pages + 1 else pages
  if pages < pageCount then pageCount else pages

/-- `size` is an `unsigned int`. -/
def allocateNewTag (src : PageSource) (size : Nat) (s : Heap) : Nat × Heap :=
  let usage := u32 (size + tagSize)
  let pages := pagesFor usage
  let (tag, s) := liballocAlloc src pages s
  if tag = 0 then (0, s) else
  let s := s.set tag .magic LIBALLOC_MAGIC
  let s := s.set tag .size size
  let s := s.set tag .realSize (u32 (pages * pageSize))
  let s := s.set tag .index (ofInt32 (-1))
  let s := s.set tag .next 0
  let s := s.set tag .prev 0
  let s := s.set tag .splitLeft 0
  let s := s.set tag .splitRight 0
  (tag, s)

/-! ### The interface -/

/-- The search's own test: the block holds the request and one more tag. -/
def fits (s : Heap) (size tag : Nat) : Bool :=
  decide (u64 (size + tagSize) ≤ sub64 (s.get tag .realSize) tagSize)

/-- `while (tag != NULL)` of `malloc`: the first tag of the list that fits. -/
def Heap.search (s : Heap) (n tag : Nat) : Option Nat :=
  if tag = 0 then some 0
  else if fits s n tag then some tag
  else s |>.search n (s.get tag .next)
partial_fixpoint

export Heap (search)

/-- The one-time clearing of the bins. -/
def setup (s : Heap) : Heap :=
  if s.initialized then s else
    {s with freePages := fun _ => 0, completePages := fun _ => 0, initialized := true}

/-- The tag the search found leaves its bin; a whole block also leaves the count of the bin. -/
def takeTag (tag index : Nat) (s : Heap) : Heap :=
  let s := removeTag tag s
  if s.get tag .splitLeft = 0 ∧ s.get tag .splitRight = 0 then s.addCompletePages index (-1) else s

/-- The end of `malloc`: the size is noted, the excess split off, the payload returned. -/
def carve (size tag : Nat) (s : Heap) : Nat × Heap :=
  let s := s.set tag .size (u32 size)
  let remainder := u32 (sub64 (sub64 (s.get tag .realSize) size) (tagSize * 2))
  let s := if 0 < s32 remainder ∧ 0 ≤ getexp remainder then (splitTag tag s).2 else s
  (u64 (tag + tagSize), s)

/-- `malloc (size)`: the pointer returned and the heap after the call. -/
def malloc (src : PageSource) (size : Nat) (s : Heap) : Option (Nat × Heap) := do
  let s := setup s
  let index := (atLeastMin (getexp (u32 size) + MODE)).toNat
  let tag ← search s size (s.freePages index)
  if tag = 0 then
    let (tag, s) := allocateNewTag src (u32 size) s
    if tag = 0 then some (0, s) else some (carve size tag s)
  else some (carve size tag (takeTag tag index s))

/-- `MELT LEFT...` -/
def Heap.meltLeftLoop (tag : Nat) (s : Heap) : Option (Nat × Heap) :=
  if s.get tag .splitLeft ≠ 0 ∧ 0 ≤ s.index (s.get tag .splitLeft) then
    let (tag, s) := meltLeft tag s
    removeTag tag s |>.meltLeftLoop tag
  else some (tag, s)
partial_fixpoint

/-- `MELT RIGHT...` -/
def Heap.meltRightLoop (tag : Nat) (s : Heap) : Option (Nat × Heap) :=
  if s.get tag .splitRight ≠ 0 ∧ 0 ≤ s.index (s.get tag .splitRight) then
    let (tag, s) := absorbRight tag s
    s |>.meltRightLoop tag
  else some (tag, s)
partial_fixpoint

export Heap (meltLeftLoop meltRightLoop)

/-- The end of `free`: a whole, empty block beyond the limit goes back to the page layer,
anything else into its bin. -/
def release (tag : Nat) (s : Heap) : Heap :=
  let index := binIndex (s.get tag .realSize)
  if s.get tag .splitLeft = 0 ∧ s.get tag .splitRight = 0 then
    if s.completePages index.toNat = MAXCOMPLETE then
      liballocFree tag (pagesFor (s.get tag .realSize)) s
    else insertTag tag index (s.addCompletePages index.toNat 1)
  else insertTag tag index s

def free (ptr : Nat) (s : Heap) : Option Heap :=
  if ptr = 0 then some s else
  let tag := sub64 ptr tagSize
  if s.get tag .magic ≠ LIBALLOC_MAGIC then some s else do
    let (tag, s) ← meltLeftLoop tag s
    let (tag, s) ← meltRightLoop tag s
    some (release tag s)

def calloc (src : PageSource) (nobj size : Nat) (s : Heap) : Option (Nat × Heap) := do
  let realSize := s32 (u64 (nobj * size))
  let (p, s) ← malloc src (ofInt64 realSize) s
  let m ← liballocMemset s.mem p 0 (ofInt64 realSize)
  some (p, {s with mem := m})

def realloc (src : PageSource) (p size : Nat) (s : Heap) : Option (Nat × Heap) :=
  if size = 0 then do
    let s ← free p s
    some (0, s)
  else if p = 0 then malloc src size s
  else do
    let tag := sub64 p tagSize
    let realSize := s32 (s.get tag .size)
    let realSize := if ofInt64 realSize > size then s32 size else realSize
    let (ptr, s) ← malloc src size s
    let s := {s with mem := liballocMemcpy s.mem ptr p (ofInt64 realSize)}
    let s ← free p s
    some (ptr, s)

end Kvi.Alloc
