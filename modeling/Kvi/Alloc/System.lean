import Kvi.Alloc.Free
import Kvi.Alloc.Store

/-! Clients and the allocator.

A `System` is the heap together with the blocks its clients hold. One `step` is
one call, with the block handed out or given up noted, or one byte a client
writes into a block of its own. `History` is every state such steps reach, in
any order, as long as clients obey `Legal` and the page layer answers every
request with a range of its own (`Served`).

`Sound` is what holds in all of them: the invariant of the heap, and the tags in
use are those of the live blocks. `Sound.step` shows for each kind of step that
it ends, keeps `Sound`, and does to the arrays of the clients what the abstract
`Store` does. -/
namespace Kvi.Alloc

/-- A block a client holds: the pointer it got and the size it asked for. -/
structure Block where
  ptr : Nat
  size : Nat
  deriving DecidableEq, Repr

structure System where
  heap : Heap
  live : List Block

/-- Before the first call: memory holds anything, the allocator's own globals are zero. -/
def boot (m : Memory) : System :=
  ⟨⟨m, fun _ => 0, fun _ => 0, false, []⟩, []⟩

/-- A block is noted when there is one. -/
def note (p n : Nat) (live : List Block) : List Block := if p = 0 then live else ⟨p, n⟩ :: live

def forget (p : Nat) (live : List Block) : List Block := live.filter fun b => b.ptr ≠ p

/-- One call and the pointer it returns (`0` where it returns none), or one byte written. -/
def step (src : PageSource) : Op → System → Option (Nat × System)
  | .malloc n, σ => do
    let (p, s) ← malloc src n σ.heap
    some (p, ⟨s, note p n σ.live⟩)
  | .calloc k n, σ => do
    let (p, s) ← calloc src k n σ.heap
    some (p, ⟨s, note p (k * n) σ.live⟩)
  | .realloc p n, σ => do
    let (q, s) ← realloc src p n σ.heap
    some (q, ⟨s, note q n (forget p σ.live)⟩)
  | .free p, σ => do
    let s ← free p σ.heap
    some (0, ⟨s, forget p σ.live⟩)
  | .write a v, σ => some (0, {σ with heap := {σ.heap with mem := Function.update σ.heap.mem a v}})

/-- A pointer that may be passed to `free`. -/
def Live (σ : System) (p : Nat) : Prop := ∃ b ∈ σ.live, b.ptr = p

/-- What clients may do: sizes the allocator can serve, pointers that are `NULL` or live, and
writes inside a live block. -/
def Legal : Op → System → Prop
  | .malloc n, _ => Small n
  | .calloc k n, _ => Small (k * n)
  | .realloc p n, σ => Small n ∧ (p = 0 ∨ Live σ p)
  | .free p, σ => p = 0 ∨ Live σ p
  | .write a _, σ => ∃ b ∈ σ.live, b.ptr ≤ a ∧ a < b.ptr + b.size

/-- What the arithmetic of the allocator gets right beyond `Legal`: requests whose pages make less
than `2^32` bytes. What `calloc` clears and one of the two sizes of `realloc` must fit an `int`. -/
def Allowed : Op → System → Prop
  | .malloc n, _ => Sized n
  | .calloc k n, _ => k * n < 2 ^ 31
  | .realloc p n, σ => Sized n ∧ (p = 0 ∨ Live σ p) ∧
      (n < 2 ^ 31 ∨ ∀ b ∈ σ.live, b.ptr = p → b.size < 2 ^ 31)
  | .free p, σ => p = 0 ∨ Live σ p
  | .write a _, σ => ∃ b ∈ σ.live, b.ptr ≤ a ∧ a < b.ptr + b.size

/-- The size a request passes to `malloc`, if it does. -/
def asks : Op → Option Nat
  | .malloc n => some n
  | .calloc k n => some (k * n)
  | .realloc _ n => if n = 0 then none else some n
  | .free _ | .write _ _ => none

/-- The range the request obtains from the page layer, if it obtains one, is a range of its own. -/
def Served (src : PageSource) (op : Op) (σ : System) : Prop :=
  ∀ n, asks op = some n → ∀ p s, malloc src n σ.heap = some (p, s) → Granted s.calls

/-- The states reached, with the requests made and the pointers returned. -/
inductive History (src : PageSource) : List (Op × Nat) → System → Prop where
  | boot (m : Memory) : History src [] (boot m)
  | step {trace : List (Op × Nat)} {σ σ' : System} {op : Op} {p : Nat} (past : History src trace σ)
      (legal : Legal op σ) (served : Served src op σ) (now : step src op σ = some (p, σ')) :
      History src (trace ++ [(op, p)]) σ'

/-! ### The arrays of the clients -/

/-- The `n` bytes at `p`. -/
def bytes (m : Memory) (p n : Nat) : List UInt8 := (List.range n).map fun i => m (p + i)

def contents (m : Memory) : List Block → Store
  | [] => Store.empty
  | b :: bs => (contents m bs).put b.ptr (bytes m b.ptr b.size)

/-- The abstract store a system stands for. -/
def System.store (σ : System) : Store := contents σ.heap.mem σ.live

variable {s s' : Heap} {L L' : Layout} {σ σ' : System} {m m' : Memory} {p q n k a : Nat}
  {live : List Block} {b : Block} {src : PageSource}

theorem Legal.allowed {op : Op} (h : Legal op σ) : Allowed op σ := by
  cases op with
  | malloc n => exact Small.sized h
  | calloc k n =>
    have hlt := Small.lt h
    exact Nat.lt_of_le_of_lt (Nat.le_add_right ..) hlt
  | realloc p n =>
    have hlt := h.1.lt
    exact ⟨h.1.sized, h.2, .inl (by omega)⟩
  | free p => exact h
  | write a v => exact h

@[simp] theorem length_bytes : (bytes m p n).length = n := by simp [bytes]

theorem bytes_congr (h : ∀ x, p ≤ x → x < p + n → m' x = m x) : bytes m' p n = bytes m p n := by
  refine List.map_congr_left fun i hi => ?_
  have hi := List.mem_range.mp hi
  exact h (p + i) (by omega) (by omega)

theorem eq_of_bytes_eq (h : bytes m' p n = bytes m p n) {x : Nat} (hlo : p ≤ x) (hhi : x < p + n) :
    m' x = m x := by
  have hx : x - p ∈ List.range n := List.mem_range.mpr (by omega)
  have heq := List.map_inj_left.mp h (x - p) hx
  rwa [show p + (x - p) = x by omega] at heq

theorem bytes_fill (m : Memory) (p n : Nat) (c : UInt8) :
    bytes (m.fill p c n) p n = List.replicate n c := by
  refine List.ext_getElem (by simp) fun i hi _ => ?_
  rw [length_bytes] at hi
  simp only [bytes, List.getElem_map, List.getElem_range, List.getElem_replicate]
  rw [Memory.fill_apply, if_pos (by omega)]

theorem bytes_update (hlo : p ≤ a) {v : UInt8} :
    bytes (Function.update m a v) p n = (bytes m p n).set (a - p) v := by
  refine List.ext_getElem (by simp) fun i hi _ => ?_
  rw [length_bytes] at hi
  simp only [bytes, List.getElem_set, List.getElem_map, List.getElem_range, Function.update_apply]
  by_cases hia : a - p = i
  · rw [if_pos hia, if_pos (by omega)]
  · rw [if_neg hia, if_neg (by omega)]

/-- Two arrays that agree on their first `k` bytes. -/
theorem take_bytes (hk : k ≤ n) (hk' : k ≤ a) (h : ∀ i < k, m' (q + i) = m (p + i)) :
    (bytes m' q n).take k = (bytes m p a).take k := by
  refine List.ext_getElem (by simp [hk, hk']) fun i hi _ => ?_
  have hi : i < k := by
    rw [List.length_take] at hi
    omega
  simp only [bytes, List.getElem_take, List.getElem_map, List.getElem_range]
  exact h i hi

theorem contents_cons :
    contents m (⟨p, n⟩ :: live) = (contents m live).put p (bytes m p n) := rfl

theorem contents_congr (h : ∀ b ∈ live, ∀ x, b.ptr ≤ x → x < b.ptr + b.size → m' x = m x) :
    contents m' live = contents m live := by
  induction live with
  | nil => rfl
  | cons b bs ih =>
    rw [contents, contents, ih fun b hb => h b (List.mem_cons_of_mem _ hb),
      bytes_congr (h b (List.mem_cons_self ..))]

theorem contents_of_dead (h : ∀ b ∈ live, b.ptr ≠ p) : contents m live p = none := by
  induction live with
  | nil => rfl
  | cons b bs ih =>
    rw [contents, Store.put_of_ne (h b (List.mem_cons_self ..)).symm]
    exact ih fun b hb => h b (List.mem_cons_of_mem _ hb)

theorem contents_of_mem (hnd : (live.map Block.ptr).Nodup) (hb : b ∈ live) :
    contents m live b.ptr = some (bytes m b.ptr b.size) := by
  induction live with
  | nil => cases hb
  | cons c cs ih =>
    rw [List.map_cons, List.nodup_cons] at hnd
    rcases List.mem_cons.mp hb with rfl | hb
    · rw [contents, Store.put_self]
    · rw [contents, Store.put_of_ne, ih hnd.2 hb]
      intro heq
      exact hnd.1 (heq ▸ List.mem_map_of_mem hb)

/-- Every array of the store is a live block's. -/
theorem block_of_contents {bs : List UInt8} (h : contents m live p = some bs) :
    ∃ b ∈ live, b.ptr = p ∧ bs = bytes m b.ptr b.size := by
  induction live with
  | nil => cases h
  | cons b cs ih =>
    rw [contents] at h
    by_cases hp : p = b.ptr
    · subst hp
      rw [Store.put_self] at h
      exact ⟨b, List.mem_cons_self .., rfl, (Option.some.inj h).symm⟩
    · rw [Store.put_of_ne hp] at h
      obtain ⟨c, hc, hcp, hbs⟩ := ih h
      exact ⟨c, List.mem_cons_of_mem _ hc, hcp, hbs⟩

theorem contents_forget : contents m (forget p live) = (contents m live).drop p := by
  funext q
  induction live with
  | nil =>
    by_cases hq : q = p
    · rw [hq, Store.drop_self]
      rfl
    · rw [Store.drop_of_ne hq]
      rfl
  | cons b bs ih =>
    by_cases hb : b.ptr = p
    · have hdrop : forget p (b :: bs) = forget p bs := by simp [forget, hb]
      rw [hdrop, ih, contents, hb]
      by_cases hq : q = p
      · rw [hq, Store.drop_self, Store.drop_self]
      · rw [Store.drop_of_ne hq, Store.drop_of_ne hq, Store.put_of_ne hq]
    · have hkeep : forget p (b :: bs) = b :: forget p bs := by simp [forget, hb]
      rw [hkeep, contents, contents]
      by_cases hq : q = b.ptr
      · rw [hq, Store.put_self, Store.drop_of_ne hb, Store.put_self]
      · rw [Store.put_of_ne hq, ih]
        by_cases hqp : q = p
        · rw [hqp, Store.drop_self, Store.drop_self]
        · rw [Store.drop_of_ne hqp, Store.drop_of_ne hqp, Store.put_of_ne hq]

/-! ### Filling and copying -/

theorem liballocMemcpy_apply (m : Memory) (dst src n x : Nat) (h : dst + n ≤ src ∨ src + n ≤ dst) :
    liballocMemcpy m dst src n x =
      if dst ≤ x ∧ x < dst + n then m (src + (x - dst)) else m x := by
  induction m, dst, src, n using liballocMemcpy.induct with
  | case1 m dst src n ih =>
    -- one word, then the rest
    rw [liballocMemcpy, ih (by omega)]
    have hword : ∀ y, m.store dst 4 (m.load src 4) y =
        if dst ≤ y ∧ y < dst + 4 then m (src + (y - dst)) else m y := by
      intro y
      rw [Memory.store]
      split
      · rw [Memory.byte_of_load (by omega)]
      · rfl
    rw [hword, hword]
    split_ifs <;> first | rfl | omega | skip
    · congr 1
      omega
  | case2 m dst src n hn =>
    rw [liballocMemcpy, Memory.copyBytes_apply _ _ _ _ _ h]
    exact hn

/-! ### Writes to a payload -/

/-- The heap does not read payloads. -/
theorem get_payload (h : Inv s L) {t x : Nat} (ht : t ∈ tags s L) (hx : x ∈ tags s L) {f : Field}
    (hm : ∀ c, ¬ Payload s t c → m c = s.mem c) : Heap.get {s with mem := m} x f = s.get x f := by
  refine get_congr fun c hlo hhi => hm c fun hc => ?_
  have := h.regions.payload_clear ht hc.1 hc.2 x hx
  omega

theorem Inv.write_payload (h : Inv s L) {t : Nat} (ht : t ∈ tags s L)
    (hm : ∀ c, ¬ Payload s t c → m c = s.mem c) : Inv {s with mem := m} L :=
  h.congr rfl rfl rfl rfl fun _ hx _ _ => get_payload h ht hx hm

theorem Inv.used_write (h : Inv s L) {t : Nat} (ht : t ∈ tags s L)
    (hm : ∀ c, ¬ Payload s t c → m c = s.mem c) : used {s with mem := m} L = used s L := by
  ext x
  rw [mem_used, mem_used]
  refine and_congr_right fun hx => ?_
  rw [index_congr (get_payload h ht hx hm)]

/-! ### What holds in every state -/

/-- Every range given back was held, under that base and that page count. -/
def Returned : List PageCall → Prop
  | [] => True
  | .alloc _ _ :: cs => Returned cs
  | .free base pages :: cs => ⟨base, pages⟩ ∈ held cs ∧ Returned cs

structure Sound (σ : System) (L : Layout) : Prop where
  inv : Inv σ.heap L
  nodup : (σ.live.map Block.ptr).Nodup
  header : ∀ b ∈ σ.live, ∃ t ∈ used σ.heap L, b.ptr = t + 48 ∧ σ.heap.get t .size = b.size ∧
    b.size + 48 ≤ σ.heap.get t .realSize
  owned : ∀ t ∈ used σ.heap L, Live σ (t + 48)
  returned : Returned σ.heap.calls

namespace Sound

theorem boot (m : Memory) : Sound (boot m) ⟨fun _ => [], fun _ => []⟩ := by
  have hnot : ∀ t, t ∉ tags (Alloc.boot m).heap ⟨fun _ => [], fun _ => []⟩ := by
    intro t ⟨r, hr, _⟩
    cases hr
  have hregions : Regions (Alloc.boot m).heap [] fun _ => [] :=
    ⟨List.Pairwise.nil, nofun, nofun, nofun, nofun, nofun⟩
  have hbins : Bins (Alloc.boot m).heap (tags (Alloc.boot m).heap ⟨fun _ => [], fun _ => []⟩)
      fun _ => [] :=
    ⟨fun _ => rfl, fun _ => trivial, fun _ => List.nodup_nil,
      fun i t => ⟨nofun, fun ht => absurd ht.1 (hnot t)⟩, fun t ht => absurd ht (hnot t)⟩
  refine ⟨⟨hregions, hbins, fun t ht => absurd ht (hnot t), fun _ => rfl, fun _ => ?_,
    fun t ht => absurd ht (hnot t), fun _ => rfl⟩, List.nodup_nil, nofun,
    fun t ht => absurd ht.1 (hnot t), trivial⟩
  show (0 : Int) ≤ MAXCOMPLETE
  decide

variable {op : Op} {t : Nat}

/-- The block of a live pointer. -/
theorem tag_of_live (h : Sound σ L) (hp : Live σ p) : ∃ t ∈ used σ.heap L, p = t + 48 := by
  obtain ⟨b, hb, rfl⟩ := hp
  obtain ⟨t, ht, heq, _⟩ := h.header b hb
  exact ⟨t, ht, heq⟩

theorem ptr_inj (h : Sound σ L) {b c : Block} (hb : b ∈ σ.live) (hc : c ∈ σ.live)
    (heq : b.ptr = c.ptr) : b = c := List.inj_on_of_nodup_map h.nodup hb hc heq

/-- The bytes of a live block lie in its payload. -/
theorem payload (h : Sound σ L) {b : Block} (hb : b ∈ σ.live) {x : Nat} (hlo : b.ptr ≤ x)
    (hhi : x < b.ptr + b.size) : ∃ t ∈ used σ.heap L, b.ptr = t + 48 ∧ Payload σ.heap t x := by
  obtain ⟨t, ht, heq, _, hroom⟩ := h.header b hb
  refine ⟨t, ht, heq, ?_, ?_⟩
  · omega
  · omega

/-- A call that keeps the blocks in use keeps the arrays of their clients. -/
theorem keep_contents (h : Sound σ L) {U : Set Nat} (hk : Keeps U σ.heap s')
    (hU : ∀ b ∈ live, b ∈ σ.live ∧ ∀ t, b.ptr = t + 48 → t ∈ U) :
    contents s'.mem live = contents σ.heap.mem live := by
  refine contents_congr fun b hb x hlo hhi => ?_
  obtain ⟨hm, ht⟩ := hU b hb
  obtain ⟨t, _, heq, hp⟩ := h.payload hm hlo hhi
  exact hk.payload t (ht t heq) x hp

/-! ### A block handed out -/

section
variable (h : Sound σ L) (hh : Handed n t σ.heap s' L L')
include h hh

theorem handed_store : contents s'.mem σ.live = σ.store := by
  refine h.keep_contents hh.keeps fun b hb => ⟨hb, fun u heq => ?_⟩
  obtain ⟨v, hv, hveq, _⟩ := h.header b hb
  obtain rfl : u = v := by omega
  exact hv

theorem handed_fresh : σ.store.Fresh (t + 48) n := by
  have htT : t ∈ tags s' L' := by
    have : t ∈ used s' L' := by
      rw [hh.inUse]
      exact Set.mem_insert ..
    exact this.1
  have hother : ∀ b ∈ σ.live, t + 48 + n ≤ b.ptr ∧ b.ptr ≠ t + 48 ∨
      b.ptr + b.size ≤ t + 48 ∧ b.ptr ≠ t + 48 := by
    intro b hb
    obtain ⟨u, hu, heq, _, hroom⟩ := h.header b hb
    have hu' : u ∈ used s' L' := by
      rw [hh.inUse]
      exact Set.mem_insert_of_mem _ hu
    have hne : t ≠ u := fun heq => hh.fresh (heq ▸ hu)
    have hroom' := hh.room
    rw [← hh.keeps.realSize u hu] at hroom
    rcases hh.inv.regions.apart htT hu'.1 with hd | hd | hd
    · exact absurd hd hne
    · left
      omega
    · right
      omega
  refine ⟨by omega, contents_of_dead fun b hb => ?_, fun q bs hq => ?_⟩
  · rcases hother b hb with hd | hd
    · exact hd.2
    · exact hd.2
  · obtain ⟨b, hb, rfl, rfl⟩ := block_of_contents hq
    rw [length_bytes]
    rcases hother b hb with hd | hd
    · exact .inl hd.1
    · exact .inr hd.1

theorem handed (hcalls : s'.calls = σ.heap.calls ∨
    ∃ r : PageRange, s'.calls = .alloc r.pages r.base :: σ.heap.calls) :
    Sound ⟨s', ⟨t + 48, n⟩ :: σ.live⟩ L' := by
  have hfresh := h.handed_fresh hh
  refine ⟨hh.inv, ?_, fun b hb => ?_, fun u hu => ?_, ?_⟩
  · rw [List.map_cons, List.nodup_cons]
    refine ⟨fun hm => ?_, h.nodup⟩
    obtain ⟨b, hb, heq⟩ := List.mem_map.mp hm
    have heq : b.ptr = t + 48 := heq
    obtain ⟨u, hu, hueq, _⟩ := h.header b hb
    obtain rfl : u = t := by omega
    exact hh.fresh hu
  · rw [hh.inUse]
    rcases List.mem_cons.mp hb with rfl | hb
    · exact ⟨t, Set.mem_insert .., rfl, hh.noted, hh.room⟩
    · obtain ⟨u, hu, heq, hsize, hroom⟩ := h.header b hb
      refine ⟨u, Set.mem_insert_of_mem _ hu, heq, ?_, ?_⟩
      · rw [hh.keeps.size u hu, hsize]
      · rwa [hh.keeps.realSize u hu]
  · rw [hh.inUse] at hu
    rcases Set.mem_insert_iff.mp hu with rfl | hu
    · exact ⟨_, List.mem_cons_self .., rfl⟩
    · obtain ⟨b, hb, heq⟩ := h.owned u hu
      exact ⟨b, List.mem_cons_of_mem _ hb, heq⟩
  · rcases hcalls with hc | ⟨r, hc⟩
    · rw [hc]
      exact h.returned
    · rw [hc]
      exact h.returned

end

/-! ### A block given up -/

theorem mem_forget : b ∈ forget p live ↔ b ∈ live ∧ b.ptr ≠ p := by
  simp [forget]

section
variable (h : Sound σ L) (hf : Freed t σ.heap s' L L')
include h hf

theorem freed_contents : contents s'.mem (forget (t + 48) σ.live) = σ.store.drop (t + 48) := by
  rw [System.store, ← contents_forget]
  refine h.keep_contents hf.keeps fun b hb => ?_
  obtain ⟨hb, hne⟩ := mem_forget.mp hb
  refine ⟨hb, fun u heq => ?_⟩
  obtain ⟨v, hv, hveq, _⟩ := h.header b hb
  obtain rfl : u = v := by omega
  refine ⟨hv, fun heq' => hne ?_⟩
  rw [heq, Set.mem_singleton_iff.mp heq']

theorem freed : Sound ⟨s', forget (t + 48) σ.live⟩ L' := by
  refine ⟨hf.inv, ?_, fun b hb => ?_, fun u hu => ?_, ?_⟩
  · exact h.nodup.sublist (List.Sublist.map _ List.filter_sublist)
  · obtain ⟨hb, hne⟩ := mem_forget.mp hb
    obtain ⟨u, hu, heq, hsize, hroom⟩ := h.header b hb
    have hu' : u ∈ used σ.heap L \ {t} := by
      refine ⟨hu, fun heq' => hne ?_⟩
      rw [heq, Set.mem_singleton_iff.mp heq']
    refine ⟨u, ?_, heq, ?_, ?_⟩
    · rwa [hf.inUse]
    · rw [hf.keeps.size u hu', hsize]
    · rwa [hf.keeps.realSize u hu']
  · rw [hf.inUse] at hu
    obtain ⟨b, hb, heq⟩ := h.owned u hu.1
    refine ⟨b, mem_forget.mpr ⟨hb, fun heq' => hu.2 ?_⟩, heq⟩
    rw [Set.mem_singleton_iff]
    omega
  · rcases hf.calls with hc | ⟨r, hr, hc⟩
    · rw [hc]
      exact h.returned
    · rw [hc]
      exact ⟨hr, h.returned⟩

end

/-! ### A payload written -/

section
variable (h : Sound σ L) (ht : t ∈ used σ.heap L)
  (hm : ∀ c, ¬ Payload σ.heap t c → m c = σ.heap.mem c)
include h ht hm

theorem written : Sound ⟨{σ.heap with mem := m}, σ.live⟩ L := by
  have hget : ∀ u ∈ used σ.heap L, ∀ f, Heap.get {σ.heap with mem := m} u f = σ.heap.get u f :=
    fun u hu f => get_payload h.inv ht.1 hu.1 hm
  have hused := h.inv.used_write ht.1 hm
  refine ⟨h.inv.write_payload ht.1 hm, h.nodup, fun b hb => ?_, fun u hu => ?_, h.returned⟩
  · obtain ⟨u, hu, heq, hsize, hroom⟩ := h.header b hb
    refine ⟨u, hused.symm.subset hu, heq, ?_, ?_⟩
    · rw [hget u hu, hsize]
    · rwa [hget u hu]
  · exact h.owned u (hused.subset hu)

/-- The arrays of the other blocks are as they were. -/
theorem written_contents (hlive : ∀ b ∈ live, b ∈ σ.live ∧ b.ptr ≠ t + 48) :
    contents m live = contents σ.heap.mem live := by
  refine contents_congr fun b hb x hlo hhi => hm x fun hx => ?_
  obtain ⟨hb, hne⟩ := hlive b hb
  obtain ⟨u, hu, heq, hp⟩ := h.payload hb hlo hhi
  rcases h.inv.regions.apart ht.1 hu.1 with hd | hd | hd
  · rw [← hd] at heq
    exact hne heq
  · have := hx.2
    have := hp.1
    omega
  · have := hx.1
    have := hp.2
    omega

end

/-! ### Live blocks -/

/-- A live block lies inside the address space. -/
theorem live_lt (h : Sound σ L) (hb : b ∈ σ.live) : b.ptr + b.size < 2 ^ 64 ∧ 48 ≤ b.ptr := by
  obtain ⟨t, ht, heq, _, hroom⟩ := h.header b hb
  have := (h.inv.regions.block_lt ht.1).2.1
  omega

/-- Bytes of a live block may be written. -/
theorem written_live (h : Sound σ L) (hb : b ∈ σ.live)
    (hm : ∀ c, c < b.ptr ∨ b.ptr + b.size ≤ c → m c = σ.heap.mem c) :
    Sound ⟨{σ.heap with mem := m}, σ.live⟩ L := by
  obtain ⟨t, ht, heq, _, hroom⟩ := h.header b hb
  refine h.written ht fun c hc => hm c ?_
  by_contra hin
  exact hc ⟨by omega, by omega⟩

/-! ### The calls -/

theorem call_malloc (h : Sound σ L) (hn : Sized n)
    (hs : ∀ p s, malloc src n σ.heap = some (p, s) → Granted s.calls) :
    ∃ t s' L', malloc src n σ.heap = some (t + 48, s') ∧ Handed n t σ.heap s' L L' ∧
      Sound ⟨s', ⟨t + 48, n⟩ :: σ.live⟩ L' := by
  obtain ⟨p, s', heq, hcalls, hg⟩ := h.inv.malloc src hn
  obtain ⟨t, L', rfl, hh⟩ := hg (hs p s' heq)
  exact ⟨t, s', L', heq, hh, h.handed hh (hcalls.imp id fun ⟨r, _, _, hc⟩ => ⟨r, hc⟩)⟩

/-- No live pointer is `NULL`. -/
theorem forget_null (h : Sound σ L) : forget 0 σ.live = σ.live := by
  refine List.filter_eq_self.mpr fun b hb => ?_
  obtain ⟨t, _, heq, _⟩ := h.header b hb
  simp [heq]

theorem call_free (h : Sound σ L) (hp : p = 0 ∨ Live σ p) :
    ∃ s' L', free p σ.heap = some s' ∧ Sound ⟨s', forget p σ.live⟩ L' ∧
      contents s'.mem (forget p σ.live) = σ.store.drop p := by
  rcases hp with rfl | hp
  · refine ⟨σ.heap, L, ?_, ?_, ?_⟩
    · rw [free, if_pos rfl]
    · rw [h.forget_null]
      exact h
    · rw [System.store, ← contents_forget]
  · obtain ⟨t, ht, rfl⟩ := h.tag_of_live hp
    obtain ⟨s', L', heq, hf, _⟩ := h.inv.free ht
    exact ⟨s', L', heq, h.freed hf, h.freed_contents hf⟩

theorem note_ptr : note (t + 48) n live = ⟨t + 48, n⟩ :: live := if_neg (by omega)

/-- `calloc` fills the whole array with zeros. -/
theorem call_calloc (h : Sound σ L) (hlt : k * n < 2 ^ 31)
    (hs : ∀ p s, malloc src (k * n) σ.heap = some (p, s) → Granted s.calls) :
    ∃ t s' L', calloc src k n σ.heap = some (t + 48, s') ∧
      Sound ⟨s', ⟨t + 48, k * n⟩ :: σ.live⟩ L' ∧ σ.store.Fresh (t + 48) (k * n) ∧
      contents s'.mem (⟨t + 48, k * n⟩ :: σ.live) =
        σ.store.put (t + 48) (List.replicate (k * n) 0) := by
  obtain ⟨t, s', L', heq, hh, hsound⟩ := h.call_malloc (sized_of_lt hlt) hs
  have hint : s32 (u64 (k * n)) = (k * n : Nat) := by
    rw [u64_of_lt (by omega), s32_of_lt (by omega)]
  have hsize : ofInt64 ((k * n : Nat) : Int) = k * n := by
    rw [ofInt64_of_nonneg (by omega) (by omega), Int.toNat_natCast]
  have ht : t ∈ used s' L' := by
    rw [hh.inUse]
    exact Set.mem_insert ..
  have hzero : UInt8.ofNat (ofInt32 0) = 0 := by decide
  have hm : ∀ c, ¬ Payload s' t c → s'.mem.fill (t + 48) 0 (k * n) c = s'.mem c := by
    intro c hc
    rw [Memory.fill_apply, if_neg]
    intro ⟨hlo, hhi⟩
    have := hh.room
    exact hc ⟨hlo, by omega⟩
  refine ⟨t, {s' with mem := s'.mem.fill (t + 48) 0 (k * n)}, L', ?_, hsound.written ht hm,
    h.handed_fresh hh, ?_⟩
  · simp only [calloc, hint, hsize, heq, liballocMemset, hzero, Option.bind_eq_bind,
      Option.bind_some, if_pos (show k * n < 2 ^ 31 by omega)]
  · have hold : contents _ σ.live = _ := hsound.written_contents ht hm fun b hb =>
      ⟨List.mem_cons_of_mem _ hb, fun heq => by
        obtain ⟨u, hu, hueq, _⟩ := h.header b hb
        obtain rfl : u = t := by omega
        exact hh.fresh hu⟩
    rw [contents_cons, hold, h.handed_store hh, bytes_fill]

theorem ofInt64_s32 (ha : a < 2 ^ 31) : ofInt64 (s32 a) = a := by
  rw [s32_of_lt ha, ofInt64_of_nonneg (by omega) (by omega), Int.toNat_natCast]

/-- From `2^31` on the `int` is negative, and huge as a `size_t`. -/
theorem ofInt64_s32_large (hlo : 2 ^ 31 ≤ a) (hhi : a < 2 ^ 32) :
    ofInt64 (s32 a) = a + (2 ^ 64 - 2 ^ 32) := by
  unfold ofInt64 s32 u32
  split <;> omega

/-- How many bytes `realloc` copies. -/
theorem copied (ha : a < 2 ^ 32) (hint : a < 2 ^ 31 ∨ n < 2 ^ 31) :
    ofInt64 (if ofInt64 (s32 a) > n then s32 n else s32 a) = min a n := by
  by_cases hlt : a < 2 ^ 31
  · rw [ofInt64_s32 hlt]
    by_cases hle : a > n
    · rw [if_pos hle, ofInt64_s32 (by omega)]
      omega
    · rw [if_neg hle, ofInt64_s32 hlt]
      omega
  · have hlarge := ofInt64_s32_large (Nat.not_lt.mp hlt) ha
    rw [if_pos (by omega), ofInt64_s32 (by omega)]
    omega

/-- Between two sizes from `2^31` on, `realloc` copies more than either. -/
theorem copied_large (ha : 2 ^ 31 ≤ a) (ha' : a < 2 ^ 32) (hn : 2 ^ 31 ≤ n) (hn' : n < 2 ^ 32) :
    n < ofInt64 (if ofInt64 (s32 a) > n then s32 n else s32 a) := by
  have hlarge := ofInt64_s32_large ha ha'
  rw [if_pos (by omega), ofInt64_s32_large hn hn']
  omega

/-- `realloc` finds the tag of a live block behind its pointer. -/
theorem tag_of_ptr (h : Sound σ L) (hu : u ∈ used σ.heap L) (hptr : b.ptr = u + 48) :
    sub64 b.ptr tagSize = u := by
  have hroom := h.inv.regions.room hu.1
  obtain ⟨_, hend, _⟩ := h.inv.regions.block_lt hu.1
  rw [hptr, sub64_tagSize (by omega)]

/-- The copy that `realloc` makes into a new block stays in its payload, and clear of the old block. -/
theorem copy_payload (h : Sound σ L) (hh : Handed n t σ.heap s' L L') (hb : b ∈ σ.live) :
    (t + 48 + min b.size n ≤ b.ptr ∨ b.ptr + min b.size n ≤ t + 48) ∧
      ∀ c, ¬ Payload s' t c →
        liballocMemcpy s'.mem (t + 48) b.ptr (min b.size n) c = s'.mem c := by
  obtain ⟨u, hu, hptr, _, hroom⟩ := h.header b hb
  have ht' : t ∈ used s' L' := by
    rw [hh.inUse]
    exact Set.mem_insert ..
  have hu' : u ∈ used s' L' := by
    rw [hh.inUse]
    exact Set.mem_insert_of_mem _ hu
  have hroom' := hh.room
  have hreal := hh.keeps.realSize u hu
  have hdis : t + 48 + min b.size n ≤ b.ptr ∨ b.ptr + min b.size n ≤ t + 48 := by
    rcases hh.inv.regions.apart ht'.1 hu'.1 with hd | hd | hd
    · exact absurd (hd ▸ hu) hh.fresh
    · left
      omega
    · right
      omega
  refine ⟨hdis, fun c hc => ?_⟩
  rw [liballocMemcpy_apply _ _ _ _ _ hdis, if_neg]
  intro ⟨hlo, hhi⟩
  exact hc ⟨hlo, by omega⟩

/-- `realloc` of a live block: a new block, the bytes both have room for, and the old one
freed. -/
theorem call_realloc (h : Sound σ L) (hn : Sized n) (hpos : 0 < n) (hb : b ∈ σ.live)
    (hint : b.size < 2 ^ 31 ∨ n < 2 ^ 31)
    (hs : ∀ p s, malloc src n σ.heap = some (p, s) → Granted s.calls) :
    ∃ p s' L' bs, realloc src b.ptr n σ.heap = some (p, s') ∧
      Sound ⟨s', ⟨p, n⟩ :: forget b.ptr σ.live⟩ L' ∧ σ.store.Fresh p n ∧
      contents s'.mem (⟨p, n⟩ :: forget b.ptr σ.live) = (σ.store.drop b.ptr).put p bs ∧
      bs.length = n ∧ bs.take (min b.size n) =
        (bytes σ.heap.mem b.ptr b.size).take (min b.size n) := by
  have hlt := hn.lt
  obtain ⟨t, s₁, L₁, heq, hh, h₁⟩ := h.call_malloc hn hs
  obtain ⟨u, hu, hptr, hsize, hroom⟩ := h.header b hb
  have hblt := (h.inv.regions.block_lt hu.1)
  have hne : t ≠ u := fun heq => hh.fresh (heq ▸ hu)
  have ht₁ : t ∈ used s₁ L₁ := by
    rw [hh.inUse]
    exact Set.mem_insert ..
  obtain ⟨hdis, hm⟩ := h.copy_payload hh hb
  have h₂ := h₁.written ht₁ hm
  obtain ⟨s₃, L₃, hfree, h₃, hstore⟩ := h₂.call_free (.inr ⟨b, List.mem_cons_of_mem _ hb, rfl⟩)
  have hne' : t + 48 ≠ b.ptr := by omega
  have hforget : forget b.ptr (⟨t + 48, n⟩ :: σ.live) = ⟨t + 48, n⟩ :: forget b.ptr σ.live := by
    simp [forget, hne']
  have hold : contents (liballocMemcpy s₁.mem (t + 48) b.ptr (min b.size n)) σ.live = σ.store := by
    rw [h₁.written_contents ht₁ hm fun c hc => ⟨List.mem_cons_of_mem _ hc, fun heq => ?_⟩,
      h.handed_store hh]
    obtain ⟨v, hv, hveq, _⟩ := h.header c hc
    obtain rfl : v = t := by omega
    exact hh.fresh hv
  have htag := h.tag_of_ptr hu hptr
  rw [hforget] at h₃ hstore
  refine ⟨t + 48, s₃, L₃, bytes (liballocMemcpy s₁.mem (t + 48) b.ptr (min b.size n)) (t + 48) n,
    ?_, h₃, h.handed_fresh hh, ?_, length_bytes, ?_⟩
  · have hcopied := copied (a := b.size) (n := n) (by omega) hint
    simp only [realloc, htag, hsize, heq, hcopied, Option.bind_eq_bind, Option.bind_some]
    rw [if_neg (by omega), if_neg (by omega)]
    rw [hfree]
    rfl
  · rw [hstore, ← Store.drop_put hne', ← hold]
    rfl
  · refine take_bytes (by omega) (by omega) fun i hi => ?_
    rw [liballocMemcpy_apply _ _ _ _ _ hdis, if_pos (by omega),
      show b.ptr + (t + 48 + i - (t + 48)) = b.ptr + i by omega]
    exact hh.keeps.payload u hu _ ⟨by omega, by omega⟩

/-- A client writes one byte of a block of its own. -/
theorem call_write (h : Sound σ L) (hb : b ∈ σ.live) (hlo : b.ptr ≤ a) (hhi : a < b.ptr + b.size)
    (v : UInt8) :
    Sound ⟨{σ.heap with mem := Function.update σ.heap.mem a v}, σ.live⟩ L ∧
      contents (Function.update σ.heap.mem a v) σ.live =
        σ.store.put b.ptr ((bytes σ.heap.mem b.ptr b.size).set (a - b.ptr) v) := by
  obtain ⟨t, ht, hptr, hp⟩ := h.payload hb hlo hhi
  have hm : ∀ c, ¬ Payload σ.heap t c → Function.update σ.heap.mem a v c = σ.heap.mem c := by
    intro c hc
    rw [Function.update_of_ne]
    intro heq
    exact hc (heq ▸ hp)
  refine ⟨h.written ht hm, ?_⟩
  funext q
  by_cases hq : q = b.ptr
  · subst hq
    rw [contents_of_mem h.nodup hb, Store.put_self, bytes_update hlo]
  · have hrest : contents _ (forget b.ptr σ.live) = _ := h.written_contents ht hm fun c hc => by
      rw [← hptr]
      exact mem_forget.mp hc
    rw [contents_forget, contents_forget] at hrest
    have hrest := congrFun hrest q
    rw [Store.drop_of_ne hq, Store.drop_of_ne hq] at hrest
    rw [hrest, Store.put_of_ne hq]
    rfl

/-- `realloc` to nothing is `free`, of nothing it is `malloc`. -/
theorem step_realloc (h : Sound σ L) (hn : Sized n) (hp : p = 0 ∨ Live σ p)
    (hint : n < 2 ^ 31 ∨ ∀ b ∈ σ.live, b.ptr = p → b.size < 2 ^ 31)
    (hs : Served src (.realloc p n) σ) :
    ∃ p' σ' L', Alloc.step src (.realloc p n) σ = some (p', σ') ∧ Sound σ' L' ∧
      Store.Step (.realloc p n) p' σ.store σ'.store := by
  by_cases hn0 : n = 0
  · subst hn0
    obtain ⟨s', L', heq, hsound, hstore⟩ := h.call_free hp
    refine ⟨0, ⟨s', forget p σ.live⟩, L', ?_, hsound, ?_⟩
    · simp only [Alloc.step, realloc, if_true, heq, Option.bind_eq_bind, Option.bind_some, note]
    · show Store.Step _ _ _ (contents s'.mem (forget p σ.live))
      rw [hstore]
      exact .reallocZero
  have hs' := hs n (if_neg hn0)
  have hpos : 0 < n := by omega
  rcases hp with rfl | ⟨b, hb, rfl⟩
  · obtain ⟨t, s', L', heq, hh, hsound⟩ := h.call_malloc hn hs'
    refine ⟨t + 48, ⟨s', ⟨t + 48, n⟩ :: σ.live⟩, L', ?_, hsound, ?_⟩
    · simp only [Alloc.step, realloc, if_neg hn0, if_true, heq, Option.bind_eq_bind,
        Option.bind_some, note_ptr, h.forget_null]
    · show Store.Step _ _ _ (contents s'.mem (⟨t + 48, n⟩ :: σ.live))
      rw [contents_cons, h.handed_store hh]
      exact .reallocNull (h.handed_fresh hh) hpos length_bytes
  · obtain ⟨p, s', L', bs, heq, hsound, hfresh, hstore, hlen, htake⟩ :=
      h.call_realloc hn hpos hb (hint.symm.imp (fun hsize => hsize b hb rfl) id) hs'
    refine ⟨p, ⟨s', ⟨p, n⟩ :: forget b.ptr σ.live⟩, L', ?_, hsound, ?_⟩
    · simp only [Alloc.step, heq, Option.bind_eq_bind, Option.bind_some, note,
        if_neg hfresh.nonnull]
    · show Store.Step _ _ _ (contents s'.mem (⟨p, n⟩ :: forget b.ptr σ.live))
      rw [hstore]
      refine .realloc (contents_of_mem h.nodup hb) hfresh hpos hlen ?_
      rwa [length_bytes]

/-- Every step ends, keeps `Sound` and is one of the abstract store. -/
theorem step (h : Sound σ L) (hl : Allowed op σ) (hs : Served src op σ) :
    ∃ p σ' L', step src op σ = some (p, σ') ∧ Sound σ' L' ∧
      Store.Step op p σ.store σ'.store := by
  cases op with
  | malloc n =>
    obtain ⟨t, s', L', heq, hh, hsound⟩ := h.call_malloc hl (hs n rfl)
    refine ⟨t + 48, ⟨s', ⟨t + 48, n⟩ :: σ.live⟩, L', ?_, hsound, ?_⟩
    · simp only [Alloc.step, heq, Option.bind_eq_bind, Option.bind_some, note_ptr]
    · show Store.Step _ _ _ (contents s'.mem (⟨t + 48, n⟩ :: σ.live))
      rw [contents_cons, h.handed_store hh]
      exact .malloc (h.handed_fresh hh) length_bytes
  | calloc k n =>
    obtain ⟨t, s', L', heq, hsound, hfresh, hstore⟩ := h.call_calloc hl (hs (k * n) rfl)
    refine ⟨t + 48, ⟨s', ⟨t + 48, k * n⟩ :: σ.live⟩, L', ?_, hsound, ?_⟩
    · simp only [Alloc.step, heq, Option.bind_eq_bind, Option.bind_some, note_ptr]
    · show Store.Step _ _ _ (contents s'.mem (⟨t + 48, k * n⟩ :: σ.live))
      rw [hstore]
      exact .calloc hfresh
  | realloc p n => exact h.step_realloc hl.1 hl.2.1 hl.2.2 hs
  | free p =>
    obtain ⟨s', L', heq, hsound, hstore⟩ := h.call_free hl
    refine ⟨0, ⟨s', forget p σ.live⟩, L', ?_, hsound, ?_⟩
    · simp only [Alloc.step, heq, Option.bind_eq_bind, Option.bind_some]
    · show Store.Step _ _ _ (contents s'.mem (forget p σ.live))
      rw [hstore]
      exact .free
  | write a v =>
    obtain ⟨b, hb, hlo, hhi⟩ := hl
    obtain ⟨hsound, hstore⟩ := h.call_write hb hlo hhi v
    refine ⟨0, _, L, rfl, hsound, ?_⟩
    show Store.Step _ _ _ (contents (Function.update σ.heap.mem a v) σ.live)
    rw [hstore]
    have hmem : σ.store b.ptr = some (bytes σ.heap.mem b.ptr b.size) := contents_of_mem h.nodup hb
    have hstep := Store.Step.write (v := v) hmem (i := a - b.ptr) (by rw [length_bytes]; omega)
    rwa [show b.ptr + (a - b.ptr) = a by omega] at hstep

end Sound

namespace History
variable {trace : List (Op × Nat)}

/-- `Sound` in every state reached, and the run of the abstract store behind it. -/
theorem sound (h : History src trace σ) : ∃ L, Sound σ L := by
  induction h with
  | boot m => exact ⟨_, Sound.boot m⟩
  | step past legal served now ih =>
    obtain ⟨L, hL⟩ := ih
    obtain ⟨p, σ', L', heq, hsound, _⟩ := hL.step legal.allowed served
    obtain ⟨_, rfl⟩ := Prod.mk.inj (Option.some.inj (heq.symm.trans now))
    exact ⟨L', hsound⟩

theorem run (h : History src trace σ) : Store.Run trace σ.store := by
  induction h with
  | boot m => exact .nil
  | step past legal served now ih =>
    obtain ⟨L, hL⟩ := past.sound
    obtain ⟨p, σ', L', heq, _, hstep⟩ := hL.step legal.allowed served
    obtain ⟨rfl, rfl⟩ := Prod.mk.inj (Option.some.inj (heq.symm.trans now))
    exact ih.snoc hstep

end History

/-! ### A first run -/

/-- Every 16 MiB a range. -/
def apart16 : PageSource := fun calls _ => 0x1000000 * (calls.length + 1)

/-- The first of them. -/
def first16 : PageRange := ⟨0x1000000, 16⟩

/-- After 100 bytes were asked for. -/
def once : System :=
  ⟨(carve 100 first16.base (obtained first16 100 (setup (boot fun _ => 0).heap))).2,
    [⟨0x1000030, 100⟩]⟩

theorem once_heap : once.heap =
    (carve 100 first16.base (obtained first16 100 (setup (boot fun _ => 0).heap))).2 := by
  rw [once]

theorem once_live : Live once 0x1000030 := ⟨⟨0x1000030, 100⟩, by rw [once]; simp, rfl⟩

/-- Nobody has freed anything yet. -/
theorem search_boot (m : Memory) (size i : Nat) :
    search (setup (boot m).heap) size ((setup (boot m).heap).freePages i) = some 0 := by
  rw [search]
  exact if_pos rfl

theorem malloc_once (hsrc : src [] 16 = 0x1000000) :
    malloc src 100 (boot fun _ => 0).heap = some (0x1000030, once.heap) := by
  have hsize : u32 100 = 100 := by decide
  have hptr : (carve 100 first16.base (obtained first16 100 (setup (boot fun _ => 0).heap))).1 =
      0x1000030 := by
    show u64 (first16.base + tagSize) = 0x1000030
    decide
  have hrange : first16 = ⟨src [] 16, 16⟩ := by
    rw [hsrc]
    rfl
  rw [malloc_none (search_boot ..) hrange, if_neg (by decide), hsize, ← hptr, once_heap]

theorem step_once (hsrc : src [] 16 = 0x1000000) :
    step src (.malloc 100) (boot fun _ => 0) = some (0x1000030, once) := by
  have hnote : note 0x1000030 100 (boot fun _ => 0).live = once.live := if_neg (by omega)
  simp only [step, malloc_once hsrc, hnote, Option.bind_eq_bind, Option.bind_some]

theorem once_calls : once.heap.calls = [.alloc 16 0x1000000] := by
  rw [once_heap, carve_calls]
  rfl

theorem served_once (hsrc : src [] 16 = 0x1000000) : Served src (.malloc 100) (boot fun _ => 0) := by
  intro n hn p s hs
  obtain rfl : 100 = n := Option.some.inj hn
  obtain ⟨_, rfl⟩ := Prod.mk.inj (Option.some.inj ((malloc_once hsrc).symm.trans hs))
  rw [once_calls]
  exact ⟨by decide, by decide, nofun, trivial⟩

theorem history_once (hsrc : src [] 16 = 0x1000000) :
    History src [(.malloc 100, 0x1000030)] once :=
  (History.boot _).step (show Small 100 by decide) (served_once hsrc) (step_once hsrc)

/-- The remainder serves the next request of its exponent, and leaves one itself. -/
theorem malloc_reused : ∃ s, malloc src 40000 once.heap = some (0x10000c4, s) ∧ s.calls = once.heap.calls := by
  have hinit : setup once.heap = once.heap := by
    rw [setup, if_pos (by decide +kernel)]
  have hhead : once.heap.freePages 15 = 0x1000094 := by decide +kernel
  have hsearch : search (setup once.heap) 40000 ((setup once.heap).freePages (searchBin 40000)) =
      some 0x1000094 := by
    have hbin : searchBin 40000 = 15 := by decide
    rw [hinit, hbin, hhead, search, if_neg (by decide), if_pos (by decide +kernel)]
  obtain ⟨c, hc⟩ : ∃ c, c = carve 40000 0x1000094 (takeTag 0x1000094 (searchBin 40000) (setup once.heap)) :=
    ⟨_, rfl⟩
  have hnow : malloc src 40000 once.heap = some c := hc ▸ malloc_found (by decide) hsearch
  have hptr : c.1 = 0x10000c4 := by
    rw [hc]
    show u64 (0x1000094 + tagSize) = 0x10000c4
    decide
  refine ⟨c.2, by rw [hnow, ← hptr], ?_⟩
  rw [hc, carve_calls, takeTag_calls, setup_calls]

/-- Two blocks are split off the first range, and the second is freed, with a free block behind it. -/
def reuse : List (Op × Nat) :=
  [(.malloc 100, 0x1000030), (.malloc 40000, 0x10000c4), (.free 0x10000c4, 0)]

theorem history_reuse : ∃ σ, History apart16 reuse σ ∧ σ.live = [⟨0x1000030, 100⟩] := by
  obtain ⟨s, hnow, hcalls⟩ : ∃ s, malloc apart16 40000 once.heap = some (0x10000c4, s) ∧
    s.calls = once.heap.calls := malloc_reused
  have hone : History apart16 [(.malloc 100, 0x1000030)] once := history_once (by decide)
  have hserved : Served apart16 (.malloc 40000) once := by
    intro n hn p s' heq
    obtain rfl := Option.some.inj hn
    obtain ⟨_, rfl⟩ := Prod.mk.inj (Option.some.inj (hnow.symm.trans heq))
    rw [hcalls, once_calls]
    exact ⟨by decide, by decide, nofun, trivial⟩
  have hlive : note 0x10000c4 40000 once.live = [⟨0x10000c4, 40000⟩, ⟨0x1000030, 100⟩] := if_neg (by omega)
  have hlegal : Legal (.malloc 40000) once := show Small 40000 by decide
  have hstep : step apart16 (.malloc 40000) once = some (0x10000c4, ⟨s, note 0x10000c4 40000 once.live⟩) := by
    simp only [step, hnow, Option.bind_eq_bind, Option.bind_some]
  have htwo := hone.step hlegal hserved hstep
  rw [hlive] at htwo
  have hfreed : Live ⟨s, [⟨0x10000c4, 40000⟩, ⟨0x1000030, 100⟩]⟩ 0x10000c4 :=
    ⟨⟨0x10000c4, 40000⟩, List.mem_cons_self .., rfl⟩
  obtain ⟨L, hL⟩ := htwo.sound
  obtain ⟨s', _, hfree, _⟩ := hL.call_free (.inr hfreed)
  have hlegal' : Legal (.free 0x10000c4) ⟨s, [⟨0x10000c4, 40000⟩, ⟨0x1000030, 100⟩]⟩ := .inr hfreed
  have hstep' : step apart16 (.free 0x10000c4) ⟨s, [⟨0x10000c4, 40000⟩, ⟨0x1000030, 100⟩]⟩ =
      some (0, ⟨s', [⟨0x1000030, 100⟩]⟩) := by
    simp only [step, hfree, Option.bind_eq_bind, Option.bind_some]
    rfl
  exact ⟨_, htwo.step hlegal' nofun hstep', rfl⟩

end Kvi.Alloc
